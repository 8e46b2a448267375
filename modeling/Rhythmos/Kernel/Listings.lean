import Rhythmos.Filesystem.Catalogues
import Rhythmos.Kernel.Progress
import Rhythmos.Libc.FormatStrings

/-!
# Directory listings

`getdent` hands the name of an entry to `snprintf` as the format.  Names without `'%'` come
out as they are, in order and each once; with a `'%'` in it, a name makes `snprintf` read
arguments that nobody passed, or the bytes behind the name.
-/

namespace Rhythmos.Kernel

open Fallible ByteMemory Filesystem Libc Machine

/-! ## Listings -/

/-- The handle after `getdent` has returned an entry. -/
def Core.nextEntry (c : Core) (fh : Block) : Core :=
  c.setHandle fh ((c.handles fh).map fun handle => { handle with entryno := handle.entryno + 1 })

/-- What a call of `getdent` does when the names from the handle's position on are `names`:
it delivers the first of them, or returns 0. -/
def Machine.deliver (m : Machine) (pid : Pid) (fh : Block) (entry : Word) :
    List EntryName → Except Fault (Machine × Word)
  | [] => .ok (m, 0)
  | name :: _ => do
      let m ← (m.setCore (m.core.nextEntry fh)).copyOut pid entry.toNat
        (wordBytes 0 ++ (name.chars ++ [0]))
      return (m, 1)

/-- The image with other contents of the kernel stack. -/
def Image.withStack (image : Image) (words : DirectoryEntry → ℕ → ℕ → Word)
    (memory : DirectoryEntry → ℕ → Memory) : Image :=
  { image with strayWords := words, strayMemory := memory }

/-- `fh` is a handle that `open` made for the directory, and since then `getdent` was called
`count` times on it, through any descriptors of any processes, with changes of other data in
between. -/
inductive Listing (image : Image) (dir : DirectoryEntry) (fh : Block) : ℕ → Machine → Prop
  | opened {m : Machine} {core : Core} {pid : Pid} {fd : Fd} : m.image = image →
      m.core.openEntry pid fd dir = .ok core → (core.processes pid).filedesc fd = some fh →
      Listing image dir fh 0 (m.setCore core)
  | getdent {count : ℕ} {m m' : Machine} {pid : Pid} {fd entry res : Word} {slot : Fd} :
      Listing image dir fh count m → m.core.lookup pid fd = some (slot, fh) →
      validPointer (m.spaces pid) entry.toNat direntSize = true →
      m.syscallGetdent pid fd entry = .ok (m', res) → Listing image dir fh (count + 1) m'
  | elsewhere {count : ℕ} {m m' : Machine} : Listing image dir fh count m →
      m'.image = m.image →
      (∀ handle, m.core.handles fh = some handle → ∃ handle', m'.core.handles fh = some handle' ∧
        handle'.kind = handle.kind ∧ handle'.entryno = handle.entryno) →
      Listing image dir fh count m'

/-- In every listing of the directory, whatever lies on the kernel's stack, the calls of
`getdent` deliver the names one after the other, and then return 0 for ever. -/
def Lists (image : Image) (dir : DirectoryEntry) (names : List EntryName) : Prop :=
  ∀ words memory fh count m, Listing (image.withStack words memory) dir fh count m →
    ∀ pid fd entry slot, m.core.lookup pid fd = some (slot, fh) →
      validPointer (m.spaces pid) entry.toNat direntSize = true →
      m.syscallGetdent pid fd entry = m.deliver pid fh entry (names.drop count)

/-! ## Steps of a listing -/

variable {image : Image} {dir : DirectoryEntry} {fh : Block} {names : List EntryName}
  {m m' : Machine} {pid : Pid} {fd entry : Word} {slot : Fd} {handle : FileHandle}

/-- The handle of a directory at a position. -/
structure Positioned (image : Image) (dir : DirectoryEntry) (fh : Block) (position : ℕ)
    (m : Machine) : Prop where
  image_eq : m.image = image
  handle : ∃ handle, m.core.handles fh = some handle ∧ handle.kind = .dir dir ∧
    handle.entryno = position

theorem Positioned.opened {core : Core} {fd : Fd} (hdir : dir.isDir = true)
    (himage : m.image = image) (hopen : m.core.openEntry pid fd dir = .ok core)
    (hslot : (core.processes pid).filedesc fd = some fh) :
    Positioned image dir fh 0 (m.setCore core) := by
  rw [Core.openEntry, bind_eq_ok] at hopen
  obtain ⟨⟨c, made⟩, hnew, hcore⟩ := hopen
  obtain rfl := Except.ok.inj hcore
  rw [Core.newFile, Core.newHandle, bind_eq_ok] at hnew
  obtain ⟨⟨c₁, b⟩, hmalloc, hnew⟩ := hnew
  obtain ⟨rfl, rfl⟩ := Prod.mk.inj (Except.ok.inj hnew)
  obtain rfl : b = fh := by simpa [Core.install, Core.setFiledesc] using hslot
  refine ⟨himage, ⟨.dir dir, 1, 0, 0⟩, ?_, rfl, rfl⟩
  simp [Machine.setCore, Core.install, Core.setFiledesc, hdir]

/-- A call of `getdent` at a position. -/
theorem Positioned.syscallGetdent_eq {position : ℕ}
    (hpositioned : Positioned image dir fh position m)
    (hholds : HoldsNames image.filesystem dir.location names)
    (hlookup : m.core.lookup pid fd = some (slot, fh))
    (hvalid : validPointer (m.spaces pid) entry.toNat direntSize = true) :
    m.syscallGetdent pid fd entry =
      if names.length ≤ position then .ok (m, 0)
      else do
        let name ← image.direntName dir position
        let m ← (m.setCore (m.core.nextEntry fh)).copyOut pid entry.toNat (wordBytes 0 ++ name)
        return (m, 1) := by
  obtain ⟨rfl, handle, hhandle, hkind, rfl⟩ := hpositioned
  simp only [Machine.syscallGetdent, hvalid, Bool.not_true, Bool.false_eq_true, if_false, hlookup,
    Core.handle, hhandle, ok_bind, hkind, hholds.count, Core.nextEntry, Option.map_some,
    pure_eq_ok]

theorem copyOut_keeps {address : ℕ} {bytes : List UInt8}
    (hstored : m.copyOut pid address bytes = .ok m') :
    m'.image = m.image ∧ m'.core.handles = m.core.handles := by
  obtain ⟨-, m₁, hstores, rfl⟩ := copyOut_eq_ok.mp hstored
  rw [storeUser, bind_eq_ok] at hstores
  obtain ⟨pages, -, hpages⟩ := hstores
  obtain rfl := Except.ok.inj hpages
  exact ⟨rfl, rfl⟩

theorem Positioned.store {position : ℕ} (hpositioned : Positioned image dir fh position m)
    {address : ℕ} {bytes : List UInt8} (hstored : m.copyOut pid address bytes = .ok m') :
    Positioned image dir fh position m' := by
  obtain ⟨himage, hhandles⟩ := copyOut_keeps hstored
  exact ⟨himage.trans hpositioned.image_eq, hhandles ▸ hpositioned.handle⟩

theorem Positioned.nextEntry {position : ℕ} (hpositioned : Positioned image dir fh position m) :
    Positioned image dir fh (position + 1) (m.setCore (m.core.nextEntry fh)) := by
  obtain ⟨himage, handle, hhandle, hkind, rfl⟩ := hpositioned
  refine ⟨himage, { handle with entryno := handle.entryno + 1 }, ?_, hkind, rfl⟩
  simp [setCore, Core.nextEntry, hhandle]

/-- The names come out of `snprintf` as they are. -/
def Prints (image : Image) (dir : DirectoryEntry) (names : List EntryName) : Prop :=
  ∀ i (h : i < names.length), image.direntName dir i = .ok ((names.get ⟨i, h⟩).chars ++ [0])

/-- A call of `getdent` where names come out as they are. -/
theorem Positioned.syscallGetdent_deliver {position : ℕ}
    (hpositioned : Positioned image dir fh position m)
    (hholds : HoldsNames image.filesystem dir.location names) (hprints : Prints image dir names)
    (hlookup : m.core.lookup pid fd = some (slot, fh))
    (hvalid : validPointer (m.spaces pid) entry.toNat direntSize = true) :
    m.syscallGetdent pid fd entry = m.deliver pid fh entry (names.drop position) := by
  rw [hpositioned.syscallGetdent_eq hholds hlookup hvalid]
  split
  next hend => rw [List.drop_eq_nil_of_le hend, deliver]
  next hmore =>
    have hposition : position < names.length := Nat.lt_of_not_le hmore
    rw [List.drop_eq_getElem_cons hposition, deliver, hprints position hposition, ok_bind]
    rfl

theorem Positioned.deliver {position : ℕ} {res : Word}
    (hpositioned : Positioned image dir fh (min position names.length) m)
    (hdelivered : m.deliver pid fh entry (names.drop position) = .ok (m', res)) :
    Positioned image dir fh (min (position + 1) names.length) m' := by
  by_cases hposition : position < names.length
  · rw [Nat.min_eq_left hposition.le] at hpositioned
    rw [List.drop_eq_getElem_cons hposition, Machine.deliver, bind_eq_ok] at hdelivered
    obtain ⟨m₁, hstored, hresult⟩ := hdelivered
    obtain ⟨rfl, -⟩ := Prod.mk.inj (Except.ok.inj hresult)
    rw [Nat.min_eq_left hposition]
    exact hpositioned.nextEntry.store hstored
  · rw [List.drop_eq_nil_of_le (Nat.le_of_not_lt hposition), Machine.deliver] at hdelivered
    obtain ⟨rfl, -⟩ := Prod.mk.inj (Except.ok.inj hdelivered)
    rw [Nat.min_eq_right (by omega)] at hpositioned ⊢
    exact hpositioned

/-! ## Runs -/

/-- In a listing where names come out as they are, the position counts the calls. -/
theorem Listing.positioned {count : ℕ} (hdir : dir.isDir = true)
    (hholds : HoldsNames image.filesystem dir.location names) (hprints : Prints image dir names)
    (hlisting : Listing image dir fh count m) :
    Positioned image dir fh (min count names.length) m := by
  induction hlisting with
  | opened himage hopen hslot =>
      rw [Nat.zero_min]
      exact .opened hdir himage hopen hslot
  | @getdent count m _ _ _ _ _ _ hlisting hlookup hvalid hcall ih =>
      rw [ih.syscallGetdent_deliver hholds hprints hlookup hvalid] at hcall
      by_cases hcount : count ≤ names.length
      · rw [Nat.min_eq_left hcount] at hcall
        exact ih.deliver hcall
      · have hend : names.drop (min count names.length) = names.drop count := by
          rw [List.drop_eq_nil_of_le (by omega), List.drop_eq_nil_of_le (by omega)]
        rw [hend] at hcall
        exact ih.deliver hcall
  | elsewhere _ himage hhandles ih =>
      obtain ⟨himage', handle, hhandle, hkind, hposition⟩ := ih
      obtain ⟨handle', hhandle', hkind', hposition'⟩ := hhandles handle hhandle
      exact ⟨himage.trans himage', handle', hhandle', hkind'.trans hkind,
        hposition'.trans hposition⟩

theorem lists_of_prints (hdir : dir.isDir = true)
    (hholds : HoldsNames image.filesystem dir.location names)
    (hprints : ∀ words memory, Prints (image.withStack words memory) dir names) :
    Lists image dir names := by
  intro words memory fh count m hlisting pid fd entry slot hlookup hvalid
  have hholds' : HoldsNames (image.withStack words memory).filesystem dir.location names := hholds
  have hpositioned := hlisting.positioned hdir hholds' (hprints words memory)
  rw [hpositioned.syscallGetdent_deliver hholds' (hprints words memory) hlookup hvalid]
  by_cases hcount : count ≤ names.length
  · rw [Nat.min_eq_left hcount]
  · rw [List.drop_eq_nil_of_le (by omega), List.drop_eq_nil_of_le (by omega)]

/-! ## Names as formats -/

/-- What `snprintf` leaves in `d_name`. -/
theorem direntName_eq {i length : ℕ} {str : ℕ → UInt8} {out : List UInt8}
    (hprinted : Printf.vsnprintf (fun _ => 0) (nameMax + 1) (image.direntSource dir i) =
      .ok (str, length)) (hlength : length = out.length)
    (hbytes : BytesAt str 0 (out.take nameMax ++ [0])) :
    image.direntName dir i = .ok (out.take nameMax ++ [0]) := by
  have htaken : min length nameMax + 1 = (out.take nameMax ++ [0]).length := by
    rw [List.length_append, List.length_take, hlength, Nat.min_comm]
    rfl
  rw [Image.direntName, hprinted]
  dsimp only
  rw [htaken, loadBytes_bytesAt hbytes]

theorem direntSource_bytesAt {i : ℕ} (offset : ℕ) {bytes : List UInt8}
    (hbytes : BytesAt image.filesystem (entryAddress dir.location i + 20 + offset) bytes) :
    BytesAt (image.direntSource dir i).format offset bytes := by
  intro index hindex
  rw [← hbytes index hindex, Nat.add_assoc (_ + 20)]
  rfl

/-- A name without `'%'`, or with a single one at its end and a second NUL behind the
terminator, comes out as it is. -/
theorem direntName_self (image : Image) {i : ℕ} {name : EntryName}
    (hname : BytesAt image.filesystem (entryAddress dir.location i + 20) (name.chars ++ [0]))
    (hlast : Printf.ascii '%' ∉ name.chars.dropLast)
    (hpadded : Printf.ascii '%' ∈ name.chars →
      image.filesystem (entryAddress dir.location i + 20 + (name.chars.length + 1)) = 0) :
    image.direntName dir i = .ok (name.chars ++ [0]) := by
  have hlength := name.length_lt
  have hmax : maxFilenameLen = 255 := rfl
  have hshort : name.chars.length < nameMax := hlength.trans (by decide)
  have htaken : name.chars.take nameMax = name.chars := List.take_of_length_le hshort.le
  have hformat := direntSource_bytesAt 0 hname
  by_cases hpercent : Printf.ascii '%' ∈ name.chars
  · have hsplit := Printf.eq_dropLast_percent hpercent hlast
    have hformat' : BytesAt (image.direntSource dir i).format 0
        (name.chars.dropLast ++ [Printf.ascii '%', 0] ++ [] ++ [0]) := by
      have hbehind := hpadded hpercent
      have hwhole : name.chars.dropLast ++ [Printf.ascii '%', 0] ++ [] ++ [0] =
          (name.chars ++ [0]) ++ [0] := by
        rw [hsplit, List.dropLast_concat]
        simp
      rw [hwhole, bytesAt_append]
      refine ⟨hformat, bytesAt_cons.mpr ⟨?_, fun _ h => absurd h (Nat.not_lt_zero _)⟩⟩
      rw [Nat.zero_add, List.length_append, List.length_singleton]
      exact hbehind
    obtain ⟨str, hprinted, hbytes⟩ := Printf.vsnprintf_final
      (fun hmem => name.nonzero (List.mem_of_mem_dropLast hmem)) hlast List.not_mem_nil
      List.not_mem_nil hformat' (by rw [List.length_dropLast, List.length_nil]; omega)
      (fun _ => 0) (Nat.succ_pos nameMax)
    rw [List.append_nil, ← hsplit] at hprinted hbytes
    rw [direntName_eq hprinted rfl hbytes, htaken]
  · obtain ⟨str, hprinted, hbytes⟩ := Printf.vsnprintf_literals name.nonzero hpercent hformat
      (by omega) (fun _ => 0) (Nat.succ_pos nameMax)
    rw [direntName_eq hprinted rfl hbytes, htaken]

/-- Where the arguments on the stack are plain, a name that comes out as it is has a `'%'` at
most at its end. -/
theorem notMem_dropLast_of_direntName (image : Image) {i : ℕ} {name : EntryName}
    (hname : BytesAt image.filesystem (entryAddress dir.location i + 20) (name.chars ++ [0]))
    (hpadded : image.filesystem (entryAddress dir.location i + 20 + (name.chars.length + 1)) = 0)
    (hplain : Printf.Plain (image.direntSource dir i))
    (hprints : image.direntName dir i = .ok (name.chars ++ [0])) :
    Printf.ascii '%' ∉ name.chars.dropLast := by
  have hlength := name.length_lt
  have hmax : maxFilenameLen = 255 := rfl
  have hnameMax : nameMax = 1024 := rfl
  obtain ⟨reading⟩ := Printf.exists_reading name.chars name.nonzero
  have hformat : BytesAt (image.direntSource dir i).format 0 (Printf.text reading.all ++ [0]) := by
    rcases reading.text_all with htext | htext
    · rw [htext]
      exact direntSource_bytesAt 0 hname
    · rw [htext, bytesAt_append, bytesAt_cons, List.length_append, List.length_singleton]
      exact ⟨direntSource_bytesAt 0 hname, by rw [Nat.zero_add]; exact hpadded,
        fun _ h => absurd h (Nat.not_lt_zero _)⟩
  have htext : (Printf.text reading.all).length ≤ name.chars.length + 1 := by
    rcases reading.text_all with htext | htext
    · rw [htext]
      exact Nat.le_succ _
    · rw [htext, List.length_append, List.length_singleton]
  have hresult := hprints
  rw [Image.direntName] at hresult
  split at hresult
  next str length hprinted =>
    obtain ⟨out, hshows, hout, hbytes⟩ := Printf.vsnprintf_shows hplain (Nat.succ_pos nameMax)
      (by decide) hformat (by rw [wordCount]; omega) hprinted
    rw [direntName_eq hprinted hout hbytes] at hprints
    have hsame : out.take nameMax = name.chars :=
      List.append_cancel_right (Except.ok.inj hprints)
    have hall : out = name.chars := by
      have htaken := congrArg List.length hsame
      rw [List.length_take] at htaken
      rw [← hsame, List.take_of_length_le (by omega)]
    exact reading.notMem_dropLast (hall ▸ hshows)
  next => cases hresult

/-! ## A listing with paging disabled -/

/-- The address of the entry that the process passes to `getdent`. -/
def entryPointer : Word := BitVec.ofNat 32 pageStart

theorem toNat_entryPointer : entryPointer.toNat = pageStart := by decide

/-- Paging is disabled, and the process 0 can read the directory `fh` into an entry. -/
structure Unpaged (fh : Block) (m : Machine) : Prop where
  cr3 : m.cr3 = none
  lookup : m.core.lookup 0 0 = some (0, fh)
  valid : validPointer (m.spaces 0) entryPointer.toNat direntSize = true

/-- A machine whose first process has room for an entry. -/
def reader (image : Image) : Machine where
  core := Core.initial fun _ _ => 0
  pages := ⟨fun _ => 0, pageStart, 0, 0, []⟩
  spaces := fun _ => { AddressSpace.zero with stackEnd := pageStart + direntSize }
  cr3 := none
  image := image

theorem exists_opened (image : Image) (hdir : dir.isDir = true) :
    ∃ m, Listing image dir 0 0 m ∧ Positioned image dir 0 0 m ∧ Unpaged 0 m := by
  obtain ⟨core, hopen, hslot⟩ : ∃ core, (reader image).core.openEntry 0 0 dir = .ok core ∧
      (core.processes 0).filedesc 0 = some 0 := by
    refine ⟨_, rfl, ?_⟩
    simp [Core.install, Core.setFiledesc, reader, Core.initial]
  have hvalid : validPointer { AddressSpace.zero with stackEnd := pageStart + direntSize }
      entryPointer.toNat direntSize = true := by decide
  refine ⟨(reader image).setCore core, .opened rfl hopen hslot, .opened hdir rfl hopen hslot, rfl,
    ?_, hvalid⟩
  simp [Core.lookup, Core.descriptor, setCore, hslot]

theorem length_entry (name : EntryName) :
    entryPointer.toNat + (wordBytes 0 ++ (name.chars ++ [0])).length ≤ wordCount := by
  have hlength := name.length_lt
  have hmax : maxFilenameLen + pageStart < 2 ^ 31 := by decide
  simp only [toNat_entryPointer, wordBytes, List.length_append, List.length_cons, List.length_nil,
    wordCount]
  omega

/-- The machine after a name was delivered. -/
def Machine.delivered (m : Machine) (fh : Block) (name : EntryName) : Machine :=
  (m.setCore (m.core.nextEntry fh)).storedAt 0 entryPointer.toNat
    (wordBytes 0 ++ (name.chars ++ [0]))

theorem Unpaged.deliver {name : EntryName} (hunpaged : Unpaged fh m) :
    m.deliver 0 fh entryPointer (name :: names) = .ok (m.delivered fh name, 1) := by
  have hstored := copyOut_none (m.setCore (m.core.nextEntry fh)) 0 hunpaged.cr3
    toNat_entryPointer.ge (length_entry name)
  rw [Machine.deliver, hstored, ok_bind, pure_eq_ok, delivered]

theorem Unpaged.delivered (name : EntryName) (hunpaged : Unpaged fh m) :
    Unpaged fh (m.delivered fh name) :=
  ⟨hunpaged.cr3, hunpaged.lookup, hunpaged.valid⟩

/-- As long as the names are delivered, a listing goes on. -/
theorem exists_listing (hdir : dir.isDir = true) (hlists : Lists image dir names)
    (words : DirectoryEntry → ℕ → ℕ → Word) (memory : DirectoryEntry → ℕ → Memory) (count : ℕ)
    (hcount : count ≤ names.length) :
    ∃ m, Listing (image.withStack words memory) dir 0 count m ∧
      Positioned (image.withStack words memory) dir 0 count m ∧ Unpaged 0 m := by
  induction count with
  | zero => exact exists_opened (image.withStack words memory) hdir
  | succ count ih =>
      obtain ⟨m, hlisting, hpositioned, hunpaged⟩ := ih (by omega)
      have hposition : count < names.length := hcount
      have hcall := hlists words memory 0 count m hlisting 0 0 entryPointer 0 hunpaged.lookup
        hunpaged.valid
      rw [List.drop_eq_getElem_cons hposition, hunpaged.deliver] at hcall
      have hstored := copyOut_none (m.setCore (m.core.nextEntry 0)) 0 hunpaged.cr3
        toNat_entryPointer.ge (length_entry names[count])
      exact ⟨m.delivered 0 names[count],
        .getdent hlisting hunpaged.lookup hunpaged.valid hcall,
        hpositioned.nextEntry.store hstored, hunpaged.delivered names[count]⟩

/-- Where the names are delivered, `snprintf` printed them as they are. -/
theorem Lists.prints (hdir : dir.isDir = true)
    (hholds : HoldsNames image.filesystem dir.location names) (hlists : Lists image dir names)
    (words : DirectoryEntry → ℕ → ℕ → Word) (memory : DirectoryEntry → ℕ → Memory) :
    Prints (image.withStack words memory) dir names := by
  intro i hposition
  obtain ⟨m, hlisting, hpositioned, hunpaged⟩ :=
    exists_listing hdir hlists words memory i hposition.le
  have hholds' : HoldsNames (image.withStack words memory).filesystem dir.location names := hholds
  have hcall := hlists words memory 0 i m hlisting 0 0 entryPointer 0 hunpaged.lookup hunpaged.valid
  rw [hpositioned.syscallGetdent_eq hholds' hunpaged.lookup hunpaged.valid,
    if_neg (Nat.not_le_of_lt hposition), List.drop_eq_getElem_cons hposition, hunpaged.deliver,
    bind_eq_ok] at hcall
  obtain ⟨name, hname, hcall⟩ := hcall
  have hlength := ensures_of_eq_ok (image.withStack words memory |>.ensures_direntName dir i) hname
  have hbound : entryPointer.toNat + (wordBytes 0 ++ name).length ≤ wordCount := by
    have hmax : nameMax + pageStart < 2 ^ 31 := by decide
    simp only [toNat_entryPointer, wordBytes, List.length_append, List.length_cons, List.length_nil,
      wordCount]
    omega
  rw [copyOut_none (m.setCore (m.core.nextEntry 0)) 0 hunpaged.cr3 toNat_entryPointer.ge hbound,
    ok_bind, pure_eq_ok, Except.ok.injEq, Prod.mk.injEq] at hcall
  rw [hname, List.append_cancel_left (storedAt_injective hcall.1)]
  rfl

/-! ## Which names are listed -/

/-- Where the bytes behind the terminators are zeros, a directory is listed exactly when its
names have a `'%'` at most at their end. -/
theorem lists_padded (hdir : dir.isDir = true)
    (hholds : HoldsNames image.filesystem dir.location names)
    (hpadded : Padded image.filesystem dir.location names) :
    Lists image dir names ↔ ∀ name ∈ names, Printf.ascii '%' ∉ name.chars.dropLast := by
  constructor
  · intro hlists name hname
    obtain ⟨i, hi, rfl⟩ := List.getElem_of_mem hname
    have hprints := hlists.prints hdir hholds (fun _ _ _ => 33) (fun _ _ _ => 0)
    exact notMem_dropLast_of_direntName
      (image.withStack (fun _ _ _ => 33) fun _ _ _ => 0) (hholds.name i hi)
      (hpadded i hi) ⟨fun _ => rfl, fun _ => rfl⟩ (hprints i hi)
  · intro hnames
    apply lists_of_prints hdir hholds
    intro words memory i hi
    exact direntName_self (image.withStack words memory) (hholds.name i hi)
      (hnames _ (List.getElem_mem hi)) fun _ => hpadded i hi

/-- Names without `'%'` are listed whatever the image holds behind them. -/
theorem lists_plain (hdir : dir.isDir = true)
    (hholds : HoldsNames image.filesystem dir.location names)
    (hnames : ∀ name ∈ names, Printf.ascii '%' ∉ name.chars) : Lists image dir names := by
  apply lists_of_prints hdir hholds
  intro words memory i hi
  have hname := hnames _ (List.getElem_mem hi)
  exact direntName_self (image.withStack words memory) (hholds.name i hi)
    (fun hmem => hname (List.mem_of_mem_dropLast hmem)) fun hmem => absurd hmem hname

/-- The machine's image with the names in its root directory. -/
def catalogued (names : List EntryName) (behind : UInt8) : Image :=
  { bare with
    filesystem := catalogue names behind
    size_lt := fun path entry hentry => by
      rw [size_getDirectoryEntry_catalogue hentry]
      decide }

/-- The root directory of a catalogue. -/
def catalogueDir (names : List EntryName) (behind : UInt8) : DirectoryEntry :=
  .read (catalogue names behind) 0

theorem catalogueDir_location (names : List EntryName) (behind : UInt8) :
    (catalogueDir names behind).location = entrySize :=
  (root_catalogue names behind).2.2

theorem catalogueDir_isDir (names : List EntryName) (behind : UInt8) :
    (catalogueDir names behind).isDir = true := by
  have htype := (root_catalogue names behind).2.1
  exact decide_eq_true htype

theorem catalogueDir_holds (names : List EntryName) (behind : UInt8)
    (hcount : names.length < wordCount) :
    HoldsNames (catalogued names behind).filesystem (catalogueDir names behind).location names := by
  rw [catalogueDir_location]
  exact holdsNames_catalogue hcount

/-- With another character behind its terminator, a name with a `'%'` at its end is printed
with this character. -/
theorem not_lists_catalogued {name : EntryName} (hcount : names.length < wordCount)
    (hmem : name ∈ names) (hpercent : Printf.ascii '%' ∈ name.chars)
    (hlast : Printf.ascii '%' ∉ name.chars.dropLast) :
    ¬ Lists (catalogued names (Printf.ascii '!')) (catalogueDir names (Printf.ascii '!'))
      names := by
  intro hlists
  obtain ⟨i, hi, rfl⟩ := List.getElem_of_mem hmem
  have hlength := names[i].length_lt
  have hmax : maxFilenameLen = 255 := rfl
  have hsplit := Printf.eq_dropLast_percent hpercent hlast
  have hformat : BytesAt ((catalogued names (Printf.ascii '!')).direntSource
      (catalogueDir names (Printf.ascii '!')) i).format 0
      (names[i].chars.dropLast ++ [Printf.ascii '%', 0] ++ [Printf.ascii '!'] ++ [0]) := by
    have hbytes : BytesAt (catalogued names (Printf.ascii '!')).filesystem
        (entryAddress (catalogueDir names (Printf.ascii '!')).location i + 20 + 0)
        (names[i].chars ++ [0, Printf.ascii '!', 0]) := by
      rw [catalogueDir_location, Nat.add_zero]
      exact name_catalogue _ i hi
    have hwhole : names[i].chars ++ [0, Printf.ascii '!', 0] =
        names[i].chars.dropLast ++ [Printf.ascii '%', 0] ++ [Printf.ascii '!'] ++ [0] := by
      rw [hsplit, List.dropLast_concat]
      simp
    exact hwhole ▸ direntSource_bytesAt 0 hbytes
  obtain ⟨str, hprinted, hbytes⟩ := Printf.vsnprintf_final
    (fun hmem => names[i].nonzero (List.mem_of_mem_dropLast hmem)) hlast
    (by decide : 0 ∉ [Printf.ascii '!']) (by decide) hformat
    (by rw [List.length_dropLast, List.length_singleton]; omega) (fun _ => 0) (Nat.succ_pos nameMax)
  rw [← hsplit] at hprinted hbytes
  have hprints := hlists.prints (catalogueDir_isDir names _) (catalogueDir_holds names _ hcount)
    (catalogued names (Printf.ascii '!')).strayWords
    (catalogued names (Printf.ascii '!')).strayMemory i hi
  have hresult := (direntName_eq hprinted rfl hbytes).symm.trans hprints
  have hlengths := congrArg List.length (Except.ok.inj hresult)
  have hnameMax : nameMax = 1024 := rfl
  simp only [List.length_append, List.length_take, List.length_singleton, List.get_eq_getElem]
    at hlengths
  omega

/-- `getdent` lists the names of a directory in every image that has them if and only if no
name contains a `'%'`; and in an image with zeros behind the names, if and only if no name
contains a `'%'` before its last character. -/
theorem getdent_lists (names : List EntryName) (hcount : names.length < wordCount) :
    ((∀ image dir, dir.isDir = true → HoldsNames image.filesystem dir.location names →
      Lists image dir names) ↔ ∀ name ∈ names, Printf.ascii '%' ∉ name.chars) ∧
    ∀ image dir, dir.isDir = true → HoldsNames image.filesystem dir.location names →
      Padded image.filesystem dir.location names →
      (Lists image dir names ↔ ∀ name ∈ names, Printf.ascii '%' ∉ name.chars.dropLast) := by
  refine ⟨⟨fun hall name hname hpercent => ?_, fun hnames image dir hdir hholds =>
    lists_plain hdir hholds hnames⟩, fun image dir hdir hholds hpadded =>
    lists_padded hdir hholds hpadded⟩
  have hpadded : Padded (catalogue names 0) (catalogueDir names 0).location names := by
    rw [catalogueDir_location]
    exact padded_catalogue
  have hholds := fun behind => catalogueDir_holds names behind hcount
  have hlast := (lists_padded (catalogueDir_isDir names 0) (hholds 0) hpadded).mp
    (hall _ _ (catalogueDir_isDir names 0) (hholds 0)) name hname
  exact not_lists_catalogued hcount hname hpercent hlast
    (hall _ _ (catalogueDir_isDir names _) (hholds _))

/-- The name `"a%%"`. -/
def doubled : EntryName where
  chars := [Printf.ascii 'a', Printf.ascii '%', Printf.ascii '%']
  nonempty := by decide
  length_lt := by decide
  nonzero := by decide

/-- The directory with the only name `"a%%"`, and that name. -/
theorem getdent_lists_doubled :
    ((∀ image dir, dir.isDir = true → HoldsNames image.filesystem dir.location [doubled] →
      Lists image dir [doubled]) ↔ ∀ name ∈ [doubled], Printf.ascii '%' ∉ name.chars) ∧
    ∀ image dir, dir.isDir = true → HoldsNames image.filesystem dir.location [doubled] →
      Padded image.filesystem dir.location [doubled] →
      (Lists image dir [doubled] ↔
        ∀ name ∈ [doubled], Printf.ascii '%' ∉ name.chars.dropLast) :=
  getdent_lists [doubled] (by decide)

/-- A root directory with the name `"a%%"` is listed with the name `"a%"`. -/
theorem doubled_percent_lost :
    HoldsNames (catalogued [doubled] 0).filesystem (catalogueDir [doubled] 0).location [doubled] ∧
    (catalogued [doubled] 0).direntName (catalogueDir [doubled] 0) 0 =
      .ok [Printf.ascii 'a', Printf.ascii '%', 0] ∧
    ¬ Lists (catalogued [doubled] 0) (catalogueDir [doubled] 0) [doubled] := by
  have hholds := catalogueDir_holds [doubled] 0 (by decide)
  refine ⟨hholds, ?_, fun hlists => ?_⟩
  · let items : List Printf.Item :=
      [.literal ⟨Printf.ascii 'a', by decide⟩,
        .directive ⟨false, [], Printf.ascii '%', by decide, fun _ _ => by decide⟩]
    have hformat := direntSource_bytesAt 0 (hholds.name 0 (by decide))
    have hnarrow : Printf.Narrow items := by simp [Printf.Narrow, items, Printf.Directive.width]
    have hout : Printf.output items [] = some [Printf.ascii 'a', Printf.ascii '%'] := rfl
    have hprinted := Printf.vsnprintf_eq hnarrow hout hformat (by decide) trivial (by decide)
      (fun _ => 0) (nameMax + 1)
    exact direntName_eq hprinted rfl (Printf.bytesAt_clipped _ _ (Nat.succ_pos nameMax))
  · have hpadded : Padded (catalogued [doubled] 0).filesystem (catalogueDir [doubled] 0).location
        [doubled] := by
      rw [catalogueDir_location]
      exact padded_catalogue
    have hnames := (lists_padded (catalogueDir_isDir [doubled] 0) hholds hpadded).mp hlists
    exact hnames doubled (by simp) (by decide)

end Rhythmos.Kernel
