import Rhythmos.Kernel.Failures
import Rhythmos.Kernel.Listings

/-!
# Reads of files

All descriptors that refer to a handle share its position.  However the reads through them
are distributed over processes, what they have returned together is the part of the file in
front of the position.
-/

namespace Rhythmos.Kernel

open Fallible ByteMemory Filesystem Libc Machine

variable {image : Image} {entry : DirectoryEntry} {fh : Block} {m m' : Machine} {pid : Pid}
  {delivered : List UInt8}

/-- `fh` is a handle that `open` made for the file, and since then reads on it, through any
descriptors of any processes, returned the bytes `delivered`, with changes of other data in
between. -/
inductive Reading (image : Image) (entry : DirectoryEntry) (fh : Block) :
    List UInt8 → Machine → Prop
  | opened {m : Machine} {core : Core} {path : List UInt8} {pid : Pid} {fd : Fd} :
      m.image = image → image.getDirectoryEntry path = some entry → entry.isDir = false →
      m.core.openEntry pid fd entry = .ok core → (core.processes pid).filedesc fd = some fh →
      Reading image entry fh [] (m.setCore core)
  | read {delivered bytes : List UInt8} {m m' : Machine} {core : Core} {pid : Pid} {slot : Fd}
      {fd buf count res : Word} :
      Reading image entry fh delivered m → m.core.lookup pid fd = some (slot, fh) →
      Placed (m.spaces pid) → validPointer (m.spaces pid) buf.toNat count.toNat = true →
      m.core.readHandle fh count.toNat = .ok (core, res, bytes) →
      m.syscallRead pid fd buf count = .ok (m', res) →
      Reading image entry fh (delivered ++ bytes) m'
  | elsewhere {delivered : List UInt8} {m m' : Machine} : Reading image entry fh delivered m →
      m'.image = m.image →
      (∀ handle, m.core.handles fh = some handle → ∃ handle', m'.core.handles fh = some handle' ∧
        handle'.kind = handle.kind ∧ handle'.pos = handle.pos) →
      Reading image entry fh delivered m'

/-! ## One read -/

/-- The number of bytes that a read of `count` bytes returns. -/
def FileHandle.available (handle : FileHandle) (entry : DirectoryEntry) (count : ℕ) : ℕ :=
  min count (entry.contents.length - handle.pos)

/-- The handle of a file, with the bytes in front of its position. -/
structure Delivered (image : Image) (entry : DirectoryEntry) (fh : Block) (handle : FileHandle)
    (delivered : List UInt8) (m : Machine) : Prop where
  image_eq : m.image = image
  stored : ∃ path, image.getDirectoryEntry path = some entry
  handle_eq : m.core.handles fh = some handle
  kind : handle.kind = .file entry
  pos_le : handle.pos ≤ entry.contents.length
  delivered_eq : delivered = entry.contents.take handle.pos

/-- A read of a file whose position and count do not overflow a word. -/
theorem readHandle_file {c : Core} {handle : FileHandle} {count : ℕ}
    (hhandle : c.handles fh = some handle) (hkind : handle.kind = .file entry)
    (hpos : handle.pos ≤ entry.contents.length) (hword : handle.pos + count < wordCount) :
    c.readHandle fh count = .ok
      (c.setHandle fh (some { handle with pos := handle.pos + handle.available entry count }),
        BitVec.ofNat 32 (handle.available entry count),
        (entry.contents.drop handle.pos).take (handle.available entry count)) := by
  obtain ⟨kind, refcount, pos, entryno⟩ := handle
  obtain rfl : kind = .file entry := hkind
  simp only [Core.readHandle, Core.handle, hhandle, ok_bind, Core.fileRead,
    Nat.mod_eq_of_lt hword, FileHandle.available]
  split
  next hend =>
    have hnone : min count (entry.contents.length - pos) = 0 := by omega
    have hsame : c.setHandle fh (some ⟨.file entry, refcount, pos, entryno⟩) = c := by
      simp [Core.setHandle, ← hhandle]
    rw [hnone, Nat.add_zero, hsame, List.take_zero]
    rfl
  next hmore =>
    split
    next hlong =>
      have hmin : min count (entry.contents.length - pos) = entry.contents.length - pos := by omega
      rw [hmin, if_neg (by omega)]
    next hshort =>
      have hmin : min count (entry.contents.length - pos) = count := by omega
      rw [hmin]

section Step

variable {handle : FileHandle} {slot : Fd} {fd buf count res : Word} {core : Core}
  {bytes : List UInt8}

theorem Delivered.position_lt (hread : Delivered image entry fh handle delivered m)
    (hplaced : Placed (m.spaces pid))
    (hvalid : validPointer (m.spaces pid) buf.toNat count.toNat = true) :
    handle.pos + count.toNat < wordCount := by
  obtain ⟨path, hentry⟩ := hread.stored
  have hpos := hread.pos_le
  have hlength := image.length_contents_lt hentry
  have hcount := hplaced.size_lt hvalid
  simp only [kernelMemSize, mb] at hcount hlength
  omega

/-- What a read through one of the descriptors does. -/
theorem Delivered.syscallRead_eq (hread : Delivered image entry fh handle delivered m)
    (hlookup : m.core.lookup pid fd = some (slot, fh))
    (hvalid : validPointer (m.spaces pid) buf.toNat count.toNat = true)
    (hword : handle.pos + count.toNat < wordCount) :
    m.syscallRead pid fd buf count = (do
      let m ← (m.setCore (m.core.setHandle fh (some { handle with
          pos := handle.pos + handle.available entry count.toNat }))).copyOut pid buf.toNat
        ((entry.contents.drop handle.pos).take (handle.available entry count.toNat))
      return (m, BitVec.ofNat 32 (handle.available entry count.toNat))) := by
  have hhandle := readHandle_file hread.handle_eq hread.kind hread.pos_le hword
  simp only [syscallRead, hvalid, Bool.not_true, Bool.false_eq_true, if_false, hlookup, hhandle,
    ok_bind]

/-- The bytes that a read delivers stand in the image between the start of the file and its
end. -/
theorem Delivered.contents_eq (hread : Delivered image entry fh handle delivered m) {pos count : ℕ}
    (hinside : pos + count ≤ entry.contents.length) :
    (entry.contents.drop pos).take count =
      loadBytes image.filesystem (entry.location + pos) count := by
  obtain ⟨path, hentry⟩ := hread.stored
  obtain ⟨offset, -, rfl⟩ := Option.map_eq_some_iff.mp hentry
  have hlength : (DirectoryEntry.read image.filesystem offset).contents.length =
      sizeAt image.filesystem offset := length_loadBytes _ _ _
  rw [hlength] at hinside
  apply List.ext_getElem
  · simp [hlength]
    omega
  · intro i hi _
    simp [DirectoryEntry.read, loadBytes, Nat.add_assoc]

theorem Delivered.read (hread : Delivered image entry fh handle delivered m)
    (hlookup : m.core.lookup pid fd = some (slot, fh))
    (hvalid : validPointer (m.spaces pid) buf.toNat count.toNat = true)
    (hword : handle.pos + count.toNat < wordCount)
    (hbytes : m.core.readHandle fh count.toNat = .ok (core, res, bytes))
    (hcall : m.syscallRead pid fd buf count = .ok (m', res)) :
    Delivered image entry fh { handle with
      pos := handle.pos + handle.available entry count.toNat } (delivered ++ bytes) m' := by
  rw [readHandle_file hread.handle_eq hread.kind hread.pos_le hword] at hbytes
  obtain ⟨rfl, -, rfl⟩ : _ ∧ _ ∧ _ := by simpa using hbytes
  rw [hread.syscallRead_eq hlookup hvalid hword, bind_eq_ok] at hcall
  obtain ⟨m₁, hstored, hresult⟩ := hcall
  obtain ⟨rfl, -⟩ := Prod.mk.inj (Except.ok.inj hresult)
  obtain ⟨himage, hhandles⟩ := copyOut_keeps hstored
  have hpos := hread.pos_le
  have havailable : handle.available entry count.toNat ≤ entry.contents.length - handle.pos :=
    Nat.min_le_right _ _
  refine ⟨himage.trans hread.image_eq, hread.stored, ?_, hread.kind, ?_, ?_⟩
  · rw [hhandles]
    exact Function.update_self _ _ _
  · dsimp only
    omega
  · rw [hread.delivered_eq, List.take_add]

end Step

/-! ## All reads on a handle -/

theorem Delivered.opened {core : Core} {path : List UInt8} {fd : Fd} (himage : m.image = image)
    (hentry : image.getDirectoryEntry path = some entry) (hfile : entry.isDir = false)
    (hopen : m.core.openEntry pid fd entry = .ok core)
    (hslot : (core.processes pid).filedesc fd = some fh) :
    Delivered image entry fh ⟨.file entry, 1, 0, 0⟩ [] (m.setCore core) := by
  obtain ⟨c, b, rfl⟩ : ∃ (c : Core) (b : Block), core =
      (c.setHandle b (some ⟨.file entry, 1, 0, 0⟩)).install pid fd b := by
    rw [Core.openEntry, bind_eq_ok] at hopen
    obtain ⟨⟨c, made⟩, hnew, hcore⟩ := hopen
    rw [Core.newFile, Core.newHandle, bind_eq_ok] at hnew
    obtain ⟨⟨c₁, b⟩, -, hnew⟩ := hnew
    obtain ⟨rfl, rfl⟩ := Prod.mk.inj (Except.ok.inj hnew)
    exact ⟨c₁, b, by simpa [hfile] using (Except.ok.inj hcore).symm⟩
  obtain rfl : b = fh := by simpa [Core.install, Core.setFiledesc] using hslot
  refine ⟨himage, ⟨path, hentry⟩, ?_, rfl, Nat.zero_le _, rfl⟩
  simp [Machine.setCore, Core.install, Core.setFiledesc]

/-- The invariant of reads on a handle. -/
theorem Reading.position (hreading : Reading image entry fh delivered m) :
    ∃ handle, Delivered image entry fh handle delivered m := by
  induction hreading with
  | opened himage hentry hfile hopen hslot =>
      exact ⟨_, .opened himage hentry hfile hopen hslot⟩
  | read _ hlookup hplaced hvalid hbytes hcall ih =>
      obtain ⟨handle, hread⟩ := ih
      have hword := hread.position_lt hplaced hvalid
      exact ⟨_, hread.read hlookup hvalid hword hbytes hcall⟩
  | elsewhere _ himage hhandles ih =>
      obtain ⟨handle, hread⟩ := ih
      obtain ⟨handle', hhandle', hkind, hpos⟩ := hhandles handle hread.handle_eq
      exact ⟨handle', himage.trans hread.image_eq, hread.stored, hhandle', hkind.trans hread.kind,
        hpos ▸ hread.pos_le, hpos ▸ hread.delivered_eq⟩

/-- Reads deliver a file once: what they returned is the file up to the position, and the
next read, through any descriptor, returns the bytes behind it, as many as it asks for if the
file has them.  It reads no other byte of the image, and its position and count do not
overflow, since the segments of every process lie above the kernel heap. -/
theorem reads_deliver_once :
    (∀ image phys junk m pid, Reachable KillingSafely image phys junk m →
      m.core.isLive pid = true → Placed (m.spaces pid)) ∧
    ∀ image entry fh delivered m, Reading image entry fh delivered m →
      ∃ handle, m.core.handles fh = some handle ∧ handle.kind = .file entry ∧
        handle.pos ≤ entry.contents.length ∧ delivered = entry.contents.take handle.pos ∧
        ∀ pid slot fd buf count, m.core.lookup pid fd = some (slot, fh) → Placed (m.spaces pid) →
          validPointer (m.spaces pid) buf.toNat count.toNat = true →
          handle.pos + count.toNat < wordCount ∧
          ∃ bytes, bytes.length = min count.toNat (entry.contents.length - handle.pos) ∧
            handle.pos + bytes.length ≤ entry.contents.length ∧
            bytes = loadBytes image.filesystem (entry.location + handle.pos) bytes.length ∧
            bytes <+: entry.contents.drop handle.pos ∧
            m.syscallRead pid fd buf count = (do
              let m ← (m.setCore (m.core.setHandle fh (some { handle with
                pos := handle.pos + bytes.length }))).copyOut pid buf.toNat bytes
              return (m, BitVec.ofNat 32 bytes.length)) := by
  constructor
  · intro image phys junk m pid hreachable hlive
    obtain ⟨wait, hsettled⟩ := hreachable.lax
    exact hsettled.placed hlive
  · intro image entry fh delivered m hreading
    obtain ⟨handle, hread⟩ := hreading.position
    refine ⟨handle, hread.handle_eq, hread.kind, hread.pos_le, hread.delivered_eq, ?_⟩
    intro pid slot fd buf count hlookup hplaced hvalid
    have hword := hread.position_lt hplaced hvalid
    have hpos := hread.pos_le
    have hinside : handle.pos + handle.available entry count.toNat ≤ entry.contents.length := by
      have havailable : handle.available entry count.toNat ≤ entry.contents.length - handle.pos :=
        Nat.min_le_right _ _
      omega
    have hcontents := hread.contents_eq hinside
    have hlength : ((entry.contents.drop handle.pos).take
        (handle.available entry count.toNat)).length = handle.available entry count.toNat := by
      rw [hcontents, length_loadBytes]
    refine ⟨hword, (entry.contents.drop handle.pos).take (handle.available entry count.toNat),
      hlength, ?_, ?_, List.take_prefix _ _, ?_⟩
    · rw [hlength]
      exact hinside
    · rw [hlength]
      exact hcontents
    · rw [hlength]
      exact hread.syscallRead_eq hlookup hvalid hword

/-! ## Some reads -/

/-- A machine whose processes have a page of text. -/
def fileReader (image : Image) : Machine where
  core := Core.initial fun _ _ => 0
  pages := ⟨fun _ => 0, pageStart, 0, 0, []⟩
  spaces := fun _ => ⟨0, processStackBase, processStackBase, processDataBase, processDataBase,
    processTextBase, processTextBase + pageSize⟩
  cr3 := none
  image := image

/-- A process opens a file and reads two bytes. -/
theorem exists_reading {path : List UInt8} (hentry : image.getDirectoryEntry path = some entry)
    (hfile : entry.isDir = false) :
    ∃ m, Reading image entry 0 (entry.contents.take 2) m := by
  obtain ⟨core, hopen, hslot⟩ : ∃ core, (fileReader image).core.openEntry 0 0 entry = .ok core ∧
      (core.processes 0).filedesc 0 = some 0 := by
    refine ⟨_, rfl, ?_⟩
    simp [Core.install, Core.setFiledesc, fileReader, Core.initial]
  have hopened : Reading image entry 0 [] ((fileReader image).setCore core) :=
    .opened rfl hentry hfile hopen hslot
  have hread : Delivered image entry 0 ⟨.file entry, 1, 0, 0⟩ []
      ((fileReader image).setCore core) := .opened rfl hentry hfile hopen hslot
  have hlookup : ((fileReader image).setCore core).core.lookup 0 0 = some (0, 0) := by
    simp [Core.lookup, Core.descriptor, setCore, hslot]
  have hplaced : Placed ((fileReader image).spaces 0) := by
    constructor <;> simp only [fileReader] <;> decide
  have hvalid : validPointer (((fileReader image).setCore core).spaces 0)
      (0x10000000 : Word).toNat (2 : Word).toNat = true := rfl
  have hword := hread.position_lt hplaced hvalid
  have hhandle := readHandle_file hread.handle_eq hread.kind hread.pos_le hword
  have hcall := hread.syscallRead_eq hlookup hvalid hword
  have hshort : (0x10000000 : Word).toNat + ((entry.contents.drop 0).take
      (FileHandle.available ⟨.file entry, 1, 0, 0⟩ entry (2 : Word).toNat)).length ≤ wordCount := by
    have hcount : FileHandle.available ⟨.file entry, 1, 0, 0⟩ entry (2 : Word).toNat ≤ 2 :=
      Nat.min_le_left _ _
    calc _ ≤ 0x10000000 + 2 := Nat.add_le_add_left ((List.length_take_le _ _).trans hcount) _
      _ ≤ wordCount := by decide
  rw [copyOut_none _ _ rfl (by decide) hshort, ok_bind] at hcall
  have htake : entry.contents.take 2 = [] ++ (entry.contents.drop 0).take
      (FileHandle.available ⟨.file entry, 1, 0, 0⟩ entry (2 : Word).toNat) := by
    rw [List.nil_append, List.drop_zero, FileHandle.available, List.take_eq_take_iff]
    simp
  rw [htake]
  exact ⟨_, .read hopened hlookup hplaced hvalid hhandle hcall⟩

/-! ## A file of five bytes -/

/-- An image that consists of a file, which holds four zeros and a seven. -/
def fiveBytes : Memory :=
  ofList (word32 5 ++ (word32 typeFile ++ (word32 12 ++ (word32 0 ++ [7]))))

theorem getDirectoryEntry_fiveBytes {path : List UInt8} {entry : ℕ}
    (hentry : getDirectoryEntry fiveBytes path = some entry) : entry = 0 := by
  rw [getDirectoryEntry, walk, Option.map_eq_some_iff] at hentry
  obtain ⟨cursor, hcursor, rfl⟩ := hentry
  cases hfields : Components.fields slash path with
  | nil =>
      rw [hfields] at hcursor
      obtain rfl := Option.some_injective _ hcursor
      rfl
  | cons field rest =>
      have hnone : lookup fiveBytes (rootCursor fiveBytes).dir field.1 = none := rfl
      rw [hfields, List.foldlM_cons, enter, hnone] at hcursor
      cases hcursor

def fileImage : Image :=
  { bare with
    filesystem := fiveBytes
    size_lt := fun path entry hentry => by
      rw [getDirectoryEntry_fiveBytes hentry]
      decide }

/-- The file of this image. -/
def fileEntry : DirectoryEntry := .read fiveBytes 0

/-- After the first two bytes, three are left. -/
theorem reads_deliver_once_two : ∃ m handle, Reading fileImage fileEntry 0 [0, 0] m ∧
    m.core.handles 0 = some handle ∧ handle.pos ≤ 5 ∧
    ([0, 0] : List UInt8) = [0, 0, 0, 0, 7].take handle.pos := by
  obtain ⟨m, hreading⟩ : ∃ m, Reading fileImage fileEntry 0 [0, 0] m :=
    @exists_reading fileImage fileEntry [slash] rfl rfl
  obtain ⟨handle, hhandle, -, hpos, hdelivered, -⟩ :=
    reads_deliver_once.2 fileImage fileEntry 0 [0, 0] m hreading
  exact ⟨m, handle, hreading, hhandle, hpos, hdelivered⟩

end Rhythmos.Kernel
