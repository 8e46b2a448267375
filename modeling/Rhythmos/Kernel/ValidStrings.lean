import Rhythmos.Kernel.Arguments
import Rhythmos.Kernel.Confinement

/-!
# Strings in segments

`valid_pointer` and `valid_string` accept what lies in one segment of the process.  The loop of
`valid_string` is considered for any way to read a byte; a reading that fails outside the segments
shows which bytes are read.
-/

namespace Rhythmos.Kernel

open Fallible ByteMemory

namespace AddressSpace

def segments (space : AddressSpace) : List (ℕ × ℕ) :=
  [(space.stackStart, space.stackEnd), (space.dataStart, space.dataEnd),
    (space.textStart, space.textEnd)]

instance (space : AddressSpace) (address : ℕ) : Decidable (space.owns address) :=
  instDecidableOr

end AddressSpace

/-- The loop of `valid_string`. -/
def scanString (read : ℕ → Except Fault (List UInt8)) (space : AddressSpace) (str : ℕ) :
    ℕ → ℕ → Except Fault (Option (List UInt8))
  | 0, _ => .error .diverges
  | rounds + 1, len =>
      if validPointer space str ((len + 1) % wordCount) then do
        let bytes ← read (str + len)
        if bytes = [0] then return some []
        else
          let rest ← scanString read space str rounds (len + 1)
          return rest.map (bytes ++ ·)
      else return none

/-- Memory that only has the segments of a process. -/
def guarded (space : AddressSpace) (mem : Memory) (address : ℕ) : Except Fault (List UInt8) :=
  if space.owns address then .ok [mem address] else .error (.page .unmapped)

/-- A string of `k` characters and its end lie in one segment. -/
structure Terminated (space : AddressSpace) (mem : Memory) (str k : ℕ) : Prop where
  inside : ∃ seg ∈ space.segments, ∀ i ≤ k, str + i ∈ Set.Ico seg.1 seg.2
  ends : mem (str + k) = 0
  goes : ∀ i < k, mem (str + i) ≠ 0

/-- A segment has all addresses but the last one, and no zero: the length of the string wraps
around. -/
def Endless (space : AddressSpace) (mem : Memory) (str : ℕ) : Prop :=
  str = 0 ∧ (0, wordCount - 1) ∈ space.segments ∧ ∀ address < wordCount - 1, mem address ≠ 0

variable {space : AddressSpace} {mem : Memory} {str len rounds size : ℕ}

/-! ## Pointers -/

theorem owns_iff {address : ℕ} :
    space.owns address ↔ ∃ seg ∈ space.segments, address ∈ Set.Ico seg.1 seg.2 := by
  simp only [AddressSpace.owns, AddressSpace.segments, List.mem_cons, List.not_mem_nil, or_false,
    exists_eq_or_imp, exists_eq_left, Set.mem_Ico]

theorem validPointer_zero : validPointer space str 0 = true := if_pos rfl

/-- Some segment has all of a buffer that is not empty. -/
theorem validPointer_iff_le (hword : ∀ seg ∈ space.segments, seg.2 < wordCount) (hsize : 0 < size) :
    validPointer space str size = true ↔
      ∃ seg ∈ space.segments, seg.1 ≤ str ∧ str + size ≤ seg.2 := by
  have hsegments : (∃ seg ∈ space.segments, seg.1 ≤ str ∧ str + size ≤ seg.2) ↔
      within str size space.stackStart space.stackEnd = true ∨
        within str size space.dataStart space.dataEnd = true ∨
        within str size space.textStart space.textEnd = true := by
    simp only [AddressSpace.segments, List.mem_cons, List.not_mem_nil, or_false, exists_eq_or_imp,
      exists_eq_left, within, Bool.and_eq_true, decide_eq_true_eq]
  rw [validPointer, if_neg hsize.ne']
  by_cases hwraps : wordCount ≤ str + size
  · rw [if_pos hwraps]
    refine iff_of_false Bool.false_ne_true ?_
    rintro ⟨seg, hseg, -, hend⟩
    exact absurd (hword seg hseg) (hwraps.trans hend).not_gt
  · rw [if_neg hwraps, hsegments, Bool.or_eq_true, Bool.or_eq_true, or_assoc]

theorem validPointer_iff_subset (hword : ∀ seg ∈ space.segments, seg.2 < wordCount)
    (hsize : 0 < size) : validPointer space str size = true ↔
      ∃ seg ∈ space.segments, Set.Ico str (str + size) ⊆ Set.Ico seg.1 seg.2 := by
  rw [validPointer_iff_le hword hsize]
  simp only [Set.Ico_subset_Ico_iff (Nat.lt_add_of_pos_right hsize)]

/-! ## The loop -/

theorem Terminated.valid {k : ℕ} (hword : ∀ seg ∈ space.segments, seg.2 < wordCount)
    (hstring : Terminated space mem str k) (hsize : 0 < size) (hle : size ≤ k + 1) :
    validPointer space str size = true := by
  obtain ⟨seg, hseg, hinside⟩ := hstring.inside
  have hfirst := (Set.mem_Ico.mp (hinside 0 (Nat.zero_le k))).1
  have hlast := (Set.mem_Ico.mp (hinside k le_rfl)).2
  exact (validPointer_iff_le hword hsize).mpr ⟨seg, hseg, hfirst, by omega⟩

/-- The byte that is read next lies in a segment. -/
theorem guarded_of_valid (hword : ∀ seg ∈ space.segments, seg.2 < wordCount)
    (hvalid : validPointer space str (len + 1) = true) :
    guarded space mem (str + len) = .ok [mem (str + len)] := by
  obtain ⟨seg, hseg, hlow, hhigh⟩ := (validPointer_iff_le hword (Nat.succ_pos len)).mp hvalid
  exact if_pos (owns_iff.mpr ⟨seg, hseg, hlow.trans (Nat.le_add_right _ _), hhigh⟩)

/-- What is known when `len` bytes have been read. -/
structure Scanned (space : AddressSpace) (mem : Memory) (str len : ℕ) : Prop where
  valid : len ≠ 0 → validPointer space str len = true
  goes : ∀ i < len, mem (str + i) ≠ 0

theorem Scanned.zero : Scanned space mem str 0 :=
  ⟨fun hne => absurd rfl hne, fun _ hi => absurd hi (Nat.not_lt_zero _)⟩

theorem Scanned.next (hscanned : Scanned space mem str len)
    (hvalid : validPointer space str (len + 1) = true) (hbyte : mem (str + len) ≠ 0) :
    Scanned space mem str (len + 1) where
  valid _ := hvalid
  goes i hi := by
    obtain hlt | rfl := Nat.lt_succ_iff_lt_or_eq.mp hi
    · exact hscanned.goes i hlt
    · exact hbyte

/-- No string ends where bytes have been read already. -/
theorem Scanned.le {k : ℕ} (hscanned : Scanned space mem str len)
    (hstring : Terminated space mem str k) : len ≤ k := by
  by_contra hlt
  exact hscanned.goes k (not_le.mp hlt) hstring.ends

/-- The length reaches the last word only in an endless segment. -/
theorem Scanned.endless (hword : ∀ seg ∈ space.segments, seg.2 < wordCount)
    (hscanned : Scanned space mem str len) (hlast : len + 1 = wordCount) :
    Endless space mem str := by
  have hpos : 0 < len := by
    simp only [wordCount] at hlast
    omega
  obtain ⟨seg, hseg, hlow, hhigh⟩ :=
    (validPointer_iff_le hword hpos).mp (hscanned.valid hpos.ne')
  have hend := hword seg hseg
  have hzero : str = 0 := by omega
  subst hzero
  have hwhole : seg = (0, wordCount - 1) := Prod.ext (by omega) (by omega)
  refine ⟨rfl, hwhole ▸ hseg, fun address haddress => ?_⟩
  have hbyte := hscanned.goes address (by omega)
  rwa [Nat.zero_add] at hbyte

theorem scanString_iff (hword : ∀ seg ∈ space.segments, seg.2 < wordCount)
    (hendless : ¬ Endless space mem str) (hrounds : len + rounds = wordCount)
    (hscanned : Scanned space mem str len) :
    ∃ r, scanString (guarded space mem) space str rounds len = .ok r ∧
      (r.isSome = true ↔ ∃ k, Terminated space mem str k) := by
  induction rounds generalizing len with
  | zero =>
    have hpos : 0 < len := by
      simp only [wordCount] at hrounds
      omega
    obtain ⟨seg, hseg, -, hend⟩ :=
      (validPointer_iff_le hword hpos).mp (hscanned.valid hpos.ne')
    have hseg := hword seg hseg
    omega
  | succ rounds ih =>
    have hshort : len + 1 < wordCount :=
      lt_of_le_of_ne (by omega) fun hlast => hendless (hscanned.endless hword hlast)
    rw [scanString, Nat.mod_eq_of_lt hshort]
    by_cases hvalid : validPointer space str (len + 1) = true
    · rw [if_pos hvalid, guarded_of_valid hword hvalid, ok_bind]
      by_cases hbyte : mem (str + len) = 0
      · rw [if_pos (by rw [hbyte]), pure_eq_ok]
        obtain ⟨seg, hseg, hlow, hhigh⟩ :=
          (validPointer_iff_le hword (Nat.succ_pos len)).mp hvalid
        have hinside : ∀ i ≤ len, str + i ∈ Set.Ico seg.1 seg.2 :=
          fun i hi => ⟨hlow.trans (Nat.le_add_right _ _), by omega⟩
        exact ⟨some [], rfl, iff_of_true rfl ⟨len, ⟨seg, hseg, hinside⟩, hbyte, hscanned.goes⟩⟩
      · have hne : [mem (str + len)] ≠ [0] := fun heq => hbyte (List.singleton_inj.mp heq)
        obtain ⟨r, hscan, hr⟩ := ih (by omega) (hscanned.next hvalid hbyte)
        rw [if_neg hne, hscan, ok_bind, pure_eq_ok]
        refine ⟨_, rfl, ?_⟩
        rw [Option.isSome_map, hr]
    · rw [if_neg hvalid, pure_eq_ok]
      refine ⟨none, rfl, iff_of_false Bool.false_ne_true ?_⟩
      rintro ⟨k, hstring⟩
      exact hvalid (hstring.valid hword (Nat.succ_pos len)
        (Nat.succ_le_succ (hscanned.le hstring)))

/-- In an endless segment the last address is read, which is in no segment. -/
theorem scanString_endless (hword : ∀ seg ∈ space.segments, seg.2 < wordCount)
    (hendless : Endless space mem str) (hrounds : len + rounds = wordCount) (hpos : rounds ≠ 0) :
    scanString (guarded space mem) space str rounds len = .error (.page .unmapped) := by
  obtain ⟨hzero, hwhole, hbytes⟩ := hendless
  subst hzero
  induction rounds generalizing len with
  | zero => exact absurd rfl hpos
  | succ rounds ih =>
    rw [scanString]
    by_cases hlast : rounds = 0
    · have hlen : len = wordCount - 1 := by omega
      have hoff : ¬ space.owns (0 + len) := by
        rw [owns_iff]
        rintro ⟨seg, hseg, -, hend⟩
        have hseg := hword seg hseg
        omega
      have hwraps : (len + 1) % wordCount = 0 := by
        rw [show len + 1 = wordCount by omega, Nat.mod_self]
      rw [hwraps, if_pos validPointer_zero, guarded, if_neg hoff, error_bind]
    · have hshort : len + 1 < wordCount := by omega
      have hvalid : validPointer space 0 (len + 1) = true :=
        (validPointer_iff_le hword (Nat.succ_pos len)).mpr
          ⟨_, hwhole, le_rfl, by show 0 + (len + 1) ≤ wordCount - 1; omega⟩
      have hne : [mem (0 + len)] ≠ [0] := fun heq =>
        hbytes (0 + len) (by omega) (List.singleton_inj.mp heq)
      rw [Nat.mod_eq_of_lt hshort, if_pos hvalid, guarded_of_valid hword hvalid, ok_bind,
        if_neg hne, ih (by omega) hlast, error_bind]

/-- `valid_pointer` accepts the buffers inside one segment, and `valid_string` accepts the strings
inside one segment and reads nothing else, unless the segment is endless. -/
theorem validString_accepts (space : AddressSpace)
    (hword : ∀ seg ∈ space.segments, seg.2 < wordCount) :
    (∀ ptr size : Word, 0 < size.toNat → (validPointer space ptr.toNat size.toNat = true ↔
      ∃ seg ∈ space.segments,
        Set.Ico ptr.toNat (ptr.toNat + size.toNat) ⊆ Set.Ico seg.1 seg.2)) ∧
    ∀ (mem : Memory) (str : Word),
      (∃ r, scanString (guarded space mem) space str.toNat wordCount 0 = .ok r ∧
        (r.isSome = true ↔ ∃ k, Terminated space mem str.toNat k)) ↔
      ¬ Endless space mem str.toNat := by
  refine ⟨fun ptr size hsize => validPointer_iff_subset hword hsize, fun mem str => ?_⟩
  constructor
  · rintro ⟨r, hscan, -⟩ hendless
    rw [scanString_endless hword hendless (Nat.zero_add _) (by decide)] at hscan
    cases hscan
  · intro hendless
    exact scanString_iff hword hendless (Nat.zero_add _) Scanned.zero

/-- A process with a string of two characters at the start of its data. -/
def dataSpace : AddressSpace :=
  { AddressSpace.zero with dataStart := processDataBase, dataEnd := processDataBase + pageSize }

def twoCharacters : Memory := fun address => if address = processDataBase + 2 then 0 else 1

theorem validString_accepts_twoCharacters :
    ∃ r, scanString (guarded dataSpace twoCharacters) dataSpace
      (BitVec.ofNat 32 processDataBase).toNat wordCount 0 = .ok r ∧ r.isSome = true := by
  have hword : ∀ seg ∈ dataSpace.segments, seg.2 < wordCount := by decide
  obtain ⟨r, hscan, hr⟩ := ((validString_accepts dataSpace hword).2 twoCharacters
    (BitVec.ofNat 32 processDataBase)).mpr fun hendless => absurd hendless.1 (by decide)
  refine ⟨r, hscan, hr.mpr ⟨2, ⟨_, List.mem_cons_of_mem _ List.mem_cons_self, ?_⟩, rfl, ?_⟩⟩
  · intro i hi
    exact ⟨Nat.le_add_right _ _, Nat.add_lt_add_left (hi.trans_lt (by decide)) _⟩
  · decide

/-- A process whose stack has all addresses but the last one. -/
def wholeSpace : AddressSpace := { AddressSpace.zero with stackEnd := wordCount - 1 }

theorem validString_wraps :
    (∀ seg ∈ wholeSpace.segments, seg.1 ≤ seg.2 ∧ seg.2 < wordCount) ∧
      scanString (guarded wholeSpace fun _ => 1) wholeSpace (0 : Word).toNat wordCount 0 =
        .error (.page .unmapped) := by
  have hword : ∀ seg ∈ wholeSpace.segments, seg.2 < wordCount := by decide
  exact ⟨by decide, scanString_endless hword ⟨rfl, List.mem_cons_self, fun _ _ =>
    (by decide : (1 : UInt8) ≠ 0)⟩
    (Nat.zero_add _) (by decide)⟩

/-! ## The machine -/

/-- `valid_string` of the machine is the loop on its memory. -/
theorem Machine.validStringFrom_eq (m : Machine) (space : AddressSpace) (str rounds len : ℕ) :
    m.validStringFrom space str rounds len =
      scanString (fun address => m.loadUser address 1) space str rounds len := by
  induction rounds generalizing len with
  | zero => rfl
  | succ rounds ih =>
    rw [validStringFrom, scanString]
    simp only [ih]

/-- What is found with less memory is found with more. -/
theorem scanString_mono {read more : ℕ → Except Fault (List UInt8)}
    (hmore : ∀ address bytes, read address = .ok bytes → more address = .ok bytes)
    {r : Option (List UInt8)} (hscan : scanString read space str rounds len = .ok r) :
    scanString more space str rounds len = .ok r := by
  induction rounds generalizing len r with
  | zero => cases hscan
  | succ rounds ih =>
    rw [scanString] at hscan ⊢
    by_cases hvalid : validPointer space str ((len + 1) % wordCount) = true
    · rw [if_pos hvalid, bind_eq_ok] at hscan ⊢
      obtain ⟨bytes, hread, hrest⟩ := hscan
      refine ⟨bytes, hmore _ _ hread, ?_⟩
      by_cases hbyte : bytes = [0]
      · rw [if_pos hbyte] at hrest ⊢
        exact hrest
      · rw [if_neg hbyte, bind_eq_ok] at hrest ⊢
        obtain ⟨tail, htail, hresult⟩ := hrest
        exact ⟨tail, ih htail, hresult⟩
    · rw [if_neg hvalid] at hscan ⊢
      exact hscan

/-- The segments of the kernel's processes are not endless. -/
theorem AddressSpace.Fits.not_endless (hfits : space.Fits) : ¬ Endless space mem str := by
  rintro ⟨-, hwhole, -⟩
  simp only [AddressSpace.segments, List.mem_cons, List.not_mem_nil, or_false, Prod.mk.injEq,
    hfits.stackStart, hfits.dataStart, hfits.textStart, processStackBase, processStackSize,
    processDataBase, processTextBase] at hwhole
  omega

theorem AddressSpace.Fits.segment_lt (hfits : space.Fits) :
    ∀ seg ∈ space.segments, seg.2 < wordCount := by
  have htext := hfits.textEnd_le
  have hdata := hfits.dataEnd_lt
  have hstack := hfits.stackEnd
  simp only [AddressSpace.segments, List.forall_mem_cons, processDataBase, processStackBase,
    wordCount] at *
  exact ⟨by omega, hdata, by omega, fun _ hmem => absurd hmem List.not_mem_nil⟩

namespace Machine

variable {m : Machine} {pid : Pid}

/-- A process finds its segments in its memory. -/
def Serves (m : Machine) (pid : Pid) : Prop :=
  ∀ address, (m.spaces pid).owns address → m.loadUser address 1 = .ok [m.view address]

theorem covers_of_owns {space : AddressSpace} (hfits : space.Fits) {address : ℕ}
    (howns : space.owns address) : space.covers (address / pageSize) := by
  simp only [AddressSpace.owns, AddressSpace.covers, Paging.pagesIn, hfits.stackStart,
    hfits.dataStart, hfits.textStart, processStackBase, processStackSize, processDataBase,
    processTextBase, pageSize] at howns ⊢
  omega

/-- Where exactly the segments are mapped, the process that runs finds them. -/
theorem serves_of_layout {regime : Regime} {pdir : ℕ} (hstrict : regime.strict)
    (hlayout : Layout regime m.dirs m.spaces m.pages) (hdir : m.dirs pid = some pdir)
    (hcr3 : m.cr3 = some pdir) : m.Serves pid := by
  have hfurnished := hlayout.furnished pid pdir hdir
  intro address howns
  have hcovers := covers_of_owns hfurnished.fits howns
  obtain ⟨page, -, hheld⟩ := (hfurnished.mapped hstrict _).mpr hcovers
  have hbyte := Paging.loadByte_of_holds hdir hheld
  have hshort : address < wordCount := by
    obtain ⟨seg, hseg, hinside⟩ := owns_iff.mp howns
    exact hinside.2.trans (hfurnished.fits.segment_lt seg hseg)
  have hread : m.Reads address [m.view address] := by
    refine reads_iff.mpr fun i hi => ?_
    obtain rfl : i = 0 := Nat.lt_one_iff.mp hi
    rw [view, Nat.add_zero, Nat.mod_eq_of_lt hshort, hcr3, hbyte]
    rfl
  exact hread

/-- `valid_string` for a process of the kernel. -/
theorem validString_iff (hfits : (m.spaces pid).Fits) (hserves : m.Serves pid) (str : Word) :
    ∃ r, m.validString pid str = .ok r ∧
      (r.isSome = true ↔ ∃ k, Terminated (m.spaces pid) m.view str.toNat k) := by
  have hscanned : Scanned (m.spaces pid) m.view str.toNat 0 := Scanned.zero
  obtain ⟨r, hscan, hr⟩ :=
    scanString_iff hfits.segment_lt hfits.not_endless (Nat.zero_add wordCount) hscanned
  refine ⟨r, ?_, hr⟩
  rw [validString, validStringFrom_eq]
  refine scanString_mono (fun address bytes hread => ?_) hscan
  rw [guarded] at hread
  split at hread
  next howns => rw [hserves address howns, Except.ok.inj hread]
  next => cases hread

end Machine

end Rhythmos.Kernel
