import Rhythmos.Filesystem.Images

/-!
# Directories with given names

What it means that a directory of an image has a list of names, and for every list an image
whose root directory has them.
-/

namespace Rhythmos.Filesystem

open ByteMemory Components

/-- A name that fits the name field of an entry together with its terminator. -/
structure EntryName where
  chars : List UInt8
  nonempty : chars ≠ []
  length_lt : chars.length < maxFilenameLen
  nonzero : 0 ∉ chars

/-- The directory at `dir` has the names, in this order. -/
structure HoldsNames (fs : Memory) (dir : ℕ) (names : List EntryName) : Prop where
  count : load32 fs dir = names.length
  name : ∀ i (h : i < names.length),
    BytesAt fs (entryAddress dir i + 20) ((names.get ⟨i, h⟩).chars ++ [0])

/-- The byte behind the terminator of a name is zero, as in the images of `fstool`, which
fills the field with zeros. -/
def Padded (fs : Memory) (dir : ℕ) (names : List EntryName) : Prop :=
  ∀ i (h : i < names.length),
    fs (entryAddress dir i + 20 + ((names.get ⟨i, h⟩).chars.length + 1)) = 0

/-! ## An image for every list of names -/

/-- The bytes of an entry; `behind` follows the terminator of the name. -/
def catalogueEntry (names : List EntryName) (behind : UInt8) (i : ℕ) : List UInt8 :=
  match names[i]? with
  | none => []
  | some name => List.replicate 20 0 ++ (name.chars ++ [0, behind])

/-- An image with the names in its root directory. -/
def catalogue (names : List EntryName) (behind : UInt8) : Memory := fun address =>
  if address < entrySize then ofList (word32 0 ++ (word32 typeDir ++ word32 entrySize)) address
  else if address < entrySize + 4 then ofList (word32 names.length) (address - entrySize)
  else ofList (catalogueEntry names behind ((address - (entrySize + 4)) / entrySize))
    ((address - (entrySize + 4)) % entrySize)

variable {names : List EntryName} {behind : UInt8}

theorem catalogue_entry (i : ℕ) {offset : ℕ} (hoffset : offset < entrySize) :
    catalogue names behind (entryAddress entrySize i + offset) =
      ofList (catalogueEntry names behind i) offset := by
  have hsize : 0 < entrySize := by decide
  have hlow : ¬ entryAddress entrySize i + offset < entrySize := by
    rw [entryAddress]
    omega
  have hhigh : ¬ entryAddress entrySize i + offset < entrySize + 4 := by
    rw [entryAddress]
    omega
  have hrest : entryAddress entrySize i + offset - (entrySize + 4) = entrySize * i + offset := by
    rw [entryAddress, Nat.add_assoc, Nat.add_sub_cancel_left]
  rw [catalogue, if_neg hlow, if_neg hhigh, hrest, Nat.mul_add_div hsize,
    Nat.div_eq_of_lt hoffset, Nat.add_zero, Nat.mul_add_mod, Nat.mod_eq_of_lt hoffset]

/-- The words of an entry are zero. -/
theorem header_catalogue (i : ℕ) {offset : ℕ} (hoffset : offset < 20) :
    ofList (catalogueEntry names behind i) offset = 0 := by
  rw [catalogueEntry]
  split
  · rfl
  · rw [ofList_append_left _ _ (by rw [List.length_replicate]; exact hoffset), ofList,
      List.getD_eq_getElem?_getD, List.getElem?_replicate, if_pos hoffset, Option.getD_some]

theorem word_catalogue (i : ℕ) {offset : ℕ} (hoffset : offset + 4 ≤ 20) :
    load32 (catalogue names behind) (entryAddress entrySize i + offset) = 0 := by
  have hbyte : ∀ more < 4,
      catalogue names behind (entryAddress entrySize i + (offset + more)) = 0 := by
    intro more hmore
    have hsize : 20 < entrySize := by decide
    rw [catalogue_entry i (by omega), header_catalogue i (by omega)]
  have hfirst := hbyte 0 (by decide)
  rw [Nat.add_zero] at hfirst
  simp only [load32, Nat.add_assoc, hfirst, hbyte 1 (by decide), hbyte 2 (by decide),
    hbyte 3 (by decide)]
  rfl

theorem count_catalogue (hcount : names.length < wordCount) :
    load32 (catalogue names behind) entrySize = names.length := by
  have hbyte : ∀ offset < 4, catalogue names behind (entrySize + offset) =
      ofList (word32 names.length) offset := by
    intro offset hoffset
    rw [catalogue, if_neg (by omega), if_pos (by omega), Nat.add_sub_cancel_left]
  have hword := load32_word32 hcount []
  rw [List.append_nil] at hword
  calc load32 (catalogue names behind) entrySize
      = load32 (ofList (word32 names.length)) 0 := by
        have hfirst := hbyte 0 (by decide)
        rw [Nat.add_zero] at hfirst
        simp only [load32, hfirst, hbyte 1 (by decide), hbyte 2 (by decide), hbyte 3 (by decide),
          Nat.zero_add]
    _ = names.length := hword

/-- The name of an entry with the two bytes behind it, and the next byte, which belongs to
the field or to the next entry. -/
theorem name_catalogue (behind : UInt8) (i : ℕ) (h : i < names.length) :
    BytesAt (catalogue names behind) (entryAddress entrySize i + 20)
      ((names.get ⟨i, h⟩).chars ++ [0, behind, 0]) := by
  have hlength := (names.get ⟨i, h⟩).length_lt
  have hentry : catalogueEntry names behind i =
      List.replicate 20 0 ++ ((names.get ⟨i, h⟩).chars ++ [0, behind]) := by
    rw [catalogueEntry, List.getElem?_eq_getElem h]
    rfl
  have hinside : ∀ offset, 20 + offset < entrySize →
      catalogue names behind (entryAddress entrySize i + 20 + offset) =
        ofList ((names.get ⟨i, h⟩).chars ++ [0, behind]) offset := by
    intro offset hoffset
    have hfield := ofList_append_right (List.replicate 20 0)
      ((names.get ⟨i, h⟩).chars ++ [0, behind]) offset
    rw [List.length_replicate] at hfield
    rw [Nat.add_assoc, catalogue_entry i hoffset, hentry, hfield]
  have hsize : entrySize = 276 := rfl
  have hmax : maxFilenameLen = 255 := rfl
  have hsplit : (names.get ⟨i, h⟩).chars ++ [0, behind, 0] =
      ((names.get ⟨i, h⟩).chars ++ [0, behind]) ++ [0] := by simp
  rw [hsplit, bytesAt_append, bytesAt_cons]
  refine ⟨?_, ?_, fun _ h => absurd h (Nat.not_lt_zero _)⟩
  · intro offset hoffset
    rw [List.length_append, List.length_cons, List.length_singleton] at hoffset
    rw [hinside offset (by omega)]
    exact bytesAt_ofList _ offset _ ▸ by rw [Nat.zero_add]
  · have htail : ((names.get ⟨i, h⟩).chars ++ [0, behind]).length =
        (names.get ⟨i, h⟩).chars.length + 2 := by simp
    rw [htail]
    by_cases hfits : 20 + ((names.get ⟨i, h⟩).chars.length + 2) < entrySize
    · rw [hinside _ hfits, ofList, ← htail]
      simp
    · -- the longest names fill their field
      have hnext : entryAddress entrySize i + 20 + ((names.get ⟨i, h⟩).chars.length + 2) =
          entryAddress entrySize (i + 1) + 0 := by
        simp only [entryAddress, Nat.mul_succ]
        omega
      rw [hnext, catalogue_entry (i + 1) (by decide)]
      exact (header_catalogue (i + 1) (by decide))

theorem holdsNames_catalogue (hcount : names.length < wordCount) :
    HoldsNames (catalogue names behind) entrySize names where
  count := count_catalogue hcount
  name i h := by
    have hbytes := name_catalogue behind i h
    rw [show [0, behind, 0] = [0] ++ [behind, 0] from rfl, ← List.append_assoc] at hbytes
    exact (bytesAt_append.mp hbytes).1

theorem padded_catalogue : Padded (catalogue names 0) entrySize names := by
  intro i h
  have hbytes := (bytesAt_append.mp (name_catalogue 0 i h)).2
  have hsecond := (bytesAt_cons.mp (bytesAt_cons.mp hbytes).2).1
  rw [Nat.add_assoc] at hsecond
  exact hsecond

/-! ## Its entries -/

theorem lookupFrom_some {fs : Memory} {dir : ℕ} {name : List UInt8} (count : ℕ) : ∀ {i entry : ℕ},
    lookupFrom fs dir name count i = some entry → ∃ j, entry = entryAddress dir j := by
  induction count with
  | zero => simp [lookupFrom]
  | succ count ih =>
      intro i entry hentry
      rw [lookupFrom] at hentry
      split at hentry
      · exact ⟨i, (Option.some_injective _ hentry).symm⟩
      · exact ih hentry

theorem root_catalogue (names : List EntryName) (behind : UInt8) :
    sizeAt (catalogue names behind) 0 = 0 ∧
    typeAt (catalogue names behind) 0 = typeDir ∧
    locationAt (catalogue names behind) 0 = entrySize := by
  have hbyte : ∀ address < entrySize, catalogue names behind address =
      ofList (word32 0 ++ (word32 typeDir ++ word32 entrySize)) address := by
    intro address haddress
    rw [catalogue, if_pos haddress]
  have hword : ∀ address, address + 4 ≤ entrySize → load32 (catalogue names behind) address =
      load32 (ofList (word32 0 ++ (word32 typeDir ++ word32 entrySize))) address := by
    intro address haddress
    apply load32_congr
    intro x _ hx
    exact hbyte x (by omega)
  rw [sizeAt, typeAt, locationAt, hword 0 (by decide), hword (0 + 4) (by decide),
    hword (0 + 8) (by decide)]
  decide

/-- All entries of a catalogue are empty files in its root directory. -/
theorem size_getDirectoryEntry_catalogue {path : List UInt8} {entry : ℕ}
    (hentry : getDirectoryEntry (catalogue names behind) path = some entry) :
    sizeAt (catalogue names behind) entry = 0 := by
  have hstep : ∀ (path : List (List UInt8 × Bool)) (start cursor : Cursor),
      start.dir = entrySize → sizeAt (catalogue names behind) start.entry = 0 →
      path.foldlM (enter (catalogue names behind)) start = some cursor →
      sizeAt (catalogue names behind) cursor.entry = 0 := by
    intro path
    induction path with
    | nil =>
        intro start cursor _ hsize hcursor
        obtain rfl := Option.some_injective _ hcursor
        exact hsize
    | cons field path ih =>
        intro start cursor hdir hsize hcursor
        rw [List.foldlM_cons, enter, hdir, Option.bind_eq_bind] at hcursor
        cases hlookup : lookup (catalogue names behind) entrySize field.1 with
        | none => simp [hlookup] at hcursor
        | some entry =>
            obtain ⟨j, rfl⟩ := lookupFrom_some _ hlookup
            have htype : typeAt (catalogue names behind) (entryAddress entrySize j) ≠ typeDir := by
              rw [typeAt, word_catalogue j (by decide)]
              decide
            rw [hlookup] at hcursor
            dsimp only at hcursor
            rw [if_neg htype] at hcursor
            split at hcursor
            · have hsize : sizeAt (catalogue names behind) (entryAddress entrySize j) = 0 :=
                @word_catalogue names behind j 0 (by decide)
              exact ih ⟨entryAddress entrySize j, entrySize⟩ cursor rfl hsize hcursor
            · cases hcursor
  rw [getDirectoryEntry, walk, Option.map_eq_some_iff] at hentry
  obtain ⟨cursor, hcursor, rfl⟩ := hentry
  obtain ⟨hsize, -, hdir⟩ := root_catalogue names behind
  exact hstep (fields slash path) (rootCursor (catalogue names behind)) cursor hdir hsize hcursor

end Rhythmos.Filesystem
