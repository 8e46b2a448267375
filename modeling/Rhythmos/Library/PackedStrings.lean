import Rhythmos.Library.ByteMemory

/-!
# Packed strings

Strings with their terminators that stand below a limit, the first one last, and the array
of the pointers to them.  Every pointer leads to the bytes of its string, and the strings
occupy disjoint ranges.  How the bytes begin tells which of the last strings are empty.
-/

namespace PackedStrings

open ByteMemory

variable {strings : List (List UInt8)} {memory : Memory} {limit : ℕ}

/-- A string with its terminator. -/
def terminated (string : List UInt8) : List UInt8 := string ++ [0]

/-- The strings, the last one first. -/
def packed (strings : List (List UInt8)) : List UInt8 := strings.reverse.flatMap terminated

/-- The number of bytes of the strings. -/
def packedSize (strings : List (List UInt8)) : ℕ :=
  (strings.map fun string => string.length + 1).sum

/-- The address of string `i`, where the strings stand below `limit`. -/
def start (limit : ℕ) (strings : List (List UInt8)) (i : ℕ) : ℕ :=
  limit - packedSize (strings.take (i + 1))

/-- The array of the addresses of the strings. -/
def pointers (limit : ℕ) (strings : List (List UInt8)) : List UInt8 :=
  (List.range strings.length).flatMap fun i => word32 (start limit strings i)

/-! ## Sizes -/

@[simp]
theorem length_terminated (string : List UInt8) :
    (terminated string).length = string.length + 1 := by
  simp [terminated]

@[simp]
theorem packedSize_nil : packedSize [] = 0 := rfl

@[simp]
theorem packedSize_append (left right : List (List UInt8)) :
    packedSize (left ++ right) = packedSize left + packedSize right := by
  simp [packedSize]

@[simp]
theorem packedSize_singleton (string : List UInt8) : packedSize [string] = string.length + 1 := by
  simp [packedSize]

theorem packed_append (left right : List (List UInt8)) :
    packed (left ++ right) = packed right ++ packed left := by
  simp [packed]

theorem packed_concat (strings : List (List UInt8)) (string : List UInt8) :
    packed (strings ++ [string]) = terminated string ++ packed strings := by
  simp [packed]

@[simp]
theorem length_packed (strings : List (List UInt8)) :
    (packed strings).length = packedSize strings := by
  induction strings using List.reverseRecOn with
  | nil => rfl
  | append_singleton strings string ih =>
      rw [packed_concat, List.length_append, ih, length_terminated, packedSize_append,
        packedSize_singleton, Nat.add_comm]

@[simp]
theorem length_pointers (limit : ℕ) (strings : List (List UInt8)) :
    (pointers limit strings).length = 4 * strings.length := by
  simp [pointers, Nat.mul_comm]

theorem pointers_concat (limit : ℕ) (strings : List (List UInt8)) (string : List UInt8) :
    pointers limit (strings ++ [string]) =
      pointers limit strings ++ word32 (limit - packedSize (strings ++ [string])) := by
  rw [pointers, List.length_append, List.length_singleton, List.range_succ, List.flatMap_append,
    List.flatMap_singleton]
  congr 1
  · apply List.flatMap_congr
    intro i hi
    rw [start, start, List.take_append_of_le_length (List.mem_range.mp hi)]
  · rw [start, List.take_of_length_le (by simp)]

/-! ## Reading the strings -/

section Reading

variable {i j : ℕ}

/-- The strings up to number `i`. -/
theorem take_succ_eq (hi : i < strings.length) :
    strings.take (i + 1) = strings.take i ++ [strings.get ⟨i, hi⟩] := by
  rw [List.take_succ_eq_append_getElem hi]
  rfl

theorem packedSize_take_le_self (strings : List (List UInt8)) (i : ℕ) :
    packedSize (strings.take i) ≤ packedSize strings := by
  calc packedSize (strings.take i)
      ≤ packedSize (strings.take i) + packedSize (strings.drop i) := Nat.le_add_right _ _
    _ = packedSize strings := by rw [← packedSize_append, List.take_append_drop]

theorem packedSize_take_le (strings : List (List UInt8)) (hle : i ≤ j) :
    packedSize (strings.take i) ≤ packedSize (strings.take j) := by
  calc packedSize (strings.take i)
      = packedSize ((strings.take j).take i) := by rw [List.take_take, Nat.min_eq_left hle]
    _ ≤ packedSize (strings.take j) := packedSize_take_le_self _ _

/-- Every string stands at its address. -/
theorem bytesAt_start (hbytes : BytesAt memory (limit - packedSize strings) (packed strings))
    (hlimit : packedSize strings ≤ limit) (hi : i < strings.length) :
    BytesAt memory (start limit strings i) (terminated (strings.get ⟨i, hi⟩)) := by
  have hsplit : packed strings = packed (strings.drop (i + 1)) ++
      (terminated (strings.get ⟨i, hi⟩) ++ packed (strings.take i)) := by
    rw [← packed_concat, ← take_succ_eq hi, ← packed_append, List.take_append_drop]
  have hsize : packedSize strings =
      packedSize (strings.take (i + 1)) + packedSize (strings.drop (i + 1)) := by
    rw [← packedSize_append, List.take_append_drop]
  rw [hsplit, bytesAt_append, bytesAt_append, length_packed] at hbytes
  have haddress : limit - packedSize strings + packedSize (strings.drop (i + 1)) =
      start limit strings i := by
    rw [start]
    omega
  rw [haddress] at hbytes
  exact hbytes.2.1

/-- A string ends where the one before begins, or at the limit. -/
theorem start_add (hlimit : packedSize strings ≤ limit) (hi : i < strings.length) :
    start limit strings i + ((strings.get ⟨i, hi⟩).length + 1) =
      limit - packedSize (strings.take i) := by
  have hsize := packedSize_take_le_self strings (i + 1)
  rw [start]
  rw [take_succ_eq hi, packedSize_append, packedSize_singleton] at hsize ⊢
  omega

/-- Later strings stand below earlier ones. -/
theorem start_add_le (hlimit : packedSize strings ≤ limit) (hij : i < j)
    (hj : j < strings.length) :
    start limit strings j + ((strings.get ⟨j, hj⟩).length + 1) ≤ start limit strings i := by
  rw [start_add hlimit hj, start]
  have hle : packedSize (strings.take (i + 1)) ≤ packedSize (strings.take j) :=
    packedSize_take_le strings hij
  omega

theorem le_start (strings : List (List UInt8)) (limit i : ℕ) :
    limit - packedSize strings ≤ start limit strings i := by
  have hle := packedSize_take_le_self strings (i + 1)
  rw [start]
  omega

theorem start_lt (hlimit : packedSize strings ≤ limit) (hi : i < strings.length) :
    start limit strings i < limit := by
  have hend := start_add hlimit hi
  omega

end Reading

/-- The entries of an array of words. -/
theorem bytesAt_words {address count : ℕ} {word : ℕ → ℕ}
    (hbytes : BytesAt memory address ((List.range count).flatMap fun i => word32 (word i))) :
    ∀ i < count, BytesAt memory (address + 4 * i) (word32 (word i)) := by
  induction count with
  | zero => exact fun i hi => absurd hi (Nat.not_lt_zero i)
  | succ count ih =>
      rw [List.range_succ, List.flatMap_append, List.flatMap_singleton, bytesAt_append] at hbytes
      obtain ⟨hfirst, hlast⟩ := hbytes
      intro i hi
      rcases Nat.lt_succ_iff_lt_or_eq.mp hi with hlt | rfl
      · exact ih hfirst i hlt
      · have hlength : ((List.range i).flatMap fun i => word32 (word i)).length = 4 * i := by
          simp [Nat.mul_comm]
        rwa [hlength] at hlast

/-! ## How the bytes begin -/

/-- Zeros in front are terminators of empty strings. -/
theorem replicate_prefix_iff (count : ℕ) (hzero : ∀ string ∈ strings, 0 ∉ string) :
    List.replicate count 0 <+: strings.flatMap terminated ↔
      List.replicate count [] <+: strings := by
  induction count generalizing strings with
  | zero => simp
  | succ count ih =>
      cases strings with
      | nil => simp
      | cons string strings =>
          rw [List.flatMap_cons, List.replicate_succ, List.replicate_succ, List.cons_prefix_cons]
          cases string with
          | nil =>
              have hrest := ih fun string hmem => hzero string (List.mem_cons_of_mem _ hmem)
              simp [terminated, hrest]
          | cons byte bytes =>
              have hbyte : 0 ≠ byte := by
                rintro rfl
                exact hzero _ List.mem_cons_self List.mem_cons_self
              simp [terminated, hbyte]

theorem replicate_prefix_packed_iff (count : ℕ) (hzero : ∀ string ∈ strings, 0 ∉ string) :
    List.replicate count 0 <+: packed strings ↔ List.replicate count [] <:+ strings := by
  have hreverse : ∀ string ∈ strings.reverse, 0 ∉ string := fun string hmem =>
    hzero string (List.mem_reverse.mp hmem)
  rw [packed, replicate_prefix_iff count hreverse, ← List.reverse_suffix, List.reverse_reverse,
    List.reverse_replicate]

end PackedStrings
