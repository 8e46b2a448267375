import Mathlib

/-!
# Byte-addressed memory

A flat memory maps every address to a byte.  Words are 32 bits wide and stored
little-endian, so a word store changes exactly the four bytes of its word and a
word load depends on exactly these four bytes.
-/

namespace ByteMemory

abbrev Memory := ℕ → UInt8

/-- Number of values of a 32-bit word. -/
abbrev wordCount : ℕ := 4294967296

/-- The 32-bit little-endian word at `address`. -/
def load32 (memory : Memory) (address : ℕ) : ℕ :=
  (memory address).toNat + 256 * (memory (address + 1)).toNat +
    65536 * (memory (address + 2)).toNat + 16777216 * (memory (address + 3)).toNat

/-- Store the low 32 bits of `value` at `address`. -/
def store32 (memory : Memory) (address value : ℕ) : Memory := fun x =>
  if x = address then UInt8.ofNat value
  else if x = address + 1 then UInt8.ofNat (value / 256)
  else if x = address + 2 then UInt8.ofNat (value / 65536)
  else if x = address + 3 then UInt8.ofNat (value / 16777216)
  else memory x

theorem load32_lt (memory : Memory) (address : ℕ) :
    load32 memory address < wordCount := by
  have h0 := (memory address).toNat_lt
  have h1 := (memory (address + 1)).toNat_lt
  have h2 := (memory (address + 2)).toNat_lt
  have h3 := (memory (address + 3)).toNat_lt
  simp only [load32, wordCount]
  omega

/-- A load depends on the four bytes of its word only. -/
theorem load32_congr {left right : Memory} {address : ℕ}
    (hbytes : ∀ x, address ≤ x → x < address + 4 → left x = right x) :
    load32 left address = load32 right address := by
  simp only [load32]
  rw [hbytes address (by omega) (by omega),
    hbytes (address + 1) (by omega) (by omega),
    hbytes (address + 2) (by omega) (by omega),
    hbytes (address + 3) (by omega) (by omega)]

/-- A store leaves every byte outside its word as it was. -/
theorem store32_off (memory : Memory) (address value : ℕ) {x : ℕ}
    (hoff : x < address ∨ address + 4 ≤ x) :
    store32 memory address value x = memory x := by
  simp only [store32]
  rw [if_neg (by omega), if_neg (by omega), if_neg (by omega), if_neg (by omega)]

theorem load32_store32_mod (memory : Memory) (address value : ℕ) :
    load32 (store32 memory address value) address = value % wordCount := by
  simp only [load32, store32, wordCount]
  simp
  omega

theorem load32_store32_same (memory : Memory) (address : ℕ) {value : ℕ}
    (hvalue : value < wordCount) :
    load32 (store32 memory address value) address = value := by
  rw [load32_store32_mod, Nat.mod_eq_of_lt hvalue]

theorem load32_store32_off (memory : Memory) (address value : ℕ) {other : ℕ}
    (hoff : other + 4 ≤ address ∨ address + 4 ≤ other) :
    load32 (store32 memory address value) other = load32 memory other := by
  apply load32_congr
  intro x hlow hhigh
  exact store32_off memory address value (by omega)

/-! ## Memory with given contents -/

/-- The bytes of a list, followed by zeros. -/
def ofList (bytes : List UInt8) : Memory := fun address => bytes.getD address 0

/-- The bytes of a word. -/
def word32 (value : ℕ) : List UInt8 :=
  [UInt8.ofNat value, UInt8.ofNat (value / 256), UInt8.ofNat (value / 65536),
    UInt8.ofNat (value / 16777216)]

@[simp]
theorem length_word32 (value : ℕ) : (word32 value).length = 4 := rfl

theorem ofList_append_right (left right : List UInt8) (offset : ℕ) :
    ofList (left ++ right) (left.length + offset) = ofList right offset := by
  simp [ofList, List.getElem?_append_right]

theorem ofList_append_left (left right : List UInt8) {offset : ℕ} (hoffset : offset < left.length) :
    ofList (left ++ right) offset = ofList left offset := by
  simp [ofList, List.getElem?_append_left hoffset]

theorem load32_ofList_append (left right : List UInt8) (offset : ℕ) :
    load32 (ofList (left ++ right)) (left.length + offset) = load32 (ofList right) offset := by
  simp only [load32, Nat.add_assoc, ofList_append_right]

theorem load32_skip (value offset : ℕ) (right : List UInt8) :
    load32 (ofList (word32 value ++ right)) (offset + 4) = load32 (ofList right) offset := by
  rw [Nat.add_comm]
  exact load32_ofList_append (word32 value) right offset

theorem load32_word32 {value : ℕ} (hvalue : value < wordCount) (right : List UInt8) :
    load32 (ofList (word32 value ++ right)) 0 = value := by
  simp only [load32, ofList, word32, wordCount, List.cons_append, List.getD_cons_zero,
    List.getD_cons_succ, Nat.zero_add] at hvalue ⊢
  simp
  omega

/-! ## Bytes in a memory -/

/-- The memory has the bytes of a list at `address`. -/
def BytesAt (memory : Memory) (address : ℕ) (bytes : List UInt8) : Prop :=
  ∀ i (h : i < bytes.length), memory (address + i) = bytes.get ⟨i, h⟩

theorem bytesAt_append {memory : Memory} {address : ℕ} {left right : List UInt8} :
    BytesAt memory address (left ++ right) ↔
      BytesAt memory address left ∧ BytesAt memory (address + left.length) right := by
  constructor
  · intro hbytes
    constructor
    · intro i hi
      have hbyte := hbytes i (by rw [List.length_append]; omega)
      simpa [List.getElem_append_left hi] using hbyte
    · intro i hi
      have hbyte := hbytes (left.length + i) (by rw [List.length_append]; omega)
      simpa [Nat.add_assoc] using hbyte
  · rintro ⟨hleft, hright⟩ i hi
    rw [List.length_append] at hi
    by_cases hfirst : i < left.length
    · simpa [List.getElem_append_left hfirst] using hleft i hfirst
    · obtain ⟨j, rfl⟩ : ∃ j, i = left.length + j := ⟨i - left.length, by omega⟩
      simpa [Nat.add_assoc] using hright j (by omega)

theorem bytesAt_cons {memory : Memory} {address : ℕ} {byte : UInt8} {bytes : List UInt8} :
    BytesAt memory address (byte :: bytes) ↔
      memory address = byte ∧ BytesAt memory (address + 1) bytes := by
  have hsingle : BytesAt memory address [byte] ↔ memory address = byte := by
    constructor
    · intro hbytes
      exact hbytes 0 (by simp)
    · intro hbyte i hi
      obtain rfl : i = 0 := by simpa using hi
      exact hbyte
  rw [← List.singleton_append, bytesAt_append, hsingle, List.length_singleton]

theorem bytesAt_singleton {memory : Memory} {address : ℕ} {byte : UInt8} :
    BytesAt memory address [byte] ↔ memory address = byte := by
  rw [bytesAt_cons]
  exact and_iff_left fun i hi => absurd hi (Nat.not_lt_zero i)

/-- A byte outside does not matter. -/
theorem bytesAt_update {memory : Memory} {address other : ℕ} {bytes : List UInt8}
    (hbytes : BytesAt memory address bytes)
    (hoff : other < address ∨ address + bytes.length ≤ other) (byte : UInt8) :
    BytesAt (Function.update memory other byte) address bytes := by
  intro i hi
  rw [Function.update_of_ne (by omega)]
  exact hbytes i hi

theorem bytesAt_ofList (bytes : List UInt8) : BytesAt (ofList bytes) 0 bytes := by
  intro i hi
  simp [ofList, hi]

theorem bytesAt_congr {memory memory' : Memory} {address : ℕ} {bytes : List UInt8}
    (hbytes : BytesAt memory address bytes)
    (hsame : ∀ x, address ≤ x → x < address + bytes.length → memory' x = memory x) :
    BytesAt memory' address bytes := by
  intro i hi
  rw [hsame _ (by omega) (by omega)]
  exact hbytes i hi

theorem bytesAt_store32 (memory : Memory) (address value : ℕ) :
    BytesAt (store32 memory address value) address (word32 value) := by
  intro i hi
  rw [length_word32] at hi
  interval_cases i
  all_goals simp [store32, word32]

theorem bytesAt_store32_off {memory : Memory} {address other : ℕ} {bytes : List UInt8}
    (value : ℕ) (hbytes : BytesAt memory address bytes)
    (hoff : other + 4 ≤ address ∨ address + bytes.length ≤ other) :
    BytesAt (store32 memory other value) address bytes :=
  bytesAt_congr hbytes fun x hlow hhigh => store32_off memory other value (by omega)

theorem load32_bytesAt {memory : Memory} {address value : ℕ}
    (hbytes : BytesAt memory address (word32 value)) (hvalue : value < wordCount) :
    load32 memory address = value := by
  have hword := load32_word32 hvalue []
  rw [List.append_nil] at hword
  rw [← hword]
  simp only [load32]
  rw [hbytes 1 (by simp), hbytes 2 (by simp), hbytes 3 (by simp)]
  rw [show memory address = (word32 value).get ⟨0, by simp⟩ from hbytes 0 (by simp)]
  rfl

/-- Where the bytes of a number stand, its low 32 bits are read. -/
theorem load32_bytesAt_mod {memory : Memory} {address value : ℕ}
    (hbytes : BytesAt memory address (word32 value)) :
    load32 memory address = value % wordCount := by
  have hstored := bytesAt_store32 memory address value
  rw [← load32_store32_mod memory address value]
  apply load32_congr
  intro x hlow hhigh
  obtain ⟨i, rfl⟩ : ∃ i, x = address + i := ⟨x - address, by omega⟩
  have hi : i < (word32 value).length := by
    rw [length_word32]
    omega
  exact (hbytes i hi).trans (hstored i hi).symm

end ByteMemory
