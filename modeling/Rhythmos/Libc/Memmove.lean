import Rhythmos.Library.ByteMemory

/-!
# Copying bytes

`memmove` of `libc.c`, which copies byte by byte from the lowest address up, and
the stores of byte strings that come from another memory.
-/

namespace Rhythmos.Libc

open ByteMemory

/-- `memmove`: `len` single-byte copies in ascending order. -/
def memmove (memory : Memory) (dest src : ℕ) : ℕ → Memory
  | 0 => memory
  | len + 1 => memmove (Function.update memory dest (memory src)) (dest + 1) (src + 1) len

/-- Store a byte string at consecutive addresses. -/
def storeBytes (memory : Memory) (dest : ℕ) : List UInt8 → Memory
  | [] => memory
  | byte :: bytes => storeBytes (Function.update memory dest byte) (dest + 1) bytes

/-- The `len` bytes from `src` on. -/
def loadBytes (memory : Memory) (src len : ℕ) : List UInt8 :=
  (List.range len).map fun offset => memory (src + offset)

@[simp]
theorem length_loadBytes (memory : Memory) (src len : ℕ) :
    (loadBytes memory src len).length = len := by
  simp [loadBytes]

theorem memmove_off (memory : Memory) (dest src len : ℕ) {x : ℕ}
    (hoff : x < dest ∨ dest + len ≤ x) : memmove memory dest src len x = memory x := by
  induction len generalizing memory dest src with
  | zero => rfl
  | succ len ih =>
      rw [memmove, ih _ _ _ (by omega), Function.update_of_ne (by omega)]

theorem storeBytes_off (memory : Memory) (dest : ℕ) (bytes : List UInt8) {x : ℕ}
    (hoff : x < dest ∨ dest + bytes.length ≤ x) : storeBytes memory dest bytes x = memory x := by
  induction bytes generalizing memory dest with
  | nil => rfl
  | cons byte bytes ih =>
      simp only [List.length_cons] at hoff
      rw [storeBytes, ih _ _ (by omega), Function.update_of_ne (by omega)]

/-- A copy moves the bytes faithfully unless it starts inside the region that it reads. -/
theorem memmove_at (memory : Memory) {dest src len : ℕ} (hahead : dest ≤ src ∨ src + len ≤ dest)
    {x : ℕ} (hlow : dest ≤ x) (hhigh : x < dest + len) :
    memmove memory dest src len x = memory (src + (x - dest)) := by
  induction len generalizing memory dest src with
  | zero => omega
  | succ len ih =>
      rw [memmove]
      by_cases hx : x = dest
      · subst hx
        rw [memmove_off _ _ _ _ (by omega)]
        simp
      · rw [ih _ (by omega) (by omega) (by omega), Function.update_of_ne (by omega)]
        congr 1
        omega

/-- A copy towards lower addresses, or within its place, moves the bytes
faithfully even when the regions overlap. -/
theorem memmove_down (memory : Memory) {dest src : ℕ} (hdown : dest ≤ src) (len : ℕ) {x : ℕ}
    (hlow : dest ≤ x) (hhigh : x < dest + len) :
    memmove memory dest src len x = memory (src + (x - dest)) :=
  memmove_at memory (.inl hdown) hlow hhigh

/-- A copy to a place inside the region that it reads repeats the bytes in front of that
place. -/
theorem memmove_up (memory : Memory) {dest src : ℕ} (hup : src < dest) (len : ℕ) {x : ℕ}
    (hlow : dest ≤ x) (hhigh : x < dest + len) :
    memmove memory dest src len x = memory (src + (x - dest) % (dest - src)) := by
  induction len generalizing memory dest src with
  | zero => omega
  | succ len ih =>
      rw [memmove]
      by_cases hx : x = dest
      · subst hx
        rw [memmove_off _ _ _ _ (by omega)]
        simp
      · obtain ⟨k, rfl⟩ : ∃ k, x = dest + 1 + k := ⟨x - (dest + 1), by omega⟩
        have hdistance : dest + 1 - (src + 1) = dest - src := by omega
        have hoffset : dest + 1 + k - (dest + 1) = k := by omega
        have hnext : dest + 1 + k - dest = k + 1 := by omega
        have hlt : k % (dest - src) < dest - src := Nat.mod_lt _ (by omega)
        rw [ih _ (by omega) (by omega) (by omega), hdistance, hoffset, hnext]
        by_cases hlast : k % (dest - src) + 1 = dest - src
        · have hwrap : src + 1 + k % (dest - src) = dest := by omega
          have hzero : (k + 1) % (dest - src) = 0 := by
            rw [← Nat.mod_add_mod, hlast, Nat.mod_self]
          rw [hwrap, Function.update_self, hzero, Nat.add_zero]
        · have hstep : (k + 1) % (dest - src) = k % (dest - src) + 1 := by
            rw [← Nat.mod_add_mod, Nat.mod_eq_of_lt (by omega)]
          rw [Function.update_of_ne (by omega), hstep]
          congr 1
          omega

/-- Bytes that are repeated at a distance are the same modulo the distance. -/
theorem periodic_iff {A : Type*} {value : ℕ → A} {distance len : ℕ} (hdistance : 0 < distance) :
    (∀ i < len, value (i % distance) = value i) ↔
      ∀ i, i + distance < len → value (i + distance) = value i := by
  constructor
  · intro hsame i hi
    calc value (i + distance) = value ((i + distance) % distance) := (hsame _ hi).symm
      _ = value (i % distance) := by rw [Nat.add_mod_right]
      _ = value i := hsame i (by omega)
  · intro hrepeats i
    induction i using Nat.strong_induction_on with
    | _ i ih =>
        intro hi
        by_cases hsmall : i < distance
        · rw [Nat.mod_eq_of_lt hsmall]
        · obtain ⟨j, rfl⟩ : ∃ j, i = j + distance := ⟨i - distance, by omega⟩
          calc value ((j + distance) % distance) = value (j % distance) := by
                rw [Nat.add_mod_right]
            _ = value j := ih j (by omega) (by omega)
            _ = value (j + distance) := (hrepeats j hi).symm

/-- `memmove` moves the bytes between all regions that do not overlap, and between overlapping
ones towards lower addresses.  Towards higher addresses it does so only if the source repeats
itself at the distance of the regions. -/
theorem memmove_moves_iff (memory : Memory) (dest src len : ℕ) :
    ((∀ i < len, memmove memory dest src len (dest + i) = memory (src + i)) ∧
      ∀ x, x < dest ∨ dest + len ≤ x → memmove memory dest src len x = memory x) ↔
    dest ≤ src ∨ src + len ≤ dest ∨
      ∀ i, i + (dest - src) < len → memory (src + (i + (dest - src))) = memory (src + i) := by
  rw [and_iff_left fun x hx => memmove_off memory dest src len hx]
  by_cases hahead : dest ≤ src ∨ src + len ≤ dest
  · refine iff_of_true (fun i hi => ?_) (hahead.imp_right .inl)
    rw [memmove_at memory hahead (by omega) (by omega), Nat.add_sub_cancel_left]
  · rw [not_or, Nat.not_le, Nat.not_le] at hahead
    have hdistance : 0 < dest - src := by omega
    rw [or_iff_right (by omega), or_iff_right (by omega),
      ← @periodic_iff _ (fun i => memory (src + i)) _ _ hdistance]
    refine forall₂_congr fun i hi => ?_
    rw [memmove_up memory hahead.1 len (by omega) (by omega), Nat.add_sub_cancel_left]

/-- Moving two bytes up by one repeats the first one. -/
theorem memmove_loses_byte :
    memmove (ofList [1, 2, 3]) 1 0 2 (1 + 1) ≠ ofList [1, 2, 3] (0 + 1) := by
  decide

theorem storeBytes_at (memory : Memory) (dest : ℕ) (bytes : List UInt8) {offset : ℕ}
    (hoffset : offset < bytes.length) :
    storeBytes memory dest bytes (dest + offset) = bytes[offset] := by
  induction bytes generalizing memory dest offset with
  | nil => simp at hoffset
  | cons byte bytes ih =>
      rw [storeBytes]
      cases offset with
      | zero =>
          rw [storeBytes_off _ _ _ (by omega)]
          simp
      | succ offset =>
          have hstep := ih (Function.update memory dest byte) (dest + 1)
            (by simpa using hoffset)
          rw [show dest + (offset + 1) = dest + 1 + offset by omega, hstep]
          simp

/-! ## Byte strings in memory -/

theorem loadBytes_congr {memory memory' : Memory} {src src' len : ℕ}
    (hsame : ∀ offset < len, memory' (src' + offset) = memory (src + offset)) :
    loadBytes memory' src' len = loadBytes memory src len := by
  apply List.map_congr_left
  intro offset hoffset
  exact hsame offset (List.mem_range.mp hoffset)

theorem loadBytes_add (memory : Memory) (src len more : ℕ) :
    loadBytes memory src (len + more) =
      loadBytes memory src len ++ loadBytes memory (src + len) more := by
  simp only [loadBytes, List.range_add, List.map_append, List.map_map]
  congr 1
  apply List.map_congr_left
  intro offset _
  simp [Nat.add_assoc]

theorem loadBytes_bytesAt {memory : Memory} {src : ℕ} {bytes : List UInt8}
    (hbytes : BytesAt memory src bytes) : loadBytes memory src bytes.length = bytes := by
  apply List.ext_getElem
  · simp
  · intro offset _ hoffset
    simp [loadBytes, hbytes offset hoffset]

theorem bytesAt_storeBytes (memory : Memory) (dest : ℕ) (bytes : List UInt8) :
    BytesAt (storeBytes memory dest bytes) dest bytes :=
  fun _ hoffset => storeBytes_at memory dest bytes hoffset

theorem bytesAt_storeBytes_off {memory : Memory} {address dest : ℕ} {kept bytes : List UInt8}
    (hkept : BytesAt memory address kept)
    (hoff : dest + bytes.length ≤ address ∨ address + kept.length ≤ dest) :
    BytesAt (storeBytes memory dest bytes) address kept :=
  bytesAt_congr hkept fun x hlow hhigh => storeBytes_off memory dest bytes (by omega)

/-- What was stored is loaded. -/
theorem loadBytes_storeBytes (memory : Memory) (dest : ℕ) (bytes : List UInt8) :
    loadBytes (storeBytes memory dest bytes) dest bytes.length = bytes := by
  apply List.ext_getElem
  · simp
  · intro offset _ hoffset
    simp [loadBytes, storeBytes_at memory dest bytes hoffset]

/-- Bytes below a store stay. -/
theorem loadBytes_storeBytes_below (memory : Memory) {src len dest : ℕ} (bytes : List UInt8)
    (hbelow : src + len ≤ dest) :
    loadBytes (storeBytes memory dest bytes) src len = loadBytes memory src len := by
  apply loadBytes_congr
  intro offset hoffset
  exact storeBytes_off _ _ _ (by omega)

end Rhythmos.Libc
