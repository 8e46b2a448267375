import Rhythmos.Buddy.Model
import Rhythmos.Library.Fallible

/-!
# The objects of a user program

An array or a block of memory is a list of bytes, and a pointer into it an index.  Every access is
checked against the object, so a run without a fault leaves none.

A program gets its blocks from `malloc`.  What its process holds besides them is kept abstract.
-/

namespace Rhythmos.Shell.Objects

open Buddy Fallible

/-- A block that `malloc` has returned: its address, and the bytes in it. -/
structure Object where
  address : ℕ
  bytes : List UInt8
  deriving DecidableEq, Repr

/-- What the functions on strings use of the C library in a process `P`.  A `NULL` pointer is
`none`. -/
structure Libc (P : Type) where
  malloc : P → ℕ → Except Fault (Option Object × P)
  printf : P → List UInt8 → P

/-- Every request is served by an object of its size. -/
def Libc.Serves {P : Type} (lib : Libc P) : Prop :=
  ∀ process nbytes, ∃ object process',
    lib.malloc process nbytes = .ok (some object, process') ∧ object.bytes.length = nbytes

/-- A process that hands out its memory in order. -/
def bump : Libc ℕ where
  malloc next nbytes := .ok (some ⟨next, List.replicate nbytes 0⟩, next + nbytes)
  printf next _ := next

theorem bump_serves : bump.Serves := fun next nbytes =>
  ⟨⟨next, List.replicate nbytes 0⟩, next + nbytes, rfl, List.length_replicate⟩

/-! ## The functions of `libc.c` -/

def loadChar (bytes : List UInt8) (index : ℕ) : Except Fault UInt8 :=
  match bytes[index]? with
  | some c => .ok c
  | none => .error .outOfBounds

def storeChar (bytes : List UInt8) (index : ℕ) (c : UInt8) : Except Fault (List UInt8) :=
  if index < bytes.length then .ok (bytes.set index c) else .error .outOfBounds

def strlenLoop (s : List UInt8) : ℕ → ℕ → Except Fault ℕ
  | 0, _ => .error .diverges
  | fuel + 1, len => do
      let c ← loadChar s len
      if c = 0 then return len else strlenLoop s fuel (len + 1)

/-- The loop ends at the end of the object at the latest. -/
def strlen (s : List UInt8) : Except Fault ℕ := strlenLoop s (s.length + 1) 0

def memset (bytes : List UInt8) (c : UInt8) (n : ℕ) : Except Fault (List UInt8) :=
  if n ≤ bytes.length then .ok (List.replicate n c ++ bytes.drop n) else .error .outOfBounds

/-- The loop of `strcpy`, and the terminator that it writes at the end. -/
def strcpyLoop (src : List UInt8) : ℕ → ℕ → List UInt8 → Except Fault (List UInt8)
  | 0, _, _ => .error .diverges
  | fuel + 1, i, dest => do
      let c ← loadChar src i
      if c = 0 then storeChar dest i 0
      else
        let dest ← storeChar dest i c
        strcpyLoop src fuel (i + 1) dest

def strcpy (dest src : List UInt8) : Except Fault (List UInt8) :=
  strcpyLoop src (src.length + 1) 0 dest

/-! ## Their results -/

variable {bytes src dest done chars rest : List UInt8} {c : UInt8} {index : ℕ}

theorem loadChar_of_drop (h : bytes.drop index = c :: rest) :
    loadChar bytes index = .ok c ∧ bytes.drop (index + 1) = rest := by
  have hhead := congrArg List.head? h
  rw [List.head?_drop, List.head?_cons] at hhead
  have htail := congrArg List.tail h
  rw [List.tail_drop, List.tail_cons] at htail
  exact ⟨by rw [loadChar, hhead], htail⟩

theorem storeChar_append (h : dest.length = index) (c₁ c₂ : UInt8) :
    storeChar (dest ++ c₁ :: rest) index c₂ = .ok (dest ++ c₂ :: rest) := by
  rw [storeChar, if_pos (by rw [List.length_append, List.length_cons]; omega), ← h,
    List.set_append_right _ _ le_rfl, Nat.sub_self, List.set_cons_zero]

theorem strlenLoop_eq {fuel : ℕ} (h : bytes.drop index = chars ++ 0 :: rest) (htext : 0 ∉ chars)
    (hfuel : chars.length < fuel) :
    strlenLoop bytes fuel index = .ok (index + chars.length) := by
  induction chars generalizing fuel index with
  | nil =>
      obtain ⟨fuel, rfl⟩ := Nat.exists_eq_succ_of_ne_zero (Nat.ne_zero_of_lt hfuel)
      rw [strlenLoop, (loadChar_of_drop h).1, ok_bind, if_pos rfl]
      rfl
  | cons c chars ih =>
      obtain ⟨fuel, rfl⟩ := Nat.exists_eq_succ_of_ne_zero (Nat.ne_zero_of_lt hfuel)
      rw [List.mem_cons, not_or] at htext
      obtain ⟨hload, hrest⟩ := loadChar_of_drop h
      rw [strlenLoop, hload, ok_bind, if_neg (Ne.symm htext.1),
        ih hrest htext.2 (Nat.lt_of_succ_lt_succ hfuel), List.length_cons, Nat.add_assoc,
        Nat.add_comm 1]

theorem strlen_eq (rest : List UInt8) (htext : 0 ∉ chars) :
    strlen (chars ++ 0 :: rest) = .ok chars.length := by
  rw [strlen, strlenLoop_eq List.drop_zero htext (by simp), Nat.zero_add]

theorem memset_of_length (c : UInt8) (h : bytes.length = index) :
    memset bytes c index = .ok (List.replicate index c) := by
  rw [memset, if_pos h.ge, List.drop_of_length_le h.le, List.append_nil]

/-- The loop has copied `done`, and there is room for the rest. -/
theorem strcpyLoop_eq {fuel : ℕ} (h : src.drop index = chars ++ 0 :: rest) (htext : 0 ∉ chars)
    (hfuel : chars.length < fuel) (hdone : done.length = index)
    (hroom : dest.length = chars.length + 1) :
    strcpyLoop src fuel index (done ++ dest) = .ok (done ++ chars ++ [0]) := by
  induction chars generalizing index done dest fuel with
  | nil =>
      obtain ⟨fuel, rfl⟩ := Nat.exists_eq_succ_of_ne_zero (Nat.ne_zero_of_lt hfuel)
      obtain ⟨c, rfl⟩ := List.length_eq_one_iff.mp hroom
      rw [strcpyLoop, (loadChar_of_drop h).1, ok_bind, if_pos rfl, storeChar_append hdone,
        List.append_nil]
  | cons c chars ih =>
      obtain ⟨fuel, rfl⟩ := Nat.exists_eq_succ_of_ne_zero (Nat.ne_zero_of_lt hfuel)
      obtain ⟨old, dest, rfl⟩ := List.exists_cons_of_length_eq_add_one hroom
      rw [List.mem_cons, not_or] at htext
      obtain ⟨hload, hrest⟩ := loadChar_of_drop h
      have hnext : strcpyLoop src fuel (index + 1) (done ++ [c] ++ dest) =
          .ok (done ++ [c] ++ chars ++ [0]) :=
        ih hrest htext.2 (Nat.lt_of_succ_lt_succ hfuel) (by rw [List.length_append, hdone]; rfl)
          (Nat.succ_inj.mp hroom)
      rw [strcpyLoop, hload, ok_bind, if_neg (Ne.symm htext.1), storeChar_append hdone, ok_bind,
        List.append_cons, hnext, List.append_cons done c chars]

theorem strcpy_eq (rest : List UInt8) (htext : 0 ∉ chars) (hroom : dest.length = chars.length + 1) :
    strcpy dest (chars ++ 0 :: rest) = .ok (chars ++ [0]) :=
  strcpyLoop_eq List.drop_zero htext (by simp) List.length_nil hroom

end Rhythmos.Shell.Objects
