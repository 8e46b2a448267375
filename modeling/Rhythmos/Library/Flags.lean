import Mathlib

/-!
# Flags in a word

A flag is a mask with a single bit.  Setting, clearing and toggling a flag by the operators on
words does not touch the flags of the other bits.
-/

namespace Flags

variable {w : ℕ} {word flag other : BitVec w}

/-- The test `word & flag`. -/
def Has (word flag : BitVec w) : Prop := word &&& flag ≠ 0#w

instance : Decidable (Has word flag) := instDecidableNot

theorem not_has_zero : ¬ Has 0#w flag := fun hhas => hhas BitVec.zero_and

theorem has_or : Has (word ||| other) flag ↔ Has word flag ∨ Has other flag := by
  rw [Has, BitVec.and_or_distrib_right, Ne, BitVec.or_eq_zero_iff, not_and_or, Has, Has]

theorem not_has_and_not : ¬ Has (word &&& ~~~flag) flag := by
  rw [Has, not_not, BitVec.and_assoc, BitVec.and_comm (~~~flag), BitVec.and_not_self]
  exact BitVec.and_zero

theorem has_and_not (hother : other &&& flag = 0#w) :
    Has (word &&& ~~~other) flag ↔ Has word flag := by
  have hkept : ~~~other &&& flag = flag := by
    ext i hi
    have hbit : (other &&& flag)[i] = false := by
      rw [hother, BitVec.getElem_zero]
    rw [BitVec.getElem_and] at hbit ⊢
    rw [BitVec.getElem_not]
    cases hset : other[i] with
    | false => rw [Bool.not_false, Bool.true_and]
    | true =>
      rw [hset, Bool.true_and] at hbit
      rw [hbit, Bool.and_false]
  rw [Has, BitVec.and_assoc, hkept, Has]

theorem xor_and : (word ^^^ other) &&& flag = (word &&& flag) ^^^ (other &&& flag) := by
  ext i hi
  rw [BitVec.getElem_and, BitVec.getElem_xor, BitVec.getElem_xor, BitVec.getElem_and,
    BitVec.getElem_and, Bool.and_xor_distrib_right]

theorem has_xor (hother : other &&& flag = 0#w) : Has (word ^^^ other) flag ↔ Has word flag := by
  rw [Has, xor_and, hother, BitVec.xor_zero, Has]

/-- A word has a flag or nothing of it. -/
theorem and_twoPow {i : ℕ} (hflag : flag = BitVec.twoPow w i) :
    word &&& flag = flag ∨ word &&& flag = 0#w := by
  rw [hflag, BitVec.and_twoPow]
  by_cases hbit : word.getLsbD i
  · exact Or.inl (if_pos hbit)
  · exact Or.inr (if_neg hbit)

theorem has_xor_self {i : ℕ} (hi : i < w) (hflag : flag = BitVec.twoPow w i) :
    Has (word ^^^ flag) flag ↔ ¬ Has word flag := by
  have hset : flag ≠ 0#w := by
    intro hzero
    have hbit : (BitVec.twoPow w i).getLsbD i = true := by
      rw [BitVec.getLsbD_twoPow, decide_eq_true hi, decide_eq_true rfl, Bool.and_true]
    rw [← hflag, hzero, BitVec.getLsbD_zero] at hbit
    exact Bool.false_ne_true hbit
  rw [Has, Has, xor_and, BitVec.and_self, not_not]
  have hcases : word &&& flag = flag ∨ word &&& flag = 0#w := and_twoPow hflag
  obtain hword | hword := hcases
  · rw [hword, BitVec.xor_self]
    exact iff_of_false (not_not_intro rfl) hset
  · rw [hword, BitVec.zero_xor]
    exact iff_of_true hset rfl

end Flags
