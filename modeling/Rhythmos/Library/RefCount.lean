import Mathlib

/-!
# Counting references

A table maps finitely many slots to the objects they refer to, if any.
`references table object` is the number of slots that refer to an object; the
lemmas say how it changes when a slot is cleared or filled.
-/

namespace RefCount

variable {Slot Object : Type*} [Fintype Slot] [DecidableEq Slot] [DecidableEq Object]

/-- Number of slots referring to `object`. -/
def references (table : Slot → Option Object) (object : Object) : ℕ :=
  (Finset.univ.filter fun slot => table slot = some object).card

omit [DecidableEq Slot] in
theorem references_pos {table : Slot → Option Object} {object : Object} {slot : Slot}
    (hslot : table slot = some object) : 0 < references table object :=
  Finset.card_pos.mpr ⟨slot, by simp [hslot]⟩

omit [DecidableEq Slot] in
theorem references_eq_zero_iff {table : Slot → Option Object} {object : Object} :
    references table object = 0 ↔ ∀ slot, table slot ≠ some object := by
  simp [references, Finset.filter_eq_empty_iff]

omit [DecidableEq Slot] in
theorem exists_slot_of_references_pos {table : Slot → Option Object} {object : Object}
    (hpos : 0 < references table object) : ∃ slot, table slot = some object := by
  obtain ⟨slot, hslot⟩ := Finset.card_pos.mp hpos
  exact ⟨slot, by simpa using hslot⟩

/-- Changing one slot changes the count of an object by what that slot
contributes before and after. -/
theorem references_update (table : Slot → Option Object) (slot : Slot)
    (value : Option Object) (object : Object) :
    references (Function.update table slot value) object +
        (if table slot = some object then 1 else 0) =
      references table object + if value = some object then 1 else 0 := by
  have hsplit : ∀ other : Slot → Option Object, references other object =
      ((Finset.univ.erase slot).filter fun s => other s = some object).card +
        if other slot = some object then 1 else 0 := by
    intro other
    rw [references, ← Finset.insert_erase (Finset.mem_univ slot), Finset.filter_insert]
    split
    · rw [Finset.card_insert_of_notMem (by simp)]
      simp
    · simp
  rw [hsplit (Function.update table slot value), hsplit table]
  have hsame : ((Finset.univ.erase slot).filter fun s =>
      Function.update table slot value s = some object) =
      (Finset.univ.erase slot).filter fun s => table s = some object := by
    apply Finset.filter_congr
    intro s hs
    rw [Function.update_of_ne (Finset.ne_of_mem_erase hs)]
  rw [hsame, Function.update_self]
  omega

end RefCount
