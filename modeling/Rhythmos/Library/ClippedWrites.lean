import Mathlib

/-!
# Clipped writes

A buffer maps indices to items.  `clip limit start items buffer` is the buffer after the
items have been written one after the other from `start` on, where a write at `limit` or
above is dropped.  Writes in sequence are one write of the appended items, and a write
covers an earlier, shorter one from the same start, whatever the limit is.
-/

namespace ClippedWrites

variable {A : Type*} {limit start index : ℕ} {items more : List A} {buffer : ℕ → A}

def clip (limit start : ℕ) (items : List A) (buffer : ℕ → A) : ℕ → A := fun index =>
  if index < limit ∧ start ≤ index then (items[index - start]?).getD (buffer index)
  else buffer index

theorem clip_off (hoff : limit ≤ index ∨ index < start ∨ start + items.length ≤ index) :
    clip limit start items buffer index = buffer index := by
  rw [clip]
  split
  next hinside =>
    have hlength : items.length ≤ index - start := by omega
    rw [List.getElem?_eq_none hlength, Option.getD_none]
  next => rfl

theorem clip_at (hindex : index < items.length) (hlimit : start + index < limit) :
    clip limit start items buffer (start + index) = items[index] := by
  rw [clip, if_pos ⟨hlimit, Nat.le_add_right _ _⟩, Nat.add_sub_cancel_left,
    List.getElem?_eq_getElem hindex, Option.getD_some]

@[simp]
theorem clip_nil (limit start : ℕ) (buffer : ℕ → A) : clip limit start [] buffer = buffer := by
  funext index
  simp [clip]

/-- A single write. -/
theorem clip_singleton (limit start : ℕ) (item : A) (buffer : ℕ → A) :
    clip limit start [item] buffer =
      if start < limit then Function.update buffer start item else buffer := by
  funext index
  by_cases hindex : index = start
  · subst hindex
    by_cases hlimit : index < limit
    · simp [clip, hlimit]
    · simp [clip, hlimit]
  · rw [clip_off]
    · split
      · rw [Function.update_of_ne hindex]
      · rfl
    · simp only [List.length_singleton]
      omega

/-- Writes in sequence. -/
theorem clip_append (limit start : ℕ) (items more : List A) (buffer : ℕ → A) :
    clip limit (start + items.length) more (clip limit start items buffer) =
      clip limit start (items ++ more) buffer := by
  funext index
  by_cases hinside : index < limit ∧ start ≤ index
  · obtain ⟨hlimit, hstart⟩ := hinside
    by_cases hfirst : index - start < items.length
    · rw [clip_off (.inr (.inl (by omega))), clip, clip, if_pos ⟨hlimit, hstart⟩,
        if_pos ⟨hlimit, hstart⟩, List.getElem?_append_left hfirst]
    · have hsecond : start + items.length ≤ index := by omega
      rw [clip, if_pos ⟨hlimit, hsecond⟩, clip_off (.inr (.inr hsecond)), clip,
        if_pos ⟨hlimit, hstart⟩, List.getElem?_append_right (by omega), Nat.sub_add_eq]
  · have hoff : limit ≤ index ∨ index < start := by omega
    rw [clip_off (by omega), clip_off (by omega), clip_off (by omega)]

/-- A write covers an earlier one from the same start that is not longer. -/
theorem clip_cover (hlength : items.length ≤ more.length) :
    clip limit start more (clip limit start items buffer) = clip limit start more buffer := by
  funext index
  by_cases hinside : index < limit ∧ start ≤ index ∧ index < start + more.length
  · obtain ⟨hlimit, hstart, hend⟩ := hinside
    obtain ⟨offset, rfl⟩ := Nat.exists_eq_add_of_le hstart
    rw [clip_at (by omega) hlimit, clip_at (by omega) hlimit]
  · rw [clip_off (by omega), clip_off (by omega), clip_off (by omega)]

end ClippedWrites
