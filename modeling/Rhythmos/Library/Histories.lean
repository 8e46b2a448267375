import Mathlib

/-!
# Histories whose entries fit what came before

An entry of a history is judged by the entries before it.  `Throughout good before segment`
says that all entries of `segment` are good, where `before` has happened already.
-/

namespace Histories

variable {A : Type*} {good : List A → A → Prop} {before segment segment' : List A} {entry : A}

/-- Every entry is good after the entries before it. -/
def Throughout (good : List A → A → Prop) (before segment : List A) : Prop :=
  ∀ earlier entry later, segment = earlier ++ entry :: later → good (before ++ earlier) entry

theorem throughout_nil (before : List A) : Throughout good before [] := by
  intro earlier entry later hsplit
  simp at hsplit

theorem throughout_cons (hfirst : good before entry)
    (hrest : Throughout good (before ++ [entry]) segment) :
    Throughout good before (entry :: segment) := by
  intro earlier other later hsplit
  cases earlier with
  | nil =>
      obtain ⟨rfl, -⟩ := List.cons.inj hsplit
      rwa [List.append_nil]
  | cons head earlier =>
      obtain ⟨rfl, htail⟩ := List.cons.inj hsplit
      have hgood := hrest earlier other later htail
      rwa [List.append_assoc] at hgood

theorem throughout_append (hfirst : Throughout good before segment)
    (hsecond : Throughout good (before ++ segment) segment') :
    Throughout good before (segment ++ segment') := by
  induction segment generalizing before with
  | nil => rwa [List.append_nil] at hsecond
  | cons entry segment ih =>
      refine throughout_cons ?_ (ih ?_ ?_)
      · have hgood := hfirst [] entry segment rfl
        rwa [List.append_nil] at hgood
      · intro earlier other later hsplit
        have hgood := hfirst (entry :: earlier) other later (by rw [hsplit, List.cons_append])
        rwa [List.append_cons] at hgood
      · rwa [← List.append_cons]

end Histories
