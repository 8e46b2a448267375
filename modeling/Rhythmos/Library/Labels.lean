import Mathlib

/-!
# Lists that agree where their labels say so

A list of labels says of each position of two lists how the elements there are related.  With
labels for secret positions this compares what two runs of a program produce: they agree at
the public positions, or they agree at no others.
-/

namespace Labels

variable {L A : Type*} {R : L → A → A → Prop}

/-- The elements of two lists are related as their labels say. -/
inductive Compared (R : L → A → A → Prop) : List L → List A → List A → Prop
  | nil : Compared R [] [] []
  | cons {label labels x xs y ys} : R label x y → Compared R labels xs ys →
      Compared R (label :: labels) (x :: xs) (y :: ys)

variable {labels labels' : List L} {left left' right right' : List A}

theorem Compared.append (hfirst : Compared R labels left right)
    (hsecond : Compared R labels' left' right') :
    Compared R (labels ++ labels') (left ++ left') (right ++ right') := by
  induction hfirst with
  | nil => exact hsecond
  | cons hrel _ ih => exact .cons hrel ih

theorem Compared.length (hcompared : Compared R labels left right) :
    left.length = labels.length ∧ right.length = labels.length := by
  induction hcompared with
  | nil => exact ⟨rfl, rfl⟩
  | cons _ _ ih =>
      simp only [List.length_cons]
      exact ⟨congrArg (· + 1) ih.1, congrArg (· + 1) ih.2⟩

/-- The same list on both sides. -/
theorem compared_self {label : L} (hsame : ∀ x, R label x x) (xs : List A) :
    Compared R (List.replicate xs.length label) xs xs := by
  induction xs with
  | nil => exact .nil
  | cons x xs ih => exact .cons (hsame x) ih

theorem compared_map {I : Type*} {label : L} (f g : I → A) (hrel : ∀ i, R label (f i) (g i))
    (items : List I) :
    Compared R (List.replicate items.length label) (items.map f) (items.map g) := by
  induction items with
  | nil => exact .nil
  | cons item items ih => exact .cons (hrel item) ih

theorem Compared.getElem? (hcompared : Compared R labels left right) {i : ℕ} {label : L}
    (hlabel : labels[i]? = some label) :
    ∃ x y, left[i]? = some x ∧ right[i]? = some y ∧ R label x y := by
  induction hcompared generalizing i with
  | nil => cases hlabel
  | @cons label' labels x xs y ys hrel _ ih =>
      cases i with
      | zero =>
          obtain rfl : label' = label := Option.some_injective _ hlabel
          exact ⟨x, y, rfl, rfl, hrel⟩
      | succ i => exact ih hlabel

end Labels
