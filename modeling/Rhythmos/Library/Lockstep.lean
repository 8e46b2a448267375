import Mathlib

/-!
# Two machines in step

Two machines that may stop read the same items.  A condition on the state of the second one and
on the item that comes next says exactly when a step keeps them related; over a run, the machines
stay related for as long as the condition is met.
-/

namespace Lockstep

variable {S T Item : Type*} {left : S → Item → Option S} {right : T → Item → Option T}
variable {rel : S → T → Prop} {meets : T → Item → Prop}

/-- Each item that is read meets the condition. -/
def Along (right : T → Item → Option T) (meets : T → Item → Prop) (t : T) : List Item → Prop
  | [] => True
  | item :: items => meets t item ∧ ∀ t' ∈ right t item, Along right meets t' items

instance [∀ t item, Decidable (meets t item)] (t : T) (items : List Item) :
    Decidable (Along right meets t items) := by
  induction items generalizing t with
  | nil => exact instDecidableTrue
  | cons item items ih => exact instDecidableAnd

theorem along_cons {t : T} {item : Item} {items : List Item} :
    Along right meets t (item :: items) ↔
      meets t item ∧ ∀ t' ∈ right t item, Along right meets t' items := Iff.rfl

theorem rel_some_iff {s : S} {t : T} : Option.Rel rel (some s) (some t) ↔ rel s t :=
  ⟨fun h => by cases h with | some h => exact h, Option.Rel.some⟩

theorem not_rel_none_some {t : T} : ¬ Option.Rel rel (none : Option S) (some t) :=
  fun h => by cases h

theorem not_rel_some_none {s : S} : ¬ Option.Rel rel (some s) (none : Option T) :=
  fun h => by cases h

theorem forall_prefix_cons {P : List Item → Prop} {item : Item} {items : List Item} :
    (∀ done, done <+: item :: items → P done) ↔
      P [] ∧ ∀ done, done <+: items → P (item :: done) := by
  constructor
  · intro hall
    exact ⟨hall [] List.nil_prefix, fun done hdone =>
      hall _ (List.cons_prefix_cons.mpr ⟨rfl, hdone⟩)⟩
  · rintro ⟨hnil, hcons⟩ done hdone
    obtain rfl | ⟨rest, rfl, hrest⟩ := List.prefix_cons_iff.mp hdone
    · exact hnil
    · exact hcons rest hrest

/-- The rule for a run. -/
theorem rel_iff_along
    (hstep : ∀ s t item, rel s t → (Option.Rel rel (left s item) (right t item) ↔ meets t item))
    {s : S} {t : T} (hrel : rel s t) (items : List Item) :
    (∀ done, done <+: items → Option.Rel rel (done.foldlM left s) (done.foldlM right t)) ↔
      Along right meets t items := by
  induction items generalizing s t with
  | nil =>
    refine iff_of_true (fun done hdone => ?_) trivial
    rw [List.prefix_nil.mp hdone]
    exact rel_some_iff.mpr hrel
  | cons item items ih =>
    rw [forall_prefix_cons, along_cons, ← hstep s t item hrel]
    simp only [List.foldlM_nil, List.foldlM_cons]
    refine (and_iff_right (rel_some_iff.mpr hrel)).trans ?_
    cases left s item with
    | none =>
      cases right t item with
      | none =>
        exact iff_of_true (fun _ _ => Option.Rel.none)
          ⟨Option.Rel.none, fun _ hmem => by cases hmem⟩
      | some t' =>
        exact iff_of_false (fun hruns => not_rel_none_some (hruns [] List.nil_prefix))
          fun hfirst => not_rel_none_some hfirst.1
    | some s' =>
      cases right t item with
      | none =>
        exact iff_of_false (fun hruns => not_rel_some_none (hruns [] List.nil_prefix))
          fun hfirst => not_rel_some_none hfirst.1
      | some t' =>
        constructor
        · intro hruns
          have hrel' := hruns [] List.nil_prefix
          refine ⟨hrel', fun t'' hmem => ?_⟩
          rw [← Option.mem_some_iff.mp hmem]
          exact (ih (rel_some_iff.mp hrel')).mp hruns
        · intro hfirst
          exact (ih (rel_some_iff.mp hfirst.1)).mpr (hfirst.2 t' rfl)

end Lockstep
