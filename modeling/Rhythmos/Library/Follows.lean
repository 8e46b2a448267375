import Rhythmos.Library.Fallible

/-!
# Computations that follow a relation

`Follows rel start state outcome` says that a computation which starts in `start` leads,
if it succeeds, to a state that `rel` relates to `start`.  For a reflexive and transitive
relation the rules follow the structure of the computation, so that a function is dealt
with once, by a lemma of its own, and its callers cite that lemma.
-/

namespace Fallible

universe u v w

variable {Error : Type u} {A B : Type v} {State : Type w} {rel : State → State → Prop}
variable {start : State} {state : A → State} {result : B → State}

/-- Every successful outcome is related to the start. -/
def Follows (rel : State → State → Prop) (start : State) (state : A → State)
    (outcome : Except Error A) : Prop :=
  Ensures (fun _ => True) outcome fun value => rel start (state value)

theorem ensures_trivial (outcome : Except Error A) :
    Ensures (fun _ => True) outcome fun _ => True := by
  cases outcome with
  | error error => exact ensures_error.mpr trivial
  | ok value => exact ensures_ok.mpr trivial

theorem Follows.ok {value : A} (hrel : rel start (state value)) :
    Follows rel start state (.ok value : Except Error A) :=
  ensures_ok.mpr hrel

theorem Follows.error {error : Error} : Follows rel start state (.error error) :=
  ensures_error.mpr trivial

/-- A first part that is not concerned with the state. -/
theorem Follows.after {first : Except Error A} {rest : A → Except Error B}
    (hrest : ∀ value, Follows rel start result (rest value)) :
    Follows rel start result (first >>= rest) :=
  ensures_bind (ensures_trivial first) fun value _ => hrest value

section Transitive

variable [IsTrans State rel]

theorem Follows.bind {first : Except Error A} {rest : A → Except Error B}
    (hfirst : Follows rel start state first)
    (hrest : ∀ value, Follows rel (state value) result (rest value)) :
    Follows rel start result (first >>= rest) := by
  apply ensures_bind hfirst
  intro value hrel
  exact ensures_weaken (hrest value) fun _ hrel' => Trans.trans hrel hrel'

/-- A last part that returns at once. -/
theorem Follows.finish {first : Except Error A} {rest : A → B}
    (hfirst : Follows rel start state first)
    (hrest : ∀ value, rel (state value) (result (rest value))) :
    Follows rel start result (first >>= fun value => pure (rest value)) :=
  hfirst.bind fun value => .ok (hrest value)

/-- A change before the computation. -/
theorem Follows.congr {start' : State} {outcome : Except Error A}
    (hfollows : Follows rel start' state outcome) (hrel : rel start start') :
    Follows rel start state outcome :=
  ensures_weaken hfollows fun _ hrel' => Trans.trans hrel hrel'

/-- A change before a sequence. -/
theorem Follows.next {start' : State} {first : Except Error A} {rest : A → Except Error B}
    (hfirst : Follows rel start' state first) (hrel : rel start start')
    (hrest : ∀ value, Follows rel (state value) result (rest value)) :
    Follows rel start result (first >>= rest) :=
  (hfirst.congr hrel).bind hrest

end Transitive

theorem Follows.foldlM {Item : Type*} {State : Type v} {rel : State → State → Prop}
    [IsPreorder State rel] {step : State → Item → Except Error State}
    (hstep : ∀ s item, Follows rel s id (step s item)) (items : List Item) (s : State) :
    Follows rel s id (items.foldlM step s) := by
  induction items generalizing s with
  | nil => exact .ok (Std.Refl.refl s)
  | cons item items ih =>
      rw [List.foldlM_cons]
      exact (hstep s item).bind fun s' => ih s'

end Fallible
