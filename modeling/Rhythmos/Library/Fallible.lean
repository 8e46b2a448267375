import Mathlib

/-!
# Computations that may fail

Rules for sequencing computations in `Except`: how a successful or a failed
first part continues, and what the success of a sequence says about its parts.

`Ensures allowed computation post` is the total specification of such a
computation: it returns a value satisfying `post`, or it fails with an error
that `allowed` admits.  The rules follow the structure of the computation.
-/

namespace Fallible

universe u v

variable {Error : Type u} {A B : Type v}

@[simp]
theorem ok_bind (value : A) (rest : A → Except Error B) :
    (Except.ok value >>= rest) = rest value := rfl

@[simp]
theorem error_bind (error : Error) (rest : A → Except Error B) :
    (Except.error error >>= rest) = Except.error error := rfl

@[simp]
theorem pure_eq_ok (value : A) : (pure value : Except Error A) = Except.ok value := rfl

@[simp]
theorem throw_eq_error (error : Error) :
    (throw error : Except Error A) = Except.error error := rfl

/-- A sequence succeeds exactly when both parts do. -/
theorem bind_eq_ok {first : Except Error A} {rest : A → Except Error B} {result : B} :
    (first >>= rest) = Except.ok result ↔
      ∃ value, first = Except.ok value ∧ rest value = Except.ok result := by
  cases first with
  | error error => simp
  | ok value => simp

/-- The computation returns a value satisfying `post` or fails with an error
that `allowed` admits. -/
@[irreducible]
def Ensures (allowed : Error → Prop) (computation : Except Error A) (post : A → Prop) : Prop :=
  match computation with
  | .ok value => post value
  | .error error => allowed error

variable {allowed stronger : Error → Prop}

@[simp]
theorem ensures_ok {value : A} {post : A → Prop} :
    Ensures allowed (Except.ok value) post ↔ post value := by
  unfold Ensures
  rfl

@[simp]
theorem ensures_error {error : Error} {post : A → Prop} :
    Ensures allowed (Except.error error) post ↔ allowed error := by
  unfold Ensures
  rfl

theorem ensures_bind {first : Except Error A} {rest : A → Except Error B} {middle : A → Prop}
    {post : B → Prop} (hfirst : Ensures allowed first middle)
    (hrest : ∀ value, middle value → Ensures allowed (rest value) post) :
    Ensures allowed (first >>= rest) post := by
  cases first with
  | error error => simpa using hfirst
  | ok value => exact hrest value (ensures_ok.mp hfirst)

theorem ensures_mono {computation : Except Error A} {post weaker : A → Prop}
    (hensures : Ensures stronger computation post)
    (hallowed : ∀ error, stronger error → allowed error)
    (hpost : ∀ value, post value → weaker value) : Ensures allowed computation weaker := by
  cases computation with
  | error error => exact ensures_error.mpr (hallowed error (ensures_error.mp hensures))
  | ok value => exact ensures_ok.mpr (hpost value (ensures_ok.mp hensures))

theorem ensures_weaken {computation : Except Error A} {post weaker : A → Prop}
    (hensures : Ensures allowed computation post)
    (hpost : ∀ value, post value → weaker value) : Ensures allowed computation weaker :=
  ensures_mono hensures (fun _ h => h) hpost

theorem ensures_and {computation : Except Error A} {left right : A → Prop}
    (hleft : Ensures allowed computation left) (hright : Ensures stronger computation right) :
    Ensures allowed computation (fun value => left value ∧ right value) := by
  cases computation with
  | error error => exact ensures_error.mpr (ensures_error.mp hleft)
  | ok value => exact ensures_ok.mpr ⟨ensures_ok.mp hleft, ensures_ok.mp hright⟩

theorem ensures_of_eq_ok {computation : Except Error A} {post : A → Prop} {value : A}
    (hensures : Ensures allowed computation post) (hvalue : computation = .ok value) :
    post value := by
  subst hvalue
  exact ensures_ok.mp hensures

/-- A computation without errors has a value. -/
theorem exists_ok_of_ensures {computation : Except Error A} {post : A → Prop}
    (hensures : Ensures (fun _ => False) computation post) :
    ∃ value, computation = .ok value ∧ post value := by
  cases computation with
  | error error => exact (ensures_error.mp hensures).elim
  | ok value => exact ⟨value, rfl, ensures_ok.mp hensures⟩

/-- What is known about the value, whatever errors there are. -/
theorem ensures_of_ok {computation : Except Error A} {post : A → Prop}
    (hpost : ∀ value, computation = .ok value → post value) :
    Ensures (fun _ => True) computation post := by
  cases computation with
  | error error => exact ensures_error.mpr trivial
  | ok value => exact ensures_ok.mpr (hpost value rfl)

/-- A loop over a list keeps an invariant that may mention the part of the list
already processed. -/
theorem ensures_foldlM {Item : Type*} {step : A → Item → Except Error A} {items : List Item}
    (inv : List Item → A → Prop) {start : A} (hstart : inv [] start)
    (hstep : ∀ done item rest state, items = done ++ item :: rest → inv done state →
      Ensures allowed (step state item) (inv (done ++ [item]))) :
    Ensures allowed (items.foldlM step start) (inv items) := by
  suffices hgeneral : ∀ rest done state, items = done ++ rest → inv done state →
      Ensures allowed (rest.foldlM step state) (inv items) by
    exact hgeneral items [] start rfl hstart
  intro rest
  induction rest with
  | nil =>
      intro done state hitems hinv
      rw [List.append_nil] at hitems
      subst hitems
      exact ensures_ok.mpr hinv
  | cons item rest ih =>
      intro done state hitems hinv
      rw [List.foldlM_cons]
      apply ensures_bind (hstep done item rest state hitems hinv)
      intro state' hinv'
      exact ih (done ++ [item]) state' (by simp [hitems]) hinv'

/-- A loop over a range, of which the state after each turn is known. -/
theorem foldlM_range (step : A → ℕ → Except Error A) {n : ℕ} (state : ℕ → A)
    (hstep : ∀ k < n, step (state k) k = Except.ok (state (k + 1))) :
    (List.range n).foldlM step (state 0) = Except.ok (state n) := by
  induction n with
  | zero => rfl
  | succ n ih =>
      rw [List.range_succ, List.foldlM_append, ih fun k hk => hstep k (hk.trans n.lt_succ_self),
        ok_bind, List.foldlM_cons, hstep n n.lt_succ_self, ok_bind]
      rfl

end Fallible
