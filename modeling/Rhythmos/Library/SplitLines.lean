import Mathlib

/-!
# Lines of a stream

A separator ends each complete line of a stream, and the fragment behind the last separator is
what the stream has of the next one.  Reading on from a stream is reading on from its fragment,
so the lines do not depend on how a stream is cut into parts.

A consumer of items may ask to stop; `upTo` is what it gets up to the item with which it does.
-/

namespace SplitLines

variable {A : Type*} [DecidableEq A] {sep : A}

/-- The lines that a separator ends. -/
def complete (sep : A) (stream : List A) : List (List A) := (stream.splitOn sep).dropLast

/-- What stands behind the last separator. -/
def fragment (sep : A) (stream : List A) : List A :=
  (stream.splitOn sep).getLast (List.splitOn_ne_nil _ _)

variable {stream line rest short long : List A}

theorem complete_of_notMem (hline : sep ∉ line) : complete sep line = [] := by
  rw [complete, List.splitOn_eq_singleton hline]
  rfl

theorem fragment_of_notMem (hline : sep ∉ line) : fragment sep line = line := by
  simp only [fragment, List.splitOn_eq_singleton hline, List.getLast_singleton]

theorem complete_line (hline : sep ∉ line) (rest : List A) :
    complete sep (line ++ sep :: rest) = line :: complete sep rest := by
  rw [complete, List.splitOn_append_cons_self_of_not_mem hline,
    List.dropLast_cons_of_ne_nil (List.splitOn_ne_nil _ _), complete]

theorem fragment_line (hline : sep ∉ line) (rest : List A) :
    fragment sep (line ++ sep :: rest) = fragment sep rest := by
  simp only [fragment, List.splitOn_append_cons_self_of_not_mem hline]
  exact List.getLast_cons _

/-- The first line of a stream, if it has one. -/
theorem exists_line (sep : A) (stream : List A) : sep ∉ stream ∨ ∃ line rest,
    stream = line ++ sep :: rest ∧ sep ∉ line := by
  by_cases hmem : sep ∈ stream
  · obtain ⟨line, rest, hstream, hline⟩ := List.eq_append_cons_of_mem hmem
    exact .inr ⟨line, rest, hstream, hline⟩
  · exact .inl hmem

/-- Induction over the lines of a stream. -/
theorem line_induction (sep : A) {motive : List A → Prop}
    (open_ : ∀ stream, sep ∉ stream → motive stream)
    (line : ∀ line rest, sep ∉ line → motive rest → motive (line ++ sep :: rest))
    (stream : List A) : motive stream := by
  induction hlength : stream.length using Nat.strong_induction_on generalizing stream with
  | _ length ih =>
      rcases exists_line sep stream with hopen | ⟨first, rest, rfl, hfirst⟩
      · exact open_ stream hopen
      · have hshorter : rest.length < length := by
          rw [List.length_append, List.length_cons] at hlength
          omega
        exact line first rest hfirst (ih rest.length hshorter rest rfl)

theorem notMem_fragment (sep : A) (stream : List A) : sep ∉ fragment sep stream := by
  induction stream using line_induction sep with
  | open_ stream hopen =>
      rw [fragment_of_notMem hopen]
      exact hopen
  | line line rest hline ih =>
      rw [fragment_line hline]
      exact ih

theorem fragment_suffix_self (sep : A) (stream : List A) : fragment sep stream <:+ stream := by
  induction stream using line_induction sep with
  | open_ stream hopen =>
      rw [fragment_of_notMem hopen]
  | line line rest hline ih =>
      rw [fragment_line hline]
      exact ih.trans ((List.suffix_cons sep rest).trans (List.suffix_append line _))

/-- The lines of a longer stream. -/
theorem complete_append (stream rest : List A) :
    complete sep (stream ++ rest) =
      complete sep stream ++ complete sep (fragment sep stream ++ rest) := by
  induction stream using line_induction sep with
  | open_ stream hopen =>
      rw [complete_of_notMem hopen, fragment_of_notMem hopen, List.nil_append]
  | line line more hline ih =>
      rw [List.append_assoc, List.cons_append, complete_line hline, complete_line hline,
        fragment_line hline, ih, List.cons_append]

theorem fragment_append (stream rest : List A) :
    fragment sep (stream ++ rest) = fragment sep (fragment sep stream ++ rest) := by
  induction stream using line_induction sep with
  | open_ stream hopen => rw [fragment_of_notMem hopen]
  | line line more hline ih =>
      rw [List.append_assoc, List.cons_append, fragment_line hline, fragment_line hline, ih]

/-- A stream that begins in the middle of a line has ends of the same lines. -/
theorem complete_suffix (hshort : short <:+ long) (hlong : sep ∉ long) (rest : List A) :
    List.Forall₂ (· <:+ ·) (complete sep (short ++ rest)) (complete sep (long ++ rest)) := by
  have hshort' : sep ∉ short := fun hmem => hlong (hshort.subset hmem)
  rcases exists_line sep rest with hopen | ⟨line, more, rfl, hline⟩
  · rw [complete_of_notMem (by simp [hshort', hopen]), complete_of_notMem (by simp [hlong, hopen])]
    exact .nil
  · rw [← List.append_assoc, ← List.append_assoc, complete_line (by simp [hshort', hline]),
      complete_line (by simp [hlong, hline])]
    refine .cons ?_ (List.forall₂_same.mpr fun _ _ => List.suffix_rfl)
    obtain ⟨front, rfl⟩ := hshort
    exact ⟨front, by rw [List.append_assoc]⟩

theorem fragment_suffix (hshort : short <:+ long) (hlong : sep ∉ long) (rest : List A) :
    fragment sep (short ++ rest) <:+ fragment sep (long ++ rest) := by
  have hshort' : sep ∉ short := fun hmem => hlong (hshort.subset hmem)
  rcases exists_line sep rest with hopen | ⟨line, more, rfl, hline⟩
  · rw [fragment_of_notMem (by simp [hshort', hopen]), fragment_of_notMem (by simp [hlong, hopen])]
    obtain ⟨front, rfl⟩ := hshort
    exact ⟨front, by rw [List.append_assoc]⟩
  · rw [← List.append_assoc, ← List.append_assoc, fragment_line (by simp [hshort', hline]),
      fragment_line (by simp [hlong, hline])]

/-- Behind a separator it does not matter where a stream began. -/
theorem fragment_congr (hshort : sep ∉ short) (hlong : sep ∉ long) (hrest : sep ∈ rest) :
    fragment sep (short ++ rest) = fragment sep (long ++ rest) := by
  obtain ⟨line, more, rfl, hline⟩ := (exists_line sep rest).resolve_left (not_not.mpr hrest)
  rw [← List.append_assoc, ← List.append_assoc, fragment_line (by simp [hshort, hline]),
    fragment_line (by simp [hlong, hline])]

/-- It has the same lines exactly where it begins at the same place or has none. -/
theorem complete_inj (hshort : sep ∉ short) (hlong : sep ∉ long) :
    complete sep (short ++ rest) = complete sep (long ++ rest) ↔ sep ∉ rest ∨ short = long := by
  rcases exists_line sep rest with hopen | ⟨line, more, rfl, hline⟩
  · rw [complete_of_notMem (by simp [hshort, hopen]), complete_of_notMem (by simp [hlong, hopen])]
    exact iff_of_true rfl (.inl hopen)
  · rw [← List.append_assoc, ← List.append_assoc, complete_line (by simp [hshort, hline]),
      complete_line (by simp [hlong, hline]), List.cons.injEq, and_iff_left rfl,
      List.append_left_inj]
    simp

/-! ## Stopping -/

variable {B : Type*} {stop : List B → Bool} {items more before : List B}

/-- The consumer of the items, which may look at all that it has got, asks to stop at one of
them. -/
def stopped (stop : List B → Bool) : List B → List B → Bool
  | _, [] => false
  | before, item :: items => stop (before ++ [item]) || stopped stop (before ++ [item]) items

/-- The items up to and including the first at which the consumer asks to stop. -/
def upTo (stop : List B → Bool) : List B → List B → List B
  | _, [] => []
  | before, item :: items =>
      item :: if stop (before ++ [item]) then [] else upTo stop (before ++ [item]) items

theorem stopped_append (items more : List B) : ∀ before,
    stopped stop before (items ++ more) =
      (stopped stop before items || stopped stop (before ++ items) more) := by
  induction items with
  | nil => simp [stopped]
  | cons item items ih => simp [stopped, ih, Bool.or_assoc]

/-- What comes behind the end does not matter. -/
theorem upTo_append (more : List B) : ∀ {before},
    stopped stop before items = true →
      upTo stop before (items ++ more) = upTo stop before items := by
  induction items with
  | nil =>
      intro before hstopped
      cases hstopped
  | cons item items ih =>
      intro before hstopped
      rw [List.cons_append, upTo, upTo]
      by_cases hstop : stop (before ++ [item]) = true
      · rw [if_pos hstop, if_pos hstop]
      · rw [if_neg hstop, if_neg hstop, ih]
        simpa [stopped, hstop] using hstopped

end SplitLines
