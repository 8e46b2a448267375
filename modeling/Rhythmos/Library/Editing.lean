import Mathlib

/-!
# Editing with an erasing item

A text is typed item by item.  One item, `del`, is not kept but takes back the last item that
is, and does nothing where there is none.

A pass over a text takes away each item that is followed by a run of `del`, and the last `del`
of the run.  It does not change what is typed, and each pass leaves fewer `del`.
-/

namespace Editing

variable {A : Type*} [DecidableEq A]

/-- What is kept after one more item. -/
def type (del : A) (kept : List A) (item : A) : List A :=
  if item = del then kept.dropLast else kept ++ [item]

/-- What is kept after a text. -/
def typeAll (del : A) (kept text : List A) : List A := text.foldl (type del) kept

/-- What a text comes to. -/
def edited (del : A) (text : List A) : List A := typeAll del [] text

/-- One pass over a text. -/
def sweep (del : A) : List A → List A
  | [] => []
  | item :: text =>
      if item = del ↔ text.head? = some del then item :: sweep del text else sweep del text

variable {del item : A} {kept text : List A}

theorem typeAll_cons_del : typeAll del kept (del :: text) = typeAll del kept.dropLast text := by
  rw [typeAll, List.foldl_cons, type, if_pos rfl, typeAll]

theorem typeAll_cons (hitem : item ≠ del) :
    typeAll del kept (item :: text) = typeAll del (kept ++ [item]) text := by
  rw [typeAll, List.foldl_cons, type, if_neg hitem, typeAll]

theorem typeAll_of_notMem (htext : del ∉ text) : typeAll del kept text = kept ++ text := by
  induction text generalizing kept with
  | nil => simp [typeAll]
  | cons item text ih =>
      rw [List.mem_cons, not_or] at htext
      rw [typeAll_cons (Ne.symm htext.1), ih htext.2, List.append_assoc]
      rfl

theorem edited_of_notMem (htext : del ∉ text) : edited del text = text :=
  typeAll_of_notMem htext

theorem mem_typeAll {kept : List A} (hmem : item ∈ typeAll del kept text) :
    item ∈ kept ∨ item ∈ text ∧ item ≠ del := by
  induction text generalizing kept with
  | nil => exact .inl hmem
  | cons first text ih =>
      by_cases hfirst : first = del
      · rw [hfirst, typeAll_cons_del] at hmem
        rcases ih hmem with hkept | htext
        · exact .inl (List.mem_of_mem_dropLast hkept)
        · exact .inr ⟨List.mem_cons_of_mem _ htext.1, htext.2⟩
      · rw [typeAll_cons hfirst] at hmem
        rcases ih hmem with hkept | htext
        · rcases List.mem_append.mp hkept with hkept | hnew
          · exact .inl hkept
          · rw [List.mem_singleton] at hnew
            exact .inr ⟨hnew ▸ List.mem_cons_self, hnew ▸ hfirst⟩
        · exact .inr ⟨List.mem_cons_of_mem _ htext.1, htext.2⟩

/-- Nothing of the erasing item is left. -/
theorem notMem_edited (text : List A) : del ∉ edited del text := by
  intro hmem
  rcases mem_typeAll hmem with hkept | htext
  · cases hkept
  · exact htext.2 rfl

/-- A text comes to itself only where it has no erasing item. -/
theorem edited_eq_self_iff : edited del text = text ↔ del ∉ text :=
  ⟨fun h => h ▸ notMem_edited text, edited_of_notMem⟩

/-! ## Passes -/

theorem sweep_sublist (text : List A) : (sweep del text).Sublist text := by
  induction text with
  | nil => exact List.Sublist.refl _
  | cons item text ih =>
      rw [sweep]
      split
      · exact ih.cons_cons item
      · exact ih.cons item

/-- A pass over a text that begins with an erasing item is worth the rest of the text: the run
that the item begins has become shorter by one. -/
theorem typeAll_sweep : typeAll del kept (sweep del text) =
    typeAll del kept (if text.head? = some del then text.tail else text) := by
  induction text generalizing kept with
  | nil => rfl
  | cons item text ih =>
      simp only [List.head?_cons, Option.some_inj, List.tail_cons, sweep]
      by_cases hitem : item = del
      · subst hitem
        rw [if_pos rfl]
        by_cases hhead : text.head? = some item
        · obtain ⟨rest, rfl⟩ := List.head?_eq_some_iff.mp hhead
          rw [if_pos (iff_of_true rfl hhead), typeAll_cons_del, ih, if_pos hhead, List.tail_cons,
            typeAll_cons_del]
        · rw [if_neg (fun h => hhead (h.mp rfl)), ih, if_neg hhead]
      · rw [if_neg hitem]
        by_cases hhead : text.head? = some del
        · obtain ⟨rest, rfl⟩ := List.head?_eq_some_iff.mp hhead
          rw [if_neg (fun h => hitem (h.mpr hhead)), ih, if_pos hhead, List.tail_cons,
            typeAll_cons hitem, typeAll_cons_del, List.dropLast_concat]
        · rw [if_pos (iff_of_false hitem hhead), typeAll_cons hitem, ih, if_neg hhead,
            typeAll_cons hitem]

/-- A pass does not change what a text comes to. -/
theorem edited_sweep (text : List A) : edited del (sweep del text) = edited del text := by
  rw [edited, typeAll_sweep]
  split
  case isTrue hhead =>
      -- there is nothing before the first item that it could take back
      obtain ⟨rest, rfl⟩ := List.head?_eq_some_iff.mp hhead
      rw [List.tail_cons, edited, typeAll_cons_del]
      rfl
  case isFalse => rfl

/-- Each pass leaves fewer erasing items, as long as there are any. -/
theorem count_sweep_lt (htext : del ∈ text) : (sweep del text).count del < text.count del := by
  induction text with
  | nil => cases htext
  | cons item text ih =>
      rw [sweep]
      by_cases hitem : item = del
      · subst hitem
        rw [List.count_cons_self]
        by_cases hhead : text.head? = some item
        · rw [if_pos (iff_of_true rfl hhead), List.count_cons_self]
          exact Nat.succ_lt_succ (ih (List.mem_of_mem_head? hhead))
        · rw [if_neg (fun h => hhead (h.mp rfl))]
          exact Nat.lt_succ_of_le ((sweep_sublist text).count_le item)
      · have hrest := ih (List.mem_of_ne_of_mem (Ne.symm hitem) htext)
        rw [List.count_cons_of_ne hitem]
        split
        · rw [List.count_cons_of_ne hitem]
          exact hrest
        · exact hrest

end Editing
