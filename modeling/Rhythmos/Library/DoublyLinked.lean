import Mathlib

/-!
# Doubly linked lists

A doubly linked list is a pair of end pointers together with `prev` and `next`
pointers on its nodes.  `IsList` says that these pointers describe a given
duplicate-free list of nodes: every node points to its neighbours, the ends of
the list have no outer neighbour, and the end pointers name the two ends.
-/

namespace DoublyLinked

variable {Node : Type*}

/-- The pointers describe exactly the list `nodes`. -/
structure IsList (prev next : Node → Option Node) (first last : Option Node)
    (nodes : List Node) : Prop where
  nodup : nodes.Nodup
  first_eq : first = nodes.head?
  last_eq : last = nodes.getLast?
  neighbours : ∀ front node back, nodes = front ++ node :: back →
    prev node = front.getLast? ∧ next node = back.head?

variable {prev next prev' next' : Node → Option Node} {first last first' last' : Option Node}
variable {nodes : List Node}

theorem isList_nil (prev next : Node → Option Node) : IsList prev next none none [] where
  nodup := List.nodup_nil
  first_eq := rfl
  last_eq := rfl
  neighbours := by simp

/-- Only the pointers of the nodes themselves matter. -/
theorem isList_congr (hlist : IsList prev next first last nodes)
    (hprev : ∀ node ∈ nodes, prev' node = prev node)
    (hnext : ∀ node ∈ nodes, next' node = next node) :
    IsList prev' next' first last nodes where
  nodup := hlist.nodup
  first_eq := hlist.first_eq
  last_eq := hlist.last_eq
  neighbours := by
    intro front node back hnodes
    have hmem : node ∈ nodes := by simp [hnodes]
    rw [hprev node hmem, hnext node hmem]
    exact hlist.neighbours front node back hnodes

/-- The `next` pointers follow the list. -/
theorem IsList.next_getElem (hlist : IsList prev next first last nodes) {index : ℕ}
    (hindex : index < nodes.length) : next nodes[index] = nodes[index + 1]? := by
  have hnodes : nodes = nodes.take index ++ nodes[index] :: nodes.drop (index + 1) := by simp
  rw [(hlist.neighbours _ _ _ hnodes).2, List.head?_drop]

/-- The `next` pointers, and the pointer to the first node at the end, go around the list. -/
theorem IsList.next_or_first (hlist : IsList prev next first last nodes) {index : ℕ}
    (hindex : index < nodes.length) :
    (next nodes[index]).or first = nodes[(index + 1) % nodes.length]? := by
  rw [hlist.next_getElem hindex, hlist.first_eq]
  rcases Nat.lt_or_ge (index + 1) nodes.length with hlt | hge
  · rw [Nat.mod_eq_of_lt hlt, List.getElem?_eq_getElem hlt, Option.some_or]
  · have hend : index + 1 = nodes.length := le_antisymm hindex hge
    rw [List.getElem?_eq_none hge, Option.none_or, hend, Nat.mod_self, List.head?_eq_getElem?]

variable [DecidableEq Node]

/-- Putting a node in front of a list sets its `next` pointer and the `prev`
pointer of the old first node. -/
theorem isList_cons {node : Node} (hlist : IsList prev next first last nodes)
    (hnew : node ∉ nodes) (hprevNode : prev' node = none) (hnextNode : next' node = first)
    (hprev : ∀ other ∈ nodes, prev' other = if first = some other then some node else prev other)
    (hnext : ∀ other ∈ nodes, next' other = next other)
    (hlast : last' = if first = none then some node else last) :
    IsList prev' next' (some node) last' (node :: nodes) where
  nodup := List.nodup_cons.mpr ⟨hnew, hlist.nodup⟩
  first_eq := rfl
  last_eq := by
    rw [hlast, hlist.first_eq, hlist.last_eq]
    cases nodes with
    | nil => simp
    | cons head tail => simp [List.getLast?_cons_cons]
  neighbours := by
    intro front other back hnodes
    cases front with
    | nil =>
        obtain ⟨rfl, rfl⟩ : node = other ∧ nodes = back := by simpa using hnodes
        exact ⟨hprevNode, hnextNode.trans hlist.first_eq⟩
    | cons head front =>
        obtain ⟨rfl, hrest⟩ : node = head ∧ nodes = front ++ other :: back := by
          simpa using hnodes
        clear hnodes
        have hmem : other ∈ nodes := by simp [hrest]
        obtain ⟨hprevOther, hnextOther⟩ := hlist.neighbours front other back hrest
        refine ⟨?_, (hnext other hmem).trans hnextOther⟩
        rw [hprev other hmem, hlist.first_eq]
        cases front with
        | nil => simp [hrest]
        | cons second front =>
            have hnodup := hlist.nodup
            rw [hrest] at hnodup
            have hne : second ≠ other := by
              rintro rfl
              simp at hnodup
            simp [hrest, hne, hprevOther, List.getLast?_cons_cons]

/-- Unlinking a node makes its two neighbours, or the end pointers where it has
none, point past it. -/
theorem isList_remove {node : Node} {front back : List Node}
    (hlist : IsList prev next first last (front ++ node :: back))
    (hprev : ∀ other ∈ front ++ back,
      prev' other = if next node = some other then prev node else prev other)
    (hnext : ∀ other ∈ front ++ back,
      next' other = if prev node = some other then next node else next other)
    (hfirst : first' = if first = some node then next node else first)
    (hlast : last' = if last = some node then prev node else last) :
    IsList prev' next' first' last' (front ++ back) := by
  obtain ⟨hprevNode, hnextNode⟩ := hlist.neighbours front node back rfl
  have hnodup := hlist.nodup
  have hsplit := List.nodup_append.mp hnodup
  have hback : node ∉ back := (List.nodup_cons.mp hsplit.2.1).1
  have hfront : node ∉ front := fun hmem => hsplit.2.2 node hmem node (by simp) rfl
  refine ⟨?_, ?_, ?_, ?_⟩
  · exact List.Nodup.sublist (by simp) hnodup
  · rw [hfirst, hlist.first_eq, hnextNode]
    cases front with
    | nil => simp
    | cons head front =>
        have hne : head ≠ node := by
          rintro rfl
          simp at hfront
        simp [hne]
  · rw [hlast, hlist.last_eq, hprevNode]
    rcases List.eq_nil_or_concat back with rfl | ⟨back', final, rfl⟩
    · simp
    · have hne : final ≠ node := by
        rintro rfl
        simp at hback
      have hend : (front ++ node :: back'.concat final).getLast? = some final := by
        rw [List.concat_eq_append, ← List.cons_append, ← List.append_assoc,
          List.getLast?_concat]
      have hend' : (front ++ back'.concat final).getLast? = some final := by
        rw [List.concat_eq_append, ← List.append_assoc, List.getLast?_concat]
      rw [hend, hend', if_neg (by simpa using hne)]
  · intro front' other back' hnodes
    have hmem : other ∈ front ++ back := by simp [hnodes]
    rw [hprev other hmem, hnext other hmem]
    rcases List.append_eq_append_iff.mp hnodes with
      ⟨middle, hleft, hright⟩ | ⟨middle, hleft, hright⟩
    · -- `other` stands in `back`
      subst hleft
      cases middle with
      | nil =>
          simp only [List.nil_append] at hright
          subst hright
          obtain ⟨hprevOther, hnextOther⟩ :=
            hlist.neighbours (front ++ [node]) other back' (by simp)
          have hne : front.getLast? ≠ some other := by
            intro hlast
            have hin := List.mem_of_getLast? hlast
            exact hsplit.2.2 other hin other (by simp) rfl
          simp [hnextNode, hprevNode, hne, hnextOther]
      | cons head middle =>
          subst hright
          obtain ⟨hprevOther, hnextOther⟩ :=
            hlist.neighbours (front ++ node :: head :: middle) other back' (by simp)
          have hne : front.getLast? ≠ some other := by
            intro hlast
            have hin := List.mem_of_getLast? hlast
            exact hsplit.2.2 other hin other (by simp) rfl
          have hne' : head ≠ other := by
            rintro rfl
            have hinner := (List.nodup_cons.mp hsplit.2.1).2
            simp at hinner
          rw [hprevOther, hnextOther, hnextNode, hprevNode]
          simp [hne, hne', List.getLast?_cons_cons, List.getLast?_append]
    · cases middle with
      | nil =>
          simp only [List.append_nil, List.nil_append] at hleft hright
          subst hleft hright
          obtain ⟨hprevOther, hnextOther⟩ :=
            hlist.neighbours (front ++ [node]) other back' (by simp)
          have hne : front.getLast? ≠ some other := by
            intro hlast
            have hin := List.mem_of_getLast? hlast
            exact hsplit.2.2 other hin other (by simp) rfl
          simp [hnextNode, hprevNode, hne, hnextOther]
      | cons head middle =>
          obtain ⟨rfl, rfl⟩ : other = head ∧ back' = middle ++ back := by simpa using hright
          subst hleft
          obtain ⟨hprevOther, hnextOther⟩ :=
            hlist.neighbours front' other (middle ++ node :: back) (by simp)
          have hne : back.head? ≠ some other := by
            intro hhead
            have hin := List.mem_of_head? hhead
            exact hsplit.2.2 other (by simp) other (by simp [hin]) rfl
          rw [hprevOther, hnextOther, hnextNode, hprevNode]
          cases middle with
          | nil => simp [hne]
          | cons second middle =>
              have hlast : (front' ++ other :: second :: middle).getLast? ≠ some other := by
                intro hlast
                have hlast' : (second :: middle).getLast? = some other := by
                  simpa [List.getLast?_append, List.getLast?_cons_cons] using hlast
                have hin := List.mem_of_getLast? hlast'
                have hfrontNodup := hsplit.1
                rw [List.nodup_append] at hfrontNodup
                exact (List.nodup_cons.mp hfrontNodup.2.1).1 hin
              rw [if_neg hne, if_neg hlast]
              simp

end DoublyLinked
