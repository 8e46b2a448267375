import Mathlib

/-!
# Chains of linked nodes

A singly linked list is a head together with a `next` function on nodes.  The
predicate `IsChain` says that following `next` from the head visits exactly the
nodes of a given list and ends in the terminator.  Inserting at the front and
unlinking a node change one link each; the lemmas say what that does to the
list.
-/

namespace LinkedChain

variable {Node : Type*}

/-- Following `next` from `head` visits `nodes` in order and ends in `stop`. -/
def IsChain (next : Node → Node) (stop : Node) : Node → List Node → Prop
  | head, [] => head = stop
  | head, node :: nodes =>
      head = node ∧ node ≠ stop ∧ IsChain next stop (next node) nodes

@[simp]
theorem isChain_nil (next : Node → Node) (stop head : Node) :
    IsChain next stop head [] ↔ head = stop := Iff.rfl

@[simp]
theorem isChain_cons (next : Node → Node) (stop head node : Node)
    (nodes : List Node) :
    IsChain next stop head (node :: nodes) ↔
      head = node ∧ node ≠ stop ∧ IsChain next stop (next node) nodes := Iff.rfl

/-- The list visited from a head is determined by the links. -/
theorem isChain_unique {next : Node → Node} {stop head : Node}
    {left right : List Node} (hleft : IsChain next stop head left)
    (hright : IsChain next stop head right) : left = right := by
  induction left generalizing head right with
  | nil =>
      cases right with
      | nil => rfl
      | cons node nodes =>
          obtain ⟨hhead, hstop, -⟩ := hright
          exact absurd (hhead.symm.trans hleft) hstop
  | cons node nodes ih =>
      obtain ⟨hhead, hstop, hrest⟩ := hleft
      cases right with
      | nil => exact absurd (hhead.symm.trans hright) hstop
      | cons other others =>
          obtain ⟨hother, -, hothers⟩ := hright
          obtain rfl : node = other := hhead.symm.trans hother
          rw [ih hrest hothers]

/-- Only the links of the visited nodes matter. -/
theorem isChain_congr {next next' : Node → Node} {stop head : Node}
    {nodes : List Node} (hsame : ∀ node ∈ nodes, next' node = next node)
    (hchain : IsChain next stop head nodes) : IsChain next' stop head nodes := by
  induction nodes generalizing head with
  | nil => exact hchain
  | cons node nodes ih =>
      obtain ⟨hhead, hstop, hrest⟩ := hchain
      refine ⟨hhead, hstop, ?_⟩
      rw [hsame node (by simp)]
      exact ih (fun other hother => hsame other (by simp [hother])) hrest

theorem isChain_head_eq_stop_iff {next : Node → Node} {stop head : Node}
    {nodes : List Node} (hchain : IsChain next stop head nodes) :
    head = stop ↔ nodes = [] := by
  cases nodes with
  | nil => simpa using hchain
  | cons node nodes =>
      obtain ⟨rfl, hstop, -⟩ := hchain
      simp [hstop]

/-- Pushing a node in front of a chain sets that node's link only. -/
theorem isChain_push {next next' : Node → Node} {stop head node : Node}
    {nodes : List Node} (hchain : IsChain next stop head nodes)
    (hnode : node ≠ stop) (hlink : next' node = head)
    (hsame : ∀ other ∈ nodes, next' other = next other) :
    IsChain next' stop node (node :: nodes) := by
  refine ⟨rfl, hnode, ?_⟩
  rw [hlink]
  exact isChain_congr hsame hchain

/-- Unlinking the node after `last` makes `last` point past it. -/
theorem isChain_unlink {next next' : Node → Node} {stop head last node : Node}
    {front back : List Node}
    (hchain : IsChain next stop head (front ++ last :: node :: back))
    (hnodup : (front ++ last :: node :: back).Nodup)
    (hlink : next' last = next node)
    (hsame : ∀ other ∈ front ++ node :: back, next' other = next other) :
    IsChain next' stop head (front ++ last :: back) := by
  induction front generalizing head with
  | nil =>
      obtain ⟨hhead, hstop, -, -, hback⟩ := hchain
      refine ⟨hhead, hstop, ?_⟩
      rw [hlink]
      exact isChain_congr (fun other hother => hsame other (by simp [hother])) hback
  | cons first front ih =>
      obtain ⟨hhead, hstop, hrest⟩ := hchain
      refine ⟨hhead, hstop, ?_⟩
      rw [hsame first (by simp)]
      exact ih hrest (List.Nodup.of_cons hnodup)
        (fun other hother => hsame other (by simp_all))

end LinkedChain
