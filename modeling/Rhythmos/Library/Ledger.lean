import Mathlib

/-!
# Ledgers of taken and returned resources

A ledger records, newest entry first, which resources were taken and which were
returned.  It is linear when a resource is only taken while it is not
outstanding and only returned while it is; in a linear ledger no taking is ever
returned twice.
-/

namespace Ledger

variable {Resource : Type*}

inductive Entry (Resource : Type*) where
  | taken (resource : Resource)
  | returned (resource : Resource)
  deriving DecidableEq

/-- The resource was taken and not returned since. -/
def Outstanding : List (Entry Resource) → Resource → Prop
  | [], _ => False
  | .taken resource :: ledger, other => other = resource ∨ Outstanding ledger other
  | .returned resource :: ledger, other => other ≠ resource ∧ Outstanding ledger other

/-- Takings and returns of every resource alternate. -/
def Linear : List (Entry Resource) → Prop
  | [] => True
  | .taken resource :: ledger => ¬ Outstanding ledger resource ∧ Linear ledger
  | .returned resource :: ledger => Outstanding ledger resource ∧ Linear ledger

@[simp]
theorem not_outstanding_nil (resource : Resource) : ¬ Outstanding [] resource := id

@[simp]
theorem outstanding_taken (resource other : Resource) (ledger : List (Entry Resource)) :
    Outstanding (.taken resource :: ledger) other ↔
      other = resource ∨ Outstanding ledger other := Iff.rfl

@[simp]
theorem outstanding_returned (resource other : Resource) (ledger : List (Entry Resource)) :
    Outstanding (.returned resource :: ledger) other ↔
      other ≠ resource ∧ Outstanding ledger other := Iff.rfl

@[simp]
theorem linear_nil : Linear ([] : List (Entry Resource)) := trivial

@[simp]
theorem linear_taken (resource : Resource) (ledger : List (Entry Resource)) :
    Linear (.taken resource :: ledger) ↔
      ¬ Outstanding ledger resource ∧ Linear ledger := Iff.rfl

@[simp]
theorem linear_returned (resource : Resource) (ledger : List (Entry Resource)) :
    Linear (.returned resource :: ledger) ↔
      Outstanding ledger resource ∧ Linear ledger := Iff.rfl

end Ledger
