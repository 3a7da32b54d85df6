import Mathlib.Algebra.Order.BigOperators.Group.Finset

/-! One place of a function changed. Unlike the dependent update it casts nothing, so
a state changed many times is still quick to compute with. -/

namespace Myfuse.Library
variable {α β : Type} [DecidableEq α]

def assign (f : α → β) (key : α) (value : β) : α → β := fun other => if other = key then value else f other

theorem assign_apply (f : α → β) (key : α) (value : β) (other : α) :
    assign f key value other = if other = key then value else f other := rfl

@[simp] theorem assign_self (key : α) (value : β) (f : α → β) : assign f key value key = value := if_pos rfl

@[simp] theorem assign_of_ne {other key : α} (apart : other ≠ key) (value : β) (f : α → β) : assign f key value other = f other :=
  if_neg apart

@[simp] theorem assign_eq_self (key : α) (f : α → β) : assign f key (f key) = f := by
  funext other
  by_cases same : other = key
  · rw [same, assign_self]
  · rw [assign_of_ne same]

theorem assign_twice (f : α → β) (key : α) (first second : β) : assign (assign f key first) key second = assign f key second := by
  funext other
  unfold assign
  split <;> rfl

end Myfuse.Library
