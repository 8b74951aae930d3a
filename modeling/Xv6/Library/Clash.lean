import Mathlib.Tactic.Common

/-!
# Values that exclude one another

What two different values of one expression, or of one function at two arguments, say.
-/

namespace Xv6.Library

variable {α β : Type*}

/-- An option is not empty if it has a value. -/
theorem none_elim {o : Option α} {a : α} {p : Prop} (hnone : o = none) (hsome : o = some a) : p := by
  rw [hnone] at hsome
  cases hsome

/-- A function has different values at different arguments only. -/
theorem ne_of_values {f : α → β} {a b : α} {u v : β} (ha : f a = u) (hb : f b = v) (hne : u ≠ v) : a ≠ b := by
  rintro rfl
  exact hne (ha.symm.trans hb)

end Xv6.Library
