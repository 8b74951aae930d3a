import Mathlib.Data.Nat.Notation
import Mathlib.Data.List.Basic

/-!
# The invariant rule for counted loops

A loop `for (i = 0; i < n; i++)` whose body is a state transformer is the left fold of the body
over `List.range n`. Its rule asks for a predicate of the index and the state that holds at the
start and that each iteration carries from one index to the next.
-/

namespace Xv6.Library

variable {S : Type*}

/-- The invariant rule for a counted loop. -/
theorem foldl_range_invariant (body : S → ℕ → S) (inv : ℕ → S → Prop) (n : ℕ) (s : S) (hinit : inv 0 s)
    (hstep : ∀ i < n, ∀ s, inv i s → inv (i + 1) (body s i)) : inv n ((List.range n).foldl body s) := by
  induction n with
  | zero => exact hinit
  | succ n ih =>
    rw [List.range_succ, List.foldl_append]
    exact hstep n (Nat.lt_succ_self n) _ (ih fun i hi => hstep i (Nat.lt_succ_of_lt hi))

end Xv6.Library
