import Mathlib.Algebra.BigOperators.Group.Finset.Basic
import Mathlib.Algebra.Order.BigOperators.Group.Finset
import Mathlib.Data.Fintype.BigOperators
import Mathlib.Data.List.Count
import Mathlib.Tactic.Abel

/-!
# Counted references

Holders hold references to resources, each a list of them. The books are balanced when the count that is
kept for every resource is the number of references that are held to it.
-/

namespace Xv6.Library

open Finset Function

variable {H R : Type*} [Fintype H]

/-- A sum over all holders, after one of them changed. -/
theorem sum_update_add {X M : Type*} [DecidableEq H] [AddCommMonoid M] (f : X → M) (g : H → X) (i : H) (x : X) :
    ∑ j, f (update g i x j) + f (g i) = ∑ j, f (g j) + f x := by
  have hrest : ∑ j ∈ univ.erase i, f (update g i x j) = ∑ j ∈ univ.erase i, f (g j) :=
    sum_congr rfl fun j hj => by rw [update_of_ne (ne_of_mem_erase hj)]
  rw [← add_sum_erase _ _ (mem_univ i), hrest, ← add_sum_erase univ (fun j => f (g j)) (mem_univ i), update_self]
  abel

variable [DecidableEq R]

/-- The count of every resource is the number of references to it. -/
def Balanced (hold : H → List R) (count : R → ℕ) : Prop :=
  ∀ r, ∑ i, (hold i).count r = count r

namespace Balanced

variable {hold hold' : H → List R} {count count' : R → ℕ} {i j : H} {r : R}

/-- A holder has at most as many references as are counted. -/
theorem count_le (h : Balanced hold count) (i : H) (r : R) : (hold i).count r ≤ count r := by
  rw [← h r]
  exact single_le_sum (f := fun i => (hold i).count r) (fun _ _ => Nat.zero_le _) (mem_univ i)

/-- What is held is counted. -/
theorem pos (h : Balanced hold count) (hr : r ∈ hold i) : 0 < count r :=
  lt_of_lt_of_le (List.count_pos_iff.2 hr) (h.count_le i r)

variable [DecidableEq H]

section

variable (h : Balanced hold count)

include h

/-- Two holders together have at most as many references as are counted. -/
theorem count_add_le (hne : i ≠ j) (r : R) : (hold i).count r + (hold j).count r ≤ count r := by
  rw [← h r, ← sum_pair (f := fun i => (hold i).count r) hne]
  exact sum_le_sum_of_subset (subset_univ _)

/-- A resource that is counted once has one holder. -/
theorem unique (hone : count r ≤ 1) (hi : r ∈ hold i) (hj : r ∈ hold j) : i = j := by
  by_contra hne
  have hle := h.count_add_le hne r
  have hposi := List.count_pos_iff.2 hi
  have hposj := List.count_pos_iff.2 hj
  omega

/-- One holder gets or gives up references, and the counts follow. -/
theorem trade (i : H) (hsame : ∀ j, j ≠ i → hold' j = hold j)
    (hcount : ∀ r, (hold' i).count r + count r = (hold i).count r + count' r) : Balanced hold' count' := by
  intro r
  have hrest : ∑ j ∈ univ.erase i, (hold' j).count r = ∑ j ∈ univ.erase i, (hold j).count r := by
    apply sum_congr rfl
    intro j hj
    rw [hsame j (ne_of_mem_erase hj)]
  have hsum := add_sum_erase univ (fun j => (hold j).count r) (mem_univ i)
  have hsum' := add_sum_erase univ (fun j => (hold' j).count r) (mem_univ i)
  have hbalance := h r
  have hcount := hcount r
  omega

/-- Two holders get, give up or exchange references, and the counts follow. -/
theorem exchange (hne : i ≠ j)
    (hsame : ∀ k, k ≠ i → k ≠ j → hold' k = hold k)
    (hcount : ∀ r, (hold' i).count r + (hold' j).count r + count r =
      (hold i).count r + (hold j).count r + count' r) : Balanced hold' count' := by
  -- The first holder goes first, as if it had traded with the count.
  have hle : ∀ r, (hold i).count r ≤ (hold' i).count r + count r := fun r =>
    le_trans (h.count_le i r) (Nat.le_add_left ..)
  have hfirst : Balanced (update hold i (hold' i))
      fun r => (hold' i).count r + count r - (hold i).count r := by
    refine h.trade i (fun k hk => update_of_ne hk ..) fun r => ?_
    rw [update_self]
    have := hle r
    omega
  refine hfirst.trade j (fun k hk => ?_) fun r => ?_
  · by_cases hki : k = i
    · rw [hki, update_self]
    · rw [update_of_ne hki, hsame k hki hk]
  · rw [update_of_ne hne.symm]
    have := hle r
    have := hcount r
    omega

end

end Balanced

end Xv6.Library
