import Mathlib.Data.List.Induction
import Mathlib.Data.Set.Basic
import Mathlib.Logic.Function.Basic
import Xv6.Library.Clash

/-!
# Trees of nodes linked by pointers

A store of nodes is given by the partial function from a node and an index to the node that the
link there points to. Following a list of indices from a root reaches a node. A tree of depth `d` is
unshared when each of its inner nodes, those at most `d` links below the root, is reached along one
path only and is not one of the nodes hanging below the tree. Writing one link of an unshared tree
then affects exactly the paths through that link.
-/

namespace Xv6.Library

open List

variable {N I : Type*}

/-- The node reached from `n` along a list of indices. -/
def follow (child : N → I → Option N) (n : N) : List I → Option N
  | [] => some n
  | i :: path => (child n i).bind fun m => follow child m path

section

variable (child : N → I → Option N)

include child

@[simp] theorem follow_nil (n : N) : follow child n [] = some n := rfl

@[simp] theorem follow_cons (n : N) (i : I) (path : List I) :
    follow child n (i :: path) = (child n i).bind fun m => follow child m path := rfl

/-- A path is followed piece by piece. -/
theorem follow_append (n : N) (p q : List I) :
    follow child n (p ++ q) = (follow child n p).bind fun m => follow child m q := by
  induction p generalizing n with
  | nil => rfl
  | cons i p ih =>
    rw [cons_append, follow_cons, follow_cons, Option.bind_assoc]
    apply congrArg (Option.bind (child n i))
    funext m
    exact ih m

/-- The last step of a path. -/
theorem follow_concat (n : N) (p : List I) (i : I) :
    follow child n (p ++ [i]) = (follow child n p).bind fun m => child m i := by
  rw [follow_append]
  apply congrArg (Option.bind (follow child n p))
  funext m
  simp

/-- The nodes at most `d` links below the root. -/
def reach (child : N → I → Option N) (d : ℕ) (root : N) : Set N :=
  {n | ∃ path, path.length ≤ d ∧ follow child root path = some n}

/-- The root belongs to its own tree. -/
theorem root_mem_reach (d : ℕ) (root : N) : root ∈ reach child d root := ⟨[], Nat.zero_le d, rfl⟩

/-- A deeper search reaches more nodes. -/
theorem reach_mono {d e : ℕ} (h : d ≤ e) (root : N) : reach child d root ⊆ reach child e root := by
  rintro n ⟨path, hlen, hn⟩
  exact ⟨path, hlen.trans h, hn⟩

end

variable {child' : N → I → Option N}

/-- Two stores which agree on the inner nodes of a tree have the same paths through it. -/
theorem follow_congr {child : N → I → Option N} {d : ℕ} {root : N}
    (h : ∀ n ∈ reach child d root, ∀ i, child' n i = child n i) (path : List I)
    (hlen : path.length ≤ d + 1) : follow child' root path = follow child root path := by
  induction path using List.reverseRecOn with
  | nil => rfl
  | append_singleton p i ih =>
    rw [length_append, length_singleton] at hlen
    rw [follow_concat, follow_concat, ih (by omega)]
    cases hn : follow child root p with
    | none => rfl
    | some n => exact h n ⟨p, by omega, hn⟩ i

/-- Each inner node of the tree of depth `d` is reached along one path only, and no link that leaves
the tree leads back into it. -/
def Unshared (child : N → I → Option N) (d : ℕ) (root : N) : Prop :=
  ∀ p q n, p.length ≤ d → q.length ≤ d + 1 → follow child root p = some n →
    follow child root q = some n → p = q

/-- Agreement on the inner nodes carries unsharedness over. -/
theorem Unshared.congr {child : N → I → Option N} {d : ℕ} {root : N} (hu : Unshared child d root)
    (h : ∀ n ∈ reach child d root, ∀ i, child' n i = child n i) : Unshared child' d root := by
  intro p q n hp hq hpn hqn
  rw [follow_congr h p (by omega)] at hpn
  rw [follow_congr h q hq] at hqn
  exact hu p q n hp hq hpn hqn

variable {m : N}

section Subtree

variable {child : N → I → Option N} {d : ℕ} {root n : N} {i : I}

/-- The nodes of a tree are its root and the nodes of the trees below. -/
theorem mem_reach_succ {x : N} :
    x ∈ reach child (d + 1) root ↔
      x = root ∨ ∃ i n, child root i = some n ∧ x ∈ reach child d n := by
  constructor
  · rintro ⟨path, hlen, hx⟩
    cases path with
    | nil => exact .inl (Option.some.inj hx).symm
    | cons i path =>
      rw [follow_cons] at hx
      obtain ⟨n, hn, hx'⟩ := Option.bind_eq_some_iff.1 hx
      exact .inr ⟨i, n, hn, path, by simpa using hlen, hx'⟩
  · rintro (rfl | ⟨i, n, hn, path, hlen, hx⟩)
    · exact root_mem_reach child _ x
    · exact ⟨i :: path, by simpa using hlen, by rw [follow_cons, hn]; exact hx⟩

section

variable (hu : Unshared child (d + 1) root) (hn : child root i = some n)

include hu hn

/-- The trees below an unshared one are unshared. -/
theorem Unshared.subtree : Unshared child d n := by
  intro p q x hp hq hpx hqx
  have heq := hu (i :: p) (i :: q) x (by simpa using hp) (by simpa using hq)
    (by rw [follow_cons, hn]; exact hpx) (by rw [follow_cons, hn]; exact hqx)
  exact (List.cons.inj heq).2

/-- The root of an unshared tree is not a node of a tree below it. -/
theorem Unshared.root_not_mem : root ∉ reach child d n := by
  rintro ⟨path, hlen, hx⟩
  have heq := hu [] (i :: path) root (by simp) (by simp; omega) rfl (by rw [follow_cons, hn]; exact hx)
  cases heq

/-- The trees below different links of an unshared tree have no node in common. -/
theorem Unshared.disjoint {j : I} {x : N} (hm : child root j = some m) (hxn : x ∈ reach child d n)
    (hxm : x ∈ reach child d m) : i = j := by
  obtain ⟨p, hp, hpx⟩ := hxn
  obtain ⟨q, hq, hqx⟩ := hxm
  have heq := hu (i :: p) (j :: q) x (by simpa using hp) (by simp; omega)
    (by rw [follow_cons, hn]; exact hpx) (by rw [follow_cons, hm]; exact hqx)
  exact (List.cons.inj heq).1

end

/-- Two stores which agree on the inner nodes of a tree have the same nodes there. -/
theorem reach_congr (h : ∀ n ∈ reach child d root, ∀ i, child' n i = child n i) :
    reach child' d root = reach child d root := by
  ext x
  constructor
  · rintro ⟨path, hlen, hx⟩
    exact ⟨path, hlen, follow_congr h path (by omega) ▸ hx⟩
  · rintro ⟨path, hlen, hx⟩
    exact ⟨path, hlen, (follow_congr h path (by omega)).trans hx⟩

end Subtree

section SetLink

variable [DecidableEq N] [DecidableEq I]

/-- The store after the link at index `i` of node `n` has been overwritten. -/
def setLink (child : N → I → Option N) (n : N) (i : I) (v : Option N) : N → I → Option N :=
  fun m j => if m = n ∧ j = i then v else child m j

@[simp] theorem setLink_same (child : N → I → Option N) (n : N) (i : I) (v : Option N) :
    setLink child n i v n i = v := by
  simp [setLink]

theorem setLink_of_ne_node (child : N → I → Option N) {n : N} (h : m ≠ n) (i j : I)
    (v : Option N) : setLink child n i v m j = child m j := by
  simp [setLink, h]

variable {child : N → I → Option N} {d : ℕ} {root n : N} {p : List I} {i : I} {v : Option N}

section

variable (hu : Unshared child d root)

include hu

/-- A path that does not use the overwritten link leads where it led before. -/
theorem follow_setLink_elsewhere (hp : p.length ≤ d) (hn : follow child root p = some n) (q : List I)
    (hq : q.length ≤ d + 1) (hnot : ¬ (p ++ [i]) <+: q) :
    follow (setLink child n i v) root q = follow child root q := by
  induction q using List.reverseRecOn with
  | nil => rfl
  | append_singleton r j ih =>
    rw [length_append, length_singleton] at hq
    have hr : ¬ (p ++ [i]) <+: r := fun h => hnot (h.trans (prefix_append r [j]))
    rw [follow_concat, follow_concat, ih (by omega) hr]
    cases hm : follow child root r with
    | none => rfl
    | some m =>
      change setLink child n i v m j = child m j
      -- only the path `p` leads to `n`, so the last step uses another link
      rw [setLink, if_neg]
      rintro ⟨rfl, rfl⟩
      have hpr : p = r := hu p r m hp (by omega) hn hm
      exact hnot (hpr ▸ prefix_refl (p ++ [j]))

/-- The overwritten link leads to its new target. -/
theorem follow_setLink_self (hp : p.length ≤ d) (hn : follow child root p = some n) :
    follow (setLink child n i v) root (p ++ [i]) = v := by
  have hnot : ¬ (p ++ [i]) <+: p := by
    intro h
    have hle := h.length_le
    rw [length_append, length_singleton] at hle
    omega
  rw [follow_concat, follow_setLink_elsewhere hu hp hn p (by omega) hnot, hn]
  exact setLink_same child n i v

/-- Overwriting a link that leaves the tree keeps it unshared, if it does not lead back into it. -/
theorem Unshared.setLink_bottom (hp : p.length = d) (hn : follow child root p = some n)
    (hv : ∀ m, v = some m → m ∉ reach child d root) : Unshared (setLink child n i v) d root := by
  intro q r m hq hr hqm hrm
  have hq' : ¬ (p ++ [i]) <+: q := by
    intro h
    have hle := h.length_le
    rw [length_append, length_singleton] at hle
    omega
  rw [follow_setLink_elsewhere hu hp.le hn q (by omega) hq'] at hqm
  by_cases hr' : (p ++ [i]) <+: r
  · have hlen : r.length ≤ (p ++ [i]).length := by
      rw [length_append, length_singleton]
      omega
    have heq : p ++ [i] = r := hr'.eq_of_length_le hlen
    rw [← heq, follow_setLink_self hu hp.le hn] at hrm
    exact absurd ⟨q, hq, hqm⟩ (hv m hrm)
  · rw [follow_setLink_elsewhere hu hp.le hn r hr hr'] at hrm
    exact hu q r m hq hr hqm hrm

/-- A path through a freshly linked empty node ends at that node. -/
theorem follow_graft (hp : p.length ≤ d) (hn : follow child root p = some n) (hmn : m ≠ n)
    (hm : ∀ j, child m j = none) (q : List I) :
    follow (setLink child n i (some m)) root (p ++ [i] ++ q) = if q = [] then some m else none := by
  rw [follow_append, follow_setLink_self hu hp hn]
  cases q with
  | nil => rfl
  | cons j q =>
    change (setLink child n i (some m) m j).bind _ = none
    rw [setLink_of_ne_node child hmn, hm]
    rfl

/-- Linking a fresh empty node keeps the tree unshared. -/
theorem Unshared.graft (hp : p.length < d) (hn : follow child root p = some n) (hm : ∀ j, child m j = none)
    (hfresh : m ∉ reach child (d + 1) root) : Unshared (setLink child n i (some m)) d root := by
  have hmn : m ≠ n := by
    rintro rfl
    exact hfresh ⟨p, by omega, hn⟩
  -- a path either avoids the new link, or it is the path to the new node
  have hcases : ∀ q x, q.length ≤ d + 1 → follow (setLink child n i (some m)) root q = some x →
      (follow child root q = some x ∧ x ≠ m) ∨ (q = p ++ [i] ∧ x = m) := by
    intro q x hq hx
    by_cases hpre : (p ++ [i]) <+: q
    · obtain ⟨t, rfl⟩ := hpre
      rw [follow_graft hu hp.le hn hmn hm] at hx
      split_ifs at hx with ht
      · exact .inr ⟨by rw [ht, append_nil], (Option.some.inj hx).symm⟩
    · rw [follow_setLink_elsewhere hu hp.le hn q hq hpre] at hx
      refine .inl ⟨hx, ?_⟩
      rintro rfl
      exact hfresh ⟨q, hq, hx⟩
  intro q r x hq hr hqx hrx
  rcases hcases q x (by omega) hqx with ⟨hq', hne⟩ | ⟨rfl, rfl⟩
  · rcases hcases r x hr hrx with ⟨hr', -⟩ | ⟨-, rfl⟩
    · exact hu q r x hq hr hq' hr'
    · exact absurd rfl hne
  · rcases hcases r x hr hrx with ⟨-, hne⟩ | ⟨rfl, -⟩
    · exact absurd rfl hne
    · rfl

end

end SetLink

end Xv6.Library
