import Mathlib.Data.List.Nodup
import Mathlib.Logic.Function.Basic
import Mathlib.Tactic.Common

/-!
# Chains and circles of pointers

A function `next` links nodes. A list of nodes is a chain up to `stop` if each of them points to the one
after it and the last one to `stop`; it is a circle if it is a chain up to its first node. A search that
follows the links of a circle finds the node it looks for, wherever it starts.
-/

namespace Xv6.Library

open Function List

variable {α : Type*} {next next' : α → α}

/-- Each node points to the one after it, the last one to `stop`. -/
def Chain (next : α → α) : List α → α → Prop
  | [], _ => True
  | a :: l, stop => next a = l.headD stop ∧ Chain next l stop

theorem headD_append (l m : List α) (a : α) : (l ++ m).headD a = l.headD (m.headD a) := by
  cases l with
  | nil => rfl
  | cons b l => rfl

/-- A chain is a chain up to any of its nodes, and one from there on. -/
theorem chain_append {l m : List α} {stop : α} :
    Chain next (l ++ m) stop ↔ Chain next l (m.headD stop) ∧ Chain next m stop := by
  induction l with
  | nil => simp only [nil_append, Chain, true_and]
  | cons a l ih => simp only [cons_append, Chain, headD_append, ih, and_assoc]

/-- What a node of a chain points to. -/
theorem Chain.next_eq {l m : List α} {a stop : α} (h : Chain next (l ++ a :: m) stop) : next a = m.headD stop :=
  (chain_append.1 h).2.1

/-- A chain depends on the links of its nodes only. -/
theorem Chain.congr {l : List α} {stop : α} (h : Chain next l stop)
    (heq : ∀ a ∈ l, next' a = next a) : Chain next' l stop := by
  induction l with
  | nil => exact trivial
  | cons a l ih =>
    have hrest : ∀ b ∈ l, next' b = next b := fun b hb => heq b (mem_cons_of_mem a hb)
    exact ⟨(heq a mem_cons_self).trans h.1, ih h.2 hrest⟩

variable {p : α}

/-- A circle may be read from any of its nodes on. -/
theorem Chain.rotate {l : List α} {a : α} (h : Chain next (a :: l) a) (hp : p ∈ a :: l) :
    ∃ l', Chain next (p :: l') p ∧ (p :: l').Perm (a :: l) := by
  obtain ⟨m, n, hsplit⟩ := append_of_mem hp
  rw [hsplit] at h ⊢
  obtain ⟨hleft, hright⟩ := chain_append.1 h
  refine ⟨n ++ m, ?_, (perm_append_comm : (p :: n ++ m).Perm _)⟩
  cases m with
  | nil =>
    have hpa : a = p := (List.cons.inj hsplit).1
    rw [append_nil]
    exact hpa ▸ hright
  | cons c m =>
    have hca : a = c := (List.cons.inj hsplit).1
    rw [hca] at hright
    exact chain_append.2 ⟨hright, hleft⟩

/-- Follow the links to the first node where the search stops, in at most `fuel` steps. -/
def seek (stop : α → Bool) (next : α → α) : ℕ → α → Option α
  | 0, _ => none
  | fuel + 1, a => if stop a then some a else seek stop next fuel (next a)

variable {fuel : ℕ}

/-- A search along a chain finds the only node of it where it can stop. -/
theorem Chain.seek_eq {stop : α → Bool} {l : List α} {a q e : α} (h : Chain next (a :: l) e) (hq : q ∈ a :: l)
    (hstop : ∀ x ∈ a :: l, stop x = true ↔ x = q) (hfuel : l.length < fuel) : seek stop next fuel a = some q := by
  induction l generalizing a fuel with
  | nil =>
    obtain ⟨fuel, rfl⟩ : ∃ n, fuel = n + 1 := ⟨fuel - 1, by omega⟩
    have hqa : q = a := mem_singleton.1 hq
    rw [seek, if_pos ((hstop a mem_cons_self).2 hqa.symm), hqa]
  | cons b l ih =>
    obtain ⟨fuel, rfl⟩ : ∃ n, fuel = n + 1 := ⟨fuel - 1, by omega⟩
    rw [seek]
    by_cases hqa : a = q
    · rw [if_pos ((hstop a mem_cons_self).2 hqa), hqa]
    · rw [if_neg (fun hs => hqa ((hstop a mem_cons_self).1 hs)), h.1]
      have hmem : q ∈ b :: l := (mem_cons.1 hq).resolve_left (fun h => hqa h.symm)
      have hfuel' : l.length < fuel := by
        rw [length_cons] at hfuel
        omega
      exact ih h.2 hmem (fun x hx => hstop x (mem_cons_of_mem a hx)) hfuel'

/-- A search along a circle finds the only node of it where it can stop, from wherever it starts. -/
theorem Chain.seek_circle {stop : α → Bool} {l : List α} {a q : α} (h : Chain next (a :: l) a)
    (hp : p ∈ a :: l) (hq : q ∈ a :: l) (hstop : ∀ x ∈ a :: l, stop x = true ↔ x = q)
    (hfuel : l.length < fuel) : seek stop next fuel p = some q := by
  obtain ⟨l', hrot, hperm⟩ := h.rotate hp
  have hlen : l'.length = l.length := Nat.succ.inj hperm.length_eq
  exact hrot.seek_eq (hperm.mem_iff.2 hq) (fun x hx => hstop x (hperm.mem_iff.1 hx)) (hlen ▸ hfuel)

/-- The part of a chain behind a node is replaced, and the links of the nodes around it stay. -/
theorem Chain.splice {l m m' r : List α} {stop : α} (h : Chain next (l ++ (p :: m ++ r)) stop)
    (hpart : Chain next' (p :: m') (r.headD stop)) (heq : ∀ a ∈ l ++ r, next' a = next a) :
    Chain next' (l ++ (p :: m' ++ r)) stop := by
  obtain ⟨hleft, hright⟩ := chain_append.1 h
  obtain ⟨-, htail⟩ := chain_append.1 hright
  have hleft' := hleft.congr fun a ha => heq a (mem_append_left r ha)
  have htail' := htail.congr fun a ha => heq a (mem_append_right l ha)
  exact chain_append.2 ⟨hleft', chain_append.2 ⟨hpart, htail'⟩⟩

/-- A search along a chain finds its first node where it can stop, and else stops behind it. -/
theorem Chain.seek_find {stop : α → Bool} {l : List α} {e : α} (h : Chain next l e) (he : stop e = true)
    (hfuel : l.length < fuel) : seek stop next fuel (l.headD e) = some ((l.find? stop).getD e) := by
  obtain ⟨fuel, rfl⟩ : ∃ n, fuel = n + 1 := ⟨fuel - 1, by omega⟩
  induction l generalizing fuel with
  | nil => simp [seek, he]
  | cons a l ih =>
    obtain ⟨fuel, rfl⟩ : ∃ n, fuel = n + 1 := ⟨fuel - 1, by rw [length_cons] at hfuel; omega⟩
    rw [headD_cons, seek, h.1, List.find?_cons]
    cases stop a with
    | true => rfl
    | false => exact ih h.2 fuel (Nat.lt_of_succ_lt_succ hfuel)

section Edits

variable [DecidableEq α] {l r : List α} {a b stop : α}

omit [DecidableEq α] in
/-- The node in front of the second part of a list. -/
theorem exists_concat (h : (a :: (l ++ r)).Nodup) :
    ∃ front, a :: l = front ++ [l.reverse.headD a] ∧ l.reverse.headD a ∉ front ++ r := by
  obtain ⟨front, hfront⟩ : ∃ front, a :: l = front ++ [l.reverse.headD a] := by
    obtain rfl | ⟨m, b, rfl⟩ := eq_nil_or_concat l
    · exact ⟨[], rfl⟩
    · exact ⟨a :: m, by simp⟩
  rw [← cons_append, hfront, append_assoc] at h
  exact ⟨front, hfront, (nodup_cons.1 (nodup_middle.1 h)).1⟩

/-- A node is put into a chain behind its first node. -/
theorem Chain.insert (h : Chain next (a :: (l ++ r)) stop) (hnodup : (a :: (l ++ r)).Nodup)
    (hb : b ∉ a :: (l ++ r)) :
    Chain (update (update next b (r.headD stop)) (l.reverse.headD a) b) (a :: (l ++ b :: r)) stop := by
  obtain ⟨front, hfront, hlast⟩ := exists_concat hnodup
  rw [← cons_append, hfront, append_assoc] at h hb ⊢
  generalize l.reverse.headD a = p at *
  have hbp : b ≠ p := fun heq => hb (heq ▸ mem_append_right front mem_cons_self)
  have hpart : Chain (update (update next b (r.headD stop)) p b) (p :: [b]) (r.headD stop) :=
    ⟨update_self .., by rw [update_of_ne hbp, update_self]; rfl, trivial⟩
  change Chain _ (front ++ (p :: [b] ++ r)) stop
  refine Chain.splice (m := []) h hpart fun x hx => ?_
  have hxp : x ≠ p := fun heq => hlast (heq ▸ hx)
  have hxb : x ≠ b := by
    rintro rfl
    simp_all
  rw [update_of_ne hxp, update_of_ne hxb]

/-- A node is taken out of a chain behind its first node. -/
theorem Chain.remove (h : Chain next (a :: (l ++ b :: r)) stop) (hnodup : (a :: (l ++ r)).Nodup) :
    Chain (update next (l.reverse.headD a) (r.headD stop)) (a :: (l ++ r)) stop := by
  obtain ⟨front, hfront, hlast⟩ := exists_concat hnodup
  rw [← cons_append, hfront, append_assoc] at h ⊢
  generalize l.reverse.headD a = p at *
  have hpart : Chain (update next p (r.headD stop)) [p] (r.headD stop) := ⟨update_self .., trivial⟩
  refine Chain.splice (m := [b]) h hpart fun x hx => ?_
  have hxp : x ≠ p := fun heq => hlast (heq ▸ hx)
  rw [update_of_ne hxp]

end Edits

end Xv6.Library
