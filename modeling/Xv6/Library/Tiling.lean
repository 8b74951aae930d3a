import Mathlib.Algebra.GroupWithZero.Nat
import Mathlib.Algebra.Order.BigOperators.Group.List
import Mathlib.Algebra.Order.Group.Nat
import Mathlib.Data.List.Perm.Basic
import Mathlib.Tactic.Common

/-!
# Tilings of ranges of addresses

Spans tile some ranges if they do not overlap and have together the same addresses as the ranges. A span
may be cut in two or joined with the span right behind it, and a new range may be taken in.
-/

namespace Xv6.Library

open List

/-- The addresses from `start` on, `length` many. -/
structure Span where
  start : ℕ
  length : ℕ
deriving DecidableEq, Repr

namespace Span

/-- The first address behind a span. -/
def stop (t : Span) : ℕ := t.start + t.length

instance : Membership ℕ Span := ⟨fun t x => t.start ≤ x ∧ x < t.stop⟩

theorem mem_iff {t : Span} {x : ℕ} : x ∈ t ↔ t.start ≤ x ∧ x < t.start + t.length := Iff.rfl

/-- A span with addresses has its first one. -/
theorem start_mem {t : Span} (h : 0 < t.length) : t.start ∈ t := ⟨le_rfl, Nat.lt_add_of_pos_right h⟩

/-- No address is in both spans. -/
def Apart (t u : Span) : Prop := ∀ x, x ∈ t → x ∉ u

theorem Apart.symm {t u : Span} (h : Apart t u) : Apart u t := fun x hu ht => h x ht hu

instance : Std.Symm Apart := ⟨fun _ _ h => h.symm⟩

/-- Of two spans that do not overlap the one that starts first ends before the other one starts. -/
theorem Apart.stop_le {t u : Span} (h : Apart t u) (hlt : t.start ≤ u.start) (hpos : 0 < u.length) :
    t.stop ≤ u.start := by
  by_contra hgt
  exact h u.start ⟨hlt, not_le.1 hgt⟩ (start_mem hpos)

/-- Spans one of which ends before the other one starts do not overlap. -/
theorem apart_of_le {t u : Span} (h : t.stop ≤ u.start) : Apart t u :=
  fun _ ht hu => absurd (ht.2.trans_le (h.trans hu.1)) (lt_irrefl _)

/-- The number of addresses of the spans. -/
def total (spans : List Span) : ℕ := (spans.map length).sum

theorem total_cons (t : Span) (spans : List Span) : total (t :: spans) = t.length + total spans := by
  rw [total, map_cons, sum_cons, total]

theorem le_total {spans : List Span} {t : Span} (h : t ∈ spans) : t.length ≤ total spans :=
  le_sum_of_mem (mem_map_of_mem h)

end Span

/-- The tiles do not overlap and have together the addresses of the ranges. -/
structure Tiles (tiles ranges : List Span) : Prop where
  apart : tiles.Pairwise Span.Apart
  covers : ∀ x, (∃ t ∈ tiles, x ∈ t) ↔ ∃ r ∈ ranges, x ∈ r
  total : Span.total tiles = Span.total ranges

namespace Tiles

variable {tiles tiles' ranges : List Span} {t : Span}

/-- No range has no tiles. -/
theorem nil : Tiles [] [] where
  apart := .nil
  covers := fun _ => Iff.rfl
  total := rfl

/-- The tiles may be taken in any order. -/
theorem perm (h : Tiles tiles ranges) (hp : tiles.Perm tiles') : Tiles tiles' ranges where
  apart := (hp.pairwise_iff fun h => h.symm).1 h.apart
  covers := fun x => Iff.trans ⟨fun ⟨t, ht, hx⟩ => ⟨t, hp.mem_iff.2 ht, hx⟩,
    fun ⟨t, ht, hx⟩ => ⟨t, hp.mem_iff.1 ht, hx⟩⟩ (h.covers x)
  total := ((hp.map Span.length).sum_eq.symm).trans h.total

/-- A tile is not larger than the ranges. -/
theorem length_le (h : Tiles tiles ranges) (ht : t ∈ tiles) : t.length ≤ Span.total ranges :=
  h.total ▸ Span.le_total ht

/-- Two tiles, one right behind the other, and the one tile made of them. -/
theorem join_iff {a m n : ℕ} :
    Tiles (⟨a, m⟩ :: ⟨a + m, n⟩ :: tiles) ranges ↔ Tiles (⟨a, m + n⟩ :: tiles) ranges := by
  have hmem : ∀ x, x ∈ (⟨a, m + n⟩ : Span) ↔ x ∈ (⟨a, m⟩ : Span) ∨ x ∈ (⟨a + m, n⟩ : Span) := by
    intro x
    simp only [Span.mem_iff]
    omega
  have hcovers : ∀ x, (∃ t ∈ (⟨a, m⟩ : Span) :: ⟨a + m, n⟩ :: tiles, x ∈ t) ↔
      ∃ t ∈ (⟨a, m + n⟩ : Span) :: tiles, x ∈ t := by
    intro x
    simp only [exists_mem_cons_iff, hmem, or_assoc]
  have htotal : Span.total ((⟨a, m⟩ : Span) :: ⟨a + m, n⟩ :: tiles) =
      Span.total ((⟨a, m + n⟩ : Span) :: tiles) := by
    simp only [Span.total_cons, Nat.add_assoc]
  constructor
  · intro h
    obtain ⟨hleft, hrest⟩ := pairwise_cons.1 h.apart
    obtain ⟨hright, hrest⟩ := pairwise_cons.1 hrest
    refine ⟨pairwise_cons.2 ⟨?_, hrest⟩, fun x => (hcovers x).symm.trans (h.covers x), htotal.symm.trans h.total⟩
    intro u hu x hx
    cases (hmem x).1 hx with
    | inl hx => exact hleft u (mem_cons_of_mem _ hu) x hx
    | inr hx => exact hright u hu x hx
  · intro h
    obtain ⟨hboth, hrest⟩ := pairwise_cons.1 h.apart
    have hright : ∀ u ∈ tiles, Span.Apart ⟨a + m, n⟩ u := fun u hu x hx =>
      hboth u hu x ((hmem x).2 (.inr hx))
    have hleft : ∀ u ∈ (⟨a + m, n⟩ : Span) :: tiles, Span.Apart ⟨a, m⟩ u := by
      intro u hu
      cases mem_cons.1 hu with
      | inl heq =>
        rw [heq]
        exact Span.apart_of_le le_rfl
      | inr hu => exact fun x hx => hboth u hu x ((hmem x).2 (.inl hx))
    exact ⟨pairwise_cons.2 ⟨hleft, pairwise_cons.2 ⟨hright, hrest⟩⟩,
      fun x => (hcovers x).trans (h.covers x), htotal.trans h.total⟩

/-- A tile without addresses does not count. -/
theorem empty_iff {a : ℕ} : Tiles (⟨a, 0⟩ :: tiles) ranges ↔ Tiles tiles ranges := by
  have hnot : ∀ x, x ∉ (⟨a, 0⟩ : Span) := fun x hx => absurd (hx.1.trans_lt hx.2) (lt_irrefl _)
  have hcovers : ∀ x, (∃ t ∈ (⟨a, 0⟩ : Span) :: tiles, x ∈ t) ↔ ∃ t ∈ tiles, x ∈ t := by
    intro x
    simp only [exists_mem_cons_iff, hnot x, false_or]
  have htotal : Span.total ((⟨a, 0⟩ : Span) :: tiles) = Span.total tiles := by
    rw [Span.total_cons, Nat.zero_add]
  constructor
  · intro h
    exact ⟨(pairwise_cons.1 h.apart).2, fun x => (hcovers x).symm.trans (h.covers x), htotal.symm.trans h.total⟩
  · intro h
    exact ⟨pairwise_cons.2 ⟨fun u _ x hx => absurd hx (hnot x), h.apart⟩,
      fun x => (hcovers x).trans (h.covers x), htotal.trans h.total⟩

/-- A range behind all others becomes a tile. -/
theorem grow (h : Tiles tiles ranges) (habove : ∀ r ∈ ranges, r.stop ≤ t.start) :
    Tiles (t :: tiles) (t :: ranges) where
  apart := by
    refine pairwise_cons.2 ⟨?_, h.apart⟩
    intro u hu x hx hxu
    obtain ⟨r, hr, hxr⟩ := (h.covers x).1 ⟨u, hu, hxu⟩
    exact Span.apart_of_le (habove r hr) x hxr hx
  covers := by
    intro x
    simp only [exists_mem_cons_iff, h.covers x]
  total := by rw [Span.total_cons, Span.total_cons, h.total]

end Tiles
end Xv6.Library
