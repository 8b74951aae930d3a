import Mathlib.Data.List.Basic
import Mathlib.Logic.Function.Basic

/-!
# Allotment of items to holders

Items from a common stock are handed out to holders, several to each of them. They are allotted if each item in
use is with one holder, and only such items are with a holder. An item is found with its holder and can be
changed there without the others noticing it.
-/

namespace Xv6.Library

open Function

variable {P ι : Type*}

/-- Each item in use is with one holder, and only items in use are with one. -/
structure Allotted (held : P → List ι) (used : ι → Prop) : Prop where
  nodup : ∀ p, (held p).Nodup
  inUse : ∀ p, ∀ i ∈ held p, used i
  apart : ∀ p q i, i ∈ held p → i ∈ held q → p = q
  covered : ∀ i, used i → ∃ p, i ∈ held p

namespace Allotted

variable {held : P → List ι} {used used' : ι → Prop}

/-- The allotment depends only on which items are in use. -/
theorem congr (h : Allotted held used) (hused : ∀ i, used' i ↔ used i) : Allotted held used' where
  nodup := h.nodup
  inUse := fun p i hi => (hused i).2 (h.inUse p i hi)
  apart := h.apart
  covered := fun i hi => h.covered i ((hused i).1 hi)

/-- If nobody holds anything, nothing is in use. -/
theorem not_used (h : Allotted held used) (hnone : ∀ p, held p = []) (i : ι) : ¬ used i := by
  intro hi
  obtain ⟨p, hp⟩ := h.covered i hi
  rw [hnone p] at hp
  exact List.not_mem_nil hp

variable [DecidableEq P] {p : P} {items : List ι}

/-- The items of the holders after one of them has got others. -/
theorem mem_update {q : P} {i : ι} (hi : i ∈ update held p items q) : q = p ∧ i ∈ items ∨ q ≠ p ∧ i ∈ held q := by
  by_cases hq : q = p
  · rw [hq, update_self] at hi
    exact .inl ⟨hq, hi⟩
  · rw [update_of_ne hq] at hi
    exact .inr ⟨hq, hi⟩

/-- A holder gets items that nobody uses. -/
theorem give (h : Allotted held used) (hp : held p = []) (hnodup : items.Nodup) (hitems : ∀ i ∈ items, ¬ used i) :
    Allotted (update held p items) fun i => used i ∨ i ∈ items where
  nodup := (forall_update_iff held fun _ l => l.Nodup).2 ⟨hnodup, fun q _ => h.nodup q⟩
  inUse q i hi := by
    obtain ⟨-, hi⟩ | ⟨-, hi⟩ := mem_update hi
    · exact .inr hi
    · exact .inl (h.inUse q i hi)
  apart q r i hi hi' := by
    obtain ⟨hq, hi⟩ | ⟨-, hi⟩ := mem_update hi
    · obtain ⟨hr, -⟩ | ⟨-, hi'⟩ := mem_update hi'
      · rw [hq, hr]
      · exact absurd (h.inUse r i hi') (hitems i hi)
    · obtain ⟨-, hi'⟩ | ⟨-, hi'⟩ := mem_update hi'
      · exact absurd (h.inUse q i hi) (hitems i hi')
      · exact h.apart q r i hi hi'
  covered i hi := by
    cases hi with
    | inl hi =>
      obtain ⟨q, hq⟩ := h.covered i hi
      have hne : q ≠ p := by
        intro heq
        rw [heq, hp] at hq
        exact List.not_mem_nil hq
      refine ⟨q, ?_⟩
      rw [update_of_ne hne]
      exact hq
    | inr hi =>
      refine ⟨p, ?_⟩
      rw [update_self]
      exact hi

/-- A holder gives its items back. -/
theorem back (h : Allotted held used) : Allotted (update held p []) fun i => used i ∧ i ∉ held p where
  nodup := (forall_update_iff held fun _ l => l.Nodup).2 ⟨List.nodup_nil, fun q _ => h.nodup q⟩
  inUse q i hi := by
    obtain ⟨-, hi⟩ | ⟨hq, hi⟩ := mem_update hi
    · exact absurd hi List.not_mem_nil
    · exact ⟨h.inUse q i hi, fun hp => hq (h.apart q p i hi hp)⟩
  apart q r i hi hi' := by
    obtain ⟨-, hi⟩ | ⟨-, hi⟩ := mem_update hi
    · exact absurd hi List.not_mem_nil
    · obtain ⟨-, hi'⟩ | ⟨-, hi'⟩ := mem_update hi'
      · exact absurd hi' List.not_mem_nil
      · exact h.apart q r i hi hi'
  covered i hi := by
    obtain ⟨q, hq⟩ := h.covered i hi.1
    have hne : q ≠ p := fun heq => hi.2 (heq ▸ hq)
    refine ⟨q, ?_⟩
    rw [update_of_ne hne]
    exact hq

end Allotted

end Xv6.Library
