import Xv6.Vm.Resize

/-!
# Taking an address space apart

Freeing a process removes its leaves range by range, some of them together with their pages, and then
frees the tables. `Dropped` says what a sequence of such removals has done so far; it does not mention
the rest of the free list, since the trapframe is freed while it is still mapped.
-/

namespace Xv6.Vm

open Library List

variable [KernelImage]

/-- The leaves in `gone` have been removed, and the pages of those in `release` have been freed. -/
structure Dropped (root : ℕ) (s s' : Phys) (gone release : Set ℕ) (freed : List ℕ) : Prop where
  space : Space s'.mem root
  freelist : s'.freelist = freed ++ s.freelist
  nodup : freed.Nodup
  mem_iff : ∀ x, x ∈ freed ↔ ∃ v ∈ release, ∃ w, leaf s.mem root v = some w ∧ PTE2PA w = x
  tables_eq : tables s'.mem root = tables s.mem root
  leaf_gone : ∀ v ∈ gone, leaf s'.mem root v = none
  leaf_kept : ∀ v ∉ gone, leaf s'.mem root v = leaf s.mem root v
  frame : ∀ x, x ∉ tables s.mem root → x ∉ freed → s'.mem x = s.mem x
  exhausted : s'.exhausted = s.exhausted

section Dropped

variable {root : ℕ} {s s' s'' : Phys} {gone gone' release release' : Set ℕ} {freed freed' : List ℕ}

theorem Dropped.refl (h : Space s.mem root) (hgone : ∀ v ∈ gone, leaf s.mem root v = none)
    (hsub : release ⊆ gone) : Dropped root s s gone release [] where
  space := h
  freelist := rfl
  nodup := nodup_nil
  mem_iff x := by
    refine ⟨nofun, ?_⟩
    intro hx
    obtain ⟨v, hv, w, hw, -⟩ := hx
    exact none_elim (hgone v (hsub hv)) hw
  tables_eq := rfl
  leaf_gone := hgone
  leaf_kept _ _ := rfl
  frame _ _ _ := rfl
  exhausted := rfl

/-- What is left after some leaves are gone is part of what was there. -/
theorem Dropped.leaf_sub (h : Dropped root s s' gone release freed) {v w : ℕ}
    (hw : leaf s'.mem root v = some w) : v ∉ gone ∧ leaf s.mem root v = some w := by
  have hv : v ∉ gone := by
    intro hv
    exact none_elim (h.leaf_gone v hv) hw
  exact ⟨hv, (h.leaf_kept v hv).symm.trans hw⟩

theorem Dropped.lowPages (h : Dropped root s s' gone release freed) (hlow : LowPages s.mem root) :
    LowPages s'.mem root :=
  fun v w hv hw => hlow v w hv (h.leaf_sub hw).2

/-- Nothing is freed when no leaf is released. -/
theorem Dropped.nil_of_no_release (h : Dropped root s s' gone ∅ freed) : freed = [] := by
  rw [eq_nil_iff_forall_not_mem]
  intro x hx
  obtain ⟨v, hv, -⟩ := (h.mem_iff x).1 hx
  exact hv

theorem Dropped.trans (hs : Space s.mem root) (hsub : release ⊆ gone)
    (h : Dropped root s s' gone release freed) (h' : Dropped root s' s'' gone' release' freed') :
    Dropped root s s'' (gone ∪ gone') (release ∪ release' \ gone) (freed' ++ freed) where
  space := h'.space
  freelist := by rw [h'.freelist, h.freelist, append_assoc]
  nodup := by
    refine nodup_append.2 ⟨h'.nodup, h.nodup, ?_⟩
    intro x hx y hy hxy
    obtain ⟨v, -, w, hw, hwx⟩ := (h'.mem_iff x).1 hx
    obtain ⟨v', hv', w', hw', hwy⟩ := (h.mem_iff y).1 hy
    obtain ⟨hv, hw⟩ := h.leaf_sub hw
    -- one page would be at the end of two leaves, one gone before the other
    have heq := hs.inj v v' w w' hw hw' (hwx.trans (hxy.trans hwy.symm))
    exact hv (heq ▸ hsub hv')
  mem_iff x := by
    rw [mem_append, h.mem_iff, h'.mem_iff]
    constructor
    · intro hx
      obtain ⟨v, hv, w, hw, hwx⟩ | ⟨v, hv, w, hw, hwx⟩ := hx
      · obtain ⟨hgone, hw⟩ := h.leaf_sub hw
        exact ⟨v, .inr ⟨hv, hgone⟩, w, hw, hwx⟩
      · exact ⟨v, .inl hv, w, hw, hwx⟩
    · intro hx
      obtain ⟨v, hv | ⟨hv, hgone⟩, w, hw, hwx⟩ := hx
      · exact .inr ⟨v, hv, w, hw, hwx⟩
      · exact .inl ⟨v, hv, w, (h.leaf_kept v hgone).trans hw, hwx⟩
  tables_eq := h'.tables_eq.trans h.tables_eq
  leaf_gone v hv := by
    by_cases hg' : v ∈ gone'
    · exact h'.leaf_gone v hg'
    · rw [h'.leaf_kept v hg']
      exact h.leaf_gone v (hv.resolve_right hg')
  leaf_kept v hv := by
    rw [Set.mem_union, not_or] at hv
    rw [h'.leaf_kept v hv.2, h.leaf_kept v hv.1]
  frame x hx hfreed := by
    rw [mem_append, not_or] at hfreed
    rw [h'.frame x (h.tables_eq ▸ hx) hfreed.1, h.frame x hx hfreed.2]
  exhausted := h'.exhausted.trans h.exhausted

end Dropped

section Unmap

variable {root : ℕ} {s : Phys}

/-- The page numbers of a range. -/
def pageRange (base n : ℕ) : Set ℕ := {v | base ≤ v ∧ v < base + n}

omit [KernelImage] in
theorem mem_pageRange {base n v : ℕ} : v ∈ pageRange base n ↔ base ≤ v ∧ v < base + n := Iff.rfl

/-- Unmapping a range of pages. -/
theorem Shrunk.dropped {s' : Phys} {base n : ℕ} {doFree : Bool} (h : Space s.mem root)
    (hs : Shrunk root s s' (freedPages doFree (leaf s.mem root) base n)
      (without (leaf s.mem root) base n)) :
    Dropped root s s' (pageRange base n) (if doFree then pageRange base n else ∅)
      (freedPages doFree (leaf s.mem root) base n) where
  space := hs.space h
  freelist := hs.freelist
  nodup := by
    rw [freedPages]
    cases doFree with
    | false => exact nodup_nil
    | true => exact nodup_reverse.2 (leafPages_nodup base n h.inj)
  mem_iff x := by
    rw [freedPages]
    cases doFree with
    | false => simp
    | true =>
      rw [if_pos rfl, if_pos rfl, mem_reverse, mem_leafPages]
      constructor
      · intro hx
        obtain ⟨v, w, h1, h2, hw, hwx⟩ := hx
        exact ⟨v, ⟨h1, h2⟩, w, hw, hwx⟩
      · intro hx
        obtain ⟨v, ⟨h1, h2⟩, w, hw, hwx⟩ := hx
        exact ⟨v, w, h1, h2, hw, hwx⟩
  tables_eq := hs.tables_eq
  leaf_gone v hv := by
    rw [hs.leaf_eq, without, if_pos (mem_pageRange.1 hv)]
  leaf_kept v hv := by
    rw [hs.leaf_eq, without, if_neg (mt mem_pageRange.2 hv)]
  frame := hs.frame
  exhausted := hs.exhausted

/-- Unmapping a range of pages, without freeing them if the trampoline is among them. -/
theorem uvmunmap_dropped (va npages : ℕ) (doFree : Bool) (h : Space s.mem root) (hva : va % 4096 = 0)
    (hmax : va + npages * 4096 ≤ MAXVA)
    (htramp : doFree → ∀ v ∈ pageRange (va / 4096) npages, ∀ w, leaf s.mem root v = some w →
      PTE2PA w ≠ KernelImage.trampoline) :
    Ensures (uvmunmap root va npages doFree) s fun _ s' => ∃ freed,
      Dropped root s s' (pageRange (va / 4096) npages)
        (if doFree then pageRange (va / 4096) npages else ∅) freed := by
  refine (uvmunmap_spec hva hmax h.tree ?_).mono ?_
  · intro hfree i hi w hw
    exact h.pages _ w hw (htramp hfree _ ⟨by omega, by omega⟩ w hw)
  · intro _ s' hs
    exact ⟨_, hs.dropped h⟩

end Unmap

section Free

variable {root sz : ℕ} {s : Phys}

/-- The pages of the leaves in a set. -/
def leafPagesIn (mem : ℕ → Page) (root : ℕ) (vpns : Set ℕ) : Set ℕ :=
  {x | ∃ v ∈ vpns, ∃ w, leaf mem root v = some w ∧ PTE2PA w = x}

/-- Once all leaves are gone the tables are freed, and not before. -/
theorem freewalk_dropped {s' : Phys} {gone release : Set ℕ} {freed : List ℕ} (hs : Space s.mem root)
    (h : Dropped root s s' gone release freed) :
    Yields (freewalk 2 root) s'
      (fun _ s'' => (∀ v w, leaf s.mem root v = some w → v ∈ gone) ∧
        ∃ freed', Freed (tables s.mem root ∪ leafPagesIn s.mem root release) s s'' freed')
      (fun e => e = .freewalkLeaf ∧ ∃ v w, leaf s.mem root v = some w ∧ v ∉ gone) := by
  have hvalid : ∀ x ∈ reach (child s'.mem) 2 root, PageAddress x := h.space.tabs
  by_cases hall : ∀ v w, leaf s.mem root v = some w → v ∈ gone
  · have hno : NoLeaf s'.mem 2 root := by
      rw [noLeaf_iff]
      intro v
      cases hw : leaf s'.mem root v with
      | none => rfl
      | some w =>
        obtain ⟨hv, hw⟩ := h.leaf_sub hw
        exact absurd (hall v w hw) hv
    apply Ensures.yields
    refine (freewalk_spec 2 root s' h.space.tableTree hno hvalid).mono ?_
    intro _ s'' hf
    obtain ⟨freed', hf⟩ := hf
    have htables : reach (child s'.mem) 2 root = tables s.mem root := h.tables_eq
    rw [htables] at hf
    refine ⟨hall, freed' ++ freed, ?_, ?_, ?_, ?_, ?_⟩
    · rw [hf.freelist, h.freelist, append_assoc]
    · refine nodup_append.2 ⟨hf.nodup, h.nodup, ?_⟩
      intro x hx y hy hxy
      obtain ⟨v, -, w, hw, hwy⟩ := (h.mem_iff y).1 hy
      exact hs.tree.leaf_not_mem_tables hw (hwy.trans hxy.symm ▸ (hf.mem_iff x).1 hx)
    · intro x
      rw [mem_append, hf.mem_iff, h.mem_iff]
      rfl
    · intro x hx
      rw [Set.mem_union, not_or] at hx
      rw [hf.frame x hx.1, h.frame x hx.1]
      rw [h.mem_iff]
      exact hx.2
    · exact hf.exhausted.trans h.exhausted
  · push Not at hall
    obtain ⟨v, w, hw, hv⟩ := hall
    have hleaf : ¬ NoLeaf s'.mem 2 root := by
      rw [noLeaf_iff]
      intro hno
      have := h.leaf_kept v hv
      rw [hno v, hw] at this
      cases this
    exact yields_of_error (freewalk_leaf 2 root s' h.space.tableTree h.space.leafPerm hleaf hvalid)
      ⟨rfl, v, w, hw, hv⟩

end Free

end Xv6.Vm
