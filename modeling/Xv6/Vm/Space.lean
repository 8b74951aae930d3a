import Xv6.Vm.FreewalkSpec

/-!
# Address spaces and the pages they hold

An address space is a page table whose leaves lead to different pages, all of them pages of the
allocator apart from the trampoline. The pages that an address space and the free list hold together
are its resources; an operation on an address space neither creates nor loses any of them and touches
no other page.
-/

namespace Xv6.Vm

open Library

variable [KernelImage]

/-- A page table that can be the address space of a process. -/
structure Space (mem : ℕ → Page) (root : ℕ) : Prop where
  tree : TreeOk mem root
  pointers : Pointers mem root
  low : Low mem root
  inj : ∀ vpn vpn' w w', leaf mem root vpn = some w → leaf mem root vpn' = some w' →
    PTE2PA w = PTE2PA w' → vpn = vpn'
  tabs : ∀ t ∈ tables mem root, PageAddress t
  pages : ∀ vpn w, leaf mem root vpn = some w → PTE2PA w ≠ KernelImage.trampoline →
    PageAddress (PTE2PA w)
  perm : ∀ vpn w, leaf mem root vpn = some w → hasFlag w PTE_RWX

/-- An address space in a memory whose free list is in order and apart from it. -/
structure SpaceIn (s : Phys) (root : ℕ) : Prop where
  space : Space s.mem root
  free : FreeOk s.freelist
  apart : Apart s.mem root s.freelist

/-- The pages of the allocator that an address space or the free list holds. -/
def resources (s : Phys) (root : ℕ) : Set ℕ :=
  {x | PageAddress x ∧ (x ∈ reach (child s.mem) 3 root ∨ x ∈ s.freelist)}

/-- An operation on an address space: pages move between it and the free list only. -/
structure SpaceStep (root : ℕ) (s s' : Phys) : Prop where
  after : SpaceIn s' root
  conserve : resources s' root = resources s root
  frame : ∀ x, x ∉ resources s root → s'.mem x = s.mem x

variable {s : Phys}

theorem SpaceStep.refl {root : ℕ} (h : SpaceIn s root) : SpaceStep root s s := ⟨h, rfl, fun _ _ => rfl⟩

theorem SpaceStep.trans {root : ℕ} {s' s'' : Phys} (h : SpaceStep root s s')
    (h' : SpaceStep root s' s'') : SpaceStep root s s'' where
  after := h'.after
  conserve := h'.conserve.trans h.conserve
  frame x hx := by rw [h'.frame x (h.conserve ▸ hx), h.frame x hx]

/-- An operation that writes only tables and free pages; its new tables come from the free list. -/
structure Quiet (root : ℕ) (s s' : Phys) : Prop where
  step : SpaceStep root s s'
  same : ∀ x, x ∉ tables s.mem root → x ∉ s.freelist → s'.mem x = s.mem x
  tables_sub : ∀ x ∈ tables s'.mem root, x ∈ tables s.mem root ∨ x ∈ s.freelist
  free_sub : ∀ x ∈ s'.freelist, x ∈ s.freelist
  exhausted : s.exhausted = true → s'.exhausted = true

theorem Quiet.refl {root : ℕ} (h : SpaceIn s root) : Quiet root s s :=
  ⟨SpaceStep.refl h, fun _ _ _ => rfl, fun _ => .inl, fun _ => id, id⟩

theorem Quiet.trans {root : ℕ} {s' s'' : Phys} (h : Quiet root s s') (h' : Quiet root s' s'') :
    Quiet root s s'' where
  step := h.step.trans h'.step
  same x ht hf := by
    rw [h'.same x (fun hx => (h.tables_sub x hx).elim ht hf) (fun hx => hf (h.free_sub x hx)), h.same x ht hf]
  tables_sub x hx := (h'.tables_sub x hx).elim (h.tables_sub x) fun hf => .inr (h.free_sub x hf)
  free_sub x hx := h.free_sub x (h'.free_sub x hx)
  exhausted hex := h'.exhausted (h.exhausted hex)

/-- The trampoline is no page of the allocator. -/
theorem not_pageAddress_trampoline : ¬ PageAddress (KernelImage.trampoline) := by
  rintro ⟨-, hend, -⟩
  have := KernelImage.trampoline_lt_kend
  omega

section Congr

variable {mem mem' : ℕ → Page} {root : ℕ}

/-- Changes outside the tables keep an address space. -/
theorem Space.congr (hs : Space mem root) (h : ∀ t ∈ tables mem root, mem' t = mem t) : Space mem' root where
  tree := hs.tree.congr h
  pointers := hs.pointers.congr h
  low := hs.low.congr h
  inj vpn vpn' w w' hw hw' := by
    rw [leaf_congr h] at hw hw'
    exact hs.inj vpn vpn' w w' hw hw'
  tabs t ht := by
    rw [tables_congr h] at ht
    exact hs.tabs t ht
  pages vpn w hw := by
    rw [leaf_congr h] at hw
    exact hs.pages vpn w hw
  perm vpn w hw := by
    rw [leaf_congr h] at hw
    exact hs.perm vpn w hw

omit [KernelImage] in
/-- Changes outside the tables keep the pages of an address space. -/
theorem reach_three_congr (h : ∀ t ∈ tables mem root, mem' t = mem t) :
    reach (child mem') 3 root = reach (child mem) 3 root := by
  ext x
  rw [mem_reach_three, mem_reach_three, tables_congr h]
  simp only [leaf_congr h]

/-- The address space after its leaf entries have been changed and tables have been added. -/
theorem Grown.space {s' : Phys} {taken : List ℕ} {entries : ℕ → Option ℕ}
    (hg : Grown root s s' taken entries) (hs : Space s.mem root) (hf : FreeOk s.freelist)
    (hinj : ∀ vpn vpn' w w', entries vpn = some w → entries vpn' = some w' →
      PTE2PA w = PTE2PA w' → vpn = vpn')
    (hpages : ∀ vpn w, entries vpn = some w → PTE2PA w ≠ KernelImage.trampoline →
      PageAddress (PTE2PA w))
    (hperm : ∀ vpn w, entries vpn = some w → hasFlag w PTE_RWX) : Space s'.mem root where
  tree := hg.tree
  pointers := hg.pointers hs.pointers
  low := hg.low hs.low
  inj vpn vpn' w w' hw hw' := by
    rw [hg.leaf_eq] at hw hw'
    exact hinj vpn vpn' w w' hw hw'
  tabs t ht := by
    rcases (hg.tables_iff t).1 ht with hold | hnew
    · exact hs.tabs t hold
    · exact hf.valid t (hg.taken_sub hnew)
  pages vpn w hw := by
    rw [hg.leaf_eq] at hw
    exact hpages vpn w hw
  perm vpn w hw := by
    rw [hg.leaf_eq] at hw
    exact hperm vpn w hw

end Congr

section Tree

variable {mem : ℕ → Page} {root : ℕ}

/-- The tables of an address space form a tree that `freewalk` can free. -/
theorem Space.tableTree (h : Space mem root) : TableTree mem 2 root where
  unshared := h.tree
  pointers path u i hlen hpath := h.pointers path u i (by omega) hpath

/-- The leaves of an address space carry permissions. -/
theorem Space.leafPerm (h : Space mem root) : LeafPerm mem 2 root := by
  intro path u i hlen hpath hv
  obtain ⟨vpn, hvpn⟩ := exists_vpn_of_path hlen hpath hv
  exact h.perm vpn _ hvpn

omit [KernelImage] in
/-- A page table without leaf entries has no link below its tables. -/
theorem noLeaf_iff : NoLeaf mem 2 root ↔ ∀ vpn, leaf mem root vpn = none := by
  constructor
  · intro h vpn
    cases hw : leaf mem root vpn with
    | none => rfl
    | some w =>
      have hnone := h (pagePath vpn ++ [vpn % 512]) (by simp)
      rw [follow_three hw] at hnone
      cases hnone
  · intro h path hlen
    obtain ⟨a, b, c, rfl⟩ := List.length_eq_three.1 hlen
    have hsplit : [a, b, c] = [a, b] ++ [c] := rfl
    rw [hsplit, follow_concat]
    cases ht : follow (child mem) root [a, b] with
    | none => rfl
    | some t =>
      change linkOf (pteAt mem t c) = none
      rw [linkOf, if_neg]
      intro hv
      obtain ⟨vpn, hvpn⟩ := exists_vpn_of_path rfl ht hv
      rw [h vpn] at hvpn
      cases hvpn

/-- From `MAXVA` on there are no leaf entries. -/
theorem Space.leaf_of_le (h : Space mem root) {vpn : ℕ} (hvpn : 2 ^ 26 ≤ vpn) : leaf mem root vpn = none := by
  by_cases hlt : vpn < 2 ^ 27
  · have hnone := h.low (vpn / 2 ^ 18 % 512) (by omega)
    rw [leaf_of_lt hlt, leafTable, pagePath, follow_cons, hnone]
    rfl
  · rw [leaf, if_neg hlt]

end Tree

end Xv6.Vm
