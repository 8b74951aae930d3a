import Xv6.Proc.ExecSafety

/-!
# The outcome of copying an address space

`uvmcopy` either gives the child its own copy of every page that the parent maps below the size, or leaves
the child without any page there and keeps no data page. The parent is not touched in either case.
-/

namespace Xv6

open Library Vm

section Outcome

variable [KernelImage] {old new sz : ℕ} {s s' : Phys}

/-- A child maps the pages of its parent below a size, with the same flags and the same bytes, on pages of
its own that were free. -/
structure SpaceCopied (old new sz : ℕ) (s s' : Phys) : Prop where
  maps : ∀ v, v * PGSIZE < sz → ((leaf s'.mem new v).isSome ↔ (leaf s.mem old v).isSome)
  flags : ∀ v w w', v * PGSIZE < sz → leaf s.mem old v = some w → leaf s'.mem new v = some w' →
    PTE_FLAGS w' = PTE_FLAGS w
  bytes : ∀ v w w', v * PGSIZE < sz → leaf s.mem old v = some w → leaf s'.mem new v = some w' →
    s'.mem (PTE2PA w') = s.mem (PTE2PA w)
  fresh : ∀ v w, v * PGSIZE < sz → leaf s'.mem new v = some w →
    PTE2PA w ∈ s.freelist ∧ PTE2PA w ∉ s'.freelist
  distinct : ∀ v v' w w', leaf s'.mem new v = some w → leaf s'.mem new v' = some w' →
    PTE2PA w = PTE2PA w' → v = v'

/-- An address space is as it was: its tables, its leaves and the contents of its pages. -/
structure SpaceKept (root : ℕ) (s s' : Phys) : Prop where
  tables : ∀ t ∈ Vm.tables s.mem root, s'.mem t = s.mem t
  leaves : ∀ v, leaf s'.mem root v = leaf s.mem root v
  pages : ∀ v w, leaf s.mem root v = some w → s'.mem (PTE2PA w) = s.mem (PTE2PA w)

theorem Vm.Separate.kept (hsep : Separate old new s) (hq : Quiet new s s') : SpaceKept old s s' where
  tables := hsep.tables_eq hq
  leaves := leaf_congr (hsep.tables_eq hq)
  pages _ _ hw := hsep.page_eq hq hw

/-- The copy of a leaf. -/
theorem Vm.Copied.leaf_copy (h : Copied old new (pageCount sz) s s') (hfree : FreeOk s.freelist) {v w : ℕ}
    (hv : v * PGSIZE < sz) (hw : leaf s.mem old v = some w) : ∃ w', leaf s'.mem new v = some w' ∧
      PTE_FLAGS w' = PTE_FLAGS w ∧ PTE2PA w' ∈ s.freelist ∧ s'.mem (PTE2PA w') = s.mem (PTE2PA w) := by
  obtain ⟨m, hm, hleaf, hmem⟩ := h.copy v (lt_pageCount_iff.2 hv) w hw
  have hpage := hfree.valid m hm
  have haddr := PTE2PA_mkPte hpage.1 hpage.lt_two_pow (PTE_FLAGS_lt w)
  refine ⟨_, hleaf, PTE_FLAGS_copied hw m, ?_, ?_⟩
  · rwa [haddr]
  · rwa [haddr]

/-- The child of a completed copy. -/
theorem Vm.Copied.outcome (h : Copied old new (pageCount sz) s s') (hfree : FreeOk s.freelist) :
    SpaceCopied old new sz s s' := by
  have hhole : ∀ v, v * PGSIZE < sz → leaf s.mem old v = none → leaf s'.mem new v = none :=
    fun v hv => h.hole v (lt_pageCount_iff.2 hv)
  refine ⟨?_, ?_, ?_, ?_, h.quiet.step.after.space.inj⟩
  · intro v hv
    cases hw : leaf s.mem old v with
    | none => rw [hhole v hv hw]
    | some w =>
      obtain ⟨w', hw', -⟩ := h.leaf_copy hfree hv hw
      rw [hw']
      exact Iff.rfl
  · intro v w w' hv hw hw'
    obtain ⟨w₁, hw₁, hflags, -⟩ := h.leaf_copy hfree hv hw
    rw [hw'] at hw₁
    rwa [Option.some.inj hw₁]
  · intro v w w' hv hw hw'
    obtain ⟨w₁, hw₁, -, -, hmem⟩ := h.leaf_copy hfree hv hw
    rw [hw'] at hw₁
    rwa [Option.some.inj hw₁]
  · intro v w hv hw
    refine ⟨?_, (h.quiet.step.after.mapped_out hw).2⟩
    cases hold : leaf s.mem old v with
    | none =>
      rw [hhole v hv hold] at hw
      cases hw
    | some w' =>
      obtain ⟨w₁, hw₁, -, hm, -⟩ := h.leaf_copy hfree hv hold
      rw [hw] at hw₁
      rwa [Option.some.inj hw₁]

end Outcome

/-- Copying the memory of a parent below `sz` into a child that maps nothing there. -/
theorem uvmcopy_outcome [KernelImage] (s : Phys) (old new sz : ℕ)
    (hperm : ∀ v w, leaf s.mem old v = some w → hasFlag w PTE_RWX = true)
    (hnew : SpaceIn s new) (hsep : Separate old new s) (hsz : sz ≤ TRAPFRAME)
    (hnone : ∀ v, v * PGSIZE < sz → leaf s.mem new v = none) :
    Ensures (uvmcopy old new sz) s fun r s' => SpaceKept old s s' ∧
      (r = 0 ∧ SpaceCopied old new sz s s' ∨
        r = -1 ∧ s'.exhausted = true ∧ (∀ v, v * PGSIZE < sz → leaf s'.mem new v = none) ∧
          ∀ x ∈ s.freelist, x ∈ s'.freelist ∨ x ∈ tables s'.mem new) := by
  have hspec := uvmcopy_spec hperm hnew hsep hsz fun v hv => hnone v (lt_pageCount_iff.1 hv)
  refine hspec.mono ?_
  intro r s' hr
  obtain ⟨hzero, hcopied⟩ | ⟨hfail, hex⟩ := hr
  · exact ⟨hsep.kept hcopied.quiet, .inl ⟨hzero, hcopied.outcome hnew.free⟩⟩
  · refine ⟨hsep.kept hex.quiet, .inr ⟨hfail, hex.exhausted, fun v hv => ?_, fun x hx => ?_⟩⟩
    · rw [hex.leaf_eq, hnone v hv]
    · exact ((hex.quiet.free_iff_of_eq hnew hex.leaf_eq x).1 hx).imp_right And.right

section Concrete

attribute [local instance] linkedImage

/-- The heap of a process that has touched one of its two pages, copied into a page table that was made for
the purpose. -/
theorem uvmcopy_outcome_heap : ∃ s old new, (leaf s.mem old 1).isSome = true ∧
    Ensures (uvmcopy old new 8192) s fun r s' => SpaceKept old s s' ∧ (r = 0 ∨ r = -1) := by
  obtain ⟨events, k, -, -, -, -, hok, -, hleaf, -, hfree⟩ := exists_touched_heap
  have hin := hok.space.within
  cases hcons : k.phys.freelist with
  | nil =>
    rw [hcons] at hfree
    exact absurd hfree (by decide)
  | cons new rest =>
    obtain ⟨hstart, hempty⟩ := started_of_cleared hin.free hcons
    generalize hs : ({ k.phys with
      freelist := rest, mem := Function.update k.phys.mem new (filled 0) } : Phys) = s at hstart
    have hempty' : ∀ v, leaf s.mem new v = none := hs ▸ hempty
    -- what the process holds was not free
    have hout : ∀ x ∈ reach (child k.phys.mem) 3 (k.proc 0).pagetable, x ∉ k.phys.freelist :=
      fun x hx hmem => hin.apart x hmem hx
    have hsame : ∀ t ∈ tables k.phys.mem (k.proc 0).pagetable, s.mem t = k.phys.mem t :=
      fun t ht => hstart.frame t (hout t (mem_reach_three.2 (.inl ht)))
    have hsep : Separate (k.proc 0).pagetable new s := by
      have hapart : ∀ x ∈ reach (child k.phys.mem) 3 (k.proc 0).pagetable,
          x ∉ tables s.mem new ∧ x ∉ s.freelist := fun x hx =>
        ⟨fun ht => hout x hx ((hstart.split x).2 (.inl ht)),
          fun hf => hout x hx ((hstart.split x).2 (.inr hf))⟩
      refine ⟨?_, ?_⟩
      · intro t ht
        rw [tables_congr hsame] at ht
        exact hapart t (mem_reach_three.2 (.inl ht))
      · intro v w hw
        rw [leaf_congr hsame] at hw
        exact hapart _ (mem_reach_three.2 (.inr ⟨v, w, hw, rfl⟩))
    refine ⟨s, (k.proc 0).pagetable, new, by rwa [leaf_congr hsame], ?_⟩
    refine (uvmcopy_outcome s (k.proc 0).pagetable new 8192 (hin.space.congr hsame).perm hstart.space hsep
      (by decide) fun v _ => hempty' v).mono ?_
    intro r s' h
    obtain ⟨hkept, ⟨hr, -⟩ | ⟨hr, -⟩⟩ := h
    · exact ⟨hkept, .inl hr⟩
    · exact ⟨hkept, .inr hr⟩

end Concrete

end Xv6
