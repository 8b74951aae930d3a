import Xv6.Proc.Syscalls
import Xv6.Vm.FillSpec

/-!
# What page faults and user accesses do

A page fault either kills the process and leaves its leaf entries alone, or maps one fresh page: a page
of `'A'` inside the region of the process, a cleared page elsewhere below its size. A user access
happens on the page that the hardware finds, possibly after such a fault.
-/

namespace Xv6

open Library Vm

variable [KernelImage]

/-- The address space of a process and the bounds on its size and region. -/
structure Proc.Ok (p : Proc) (s : Phys) : Prop where
  space : ProcSpace s p.pagetable p.trapframe
  size : p.sz ≤ TRAPFRAME
  region : p.vr.active = true → p.vr.limit ≤ TRAPFRAME

/-- How a page fault at an address can end. -/
inductive FaultOutcome (p : Proc) (va : ℕ) (s : Phys) : Proc → Phys → Prop
  | killed (s' : Phys) (quiet : Quiet p.pagetable s s')
      (same : ∀ vpn, leaf s'.mem p.pagetable vpn = leaf s.mem p.pagetable vpn)
      (reason : (¬ p.InRegion va ∧ (va = 0 ∨ p.sz ≤ va)) ∨
        (¬ p.InRegion va ∧ leaf s.mem p.pagetable (va / 4096) ≠ none) ∨ s'.exhausted = true) :
      FaultOutcome p va s { p with killed := true } s'
  | region (s' : Phys) (m : ℕ) (inside : p.InRegion va)
      (fault : Faulted p.pagetable (va / 4096) lazyPerm (filled regionByte) s s' m) :
      FaultOutcome p va s { p with pagefaultCount := p.pagefaultCount + 1 } s'
  | lazy (s' : Phys) (m : ℕ) (outside : ¬ p.InRegion va) (below : va < p.sz)
      (fault : Faulted p.pagetable (va / 4096) lazyPerm (filled 0) s s' m) :
      FaultOutcome p va s { p with pagefaultCount := p.pagefaultCount + 1 } s'

section Fault

variable {p : Proc} {s : Phys} {va : ℕ}

/-- A fault outside the region of the process. -/
theorem pageFault_outside (h : p.Ok s) (hout : ¬ p.InRegion va) :
    Ensures (pageFault p va) s (FaultOutcome p va s) := by
  rw [pageFault, if_neg hout]
  by_cases hbad : va = 0 ∨ p.sz ≤ va
  · rw [if_pos hbad, ensures_pure]
    exact .killed s (Quiet.refl h.space.within) (fun _ => rfl) (.inl ⟨hout, hbad⟩)
  · rw [if_neg hbad, ensures_bind]
    refine Ensures.mono (vmfault_spec h.space h.size) ?_
    rintro r s' (⟨rfl, rfl, hcause⟩ | ⟨rfl, -, hex⟩ | ⟨hr, hlt, hfault⟩)
    · rw [if_pos rfl, ensures_pure]
      refine .killed _ (Quiet.refl h.space.within) (fun _ => rfl) ?_
      rcases hcause with hle | hmapped
      · exact .inl ⟨hout, .inr hle⟩
      · exact .inr (.inl ⟨hout, hmapped⟩)
    · rw [if_pos rfl, ensures_pure]
      exact .killed _ hex.quiet hex.leaf_eq (.inr (.inr hex.exhausted))
    · rw [if_neg hr, ensures_pure]
      exact .lazy s' r hout hlt hfault

/-- A fault inside the region of the process at a page that is not mapped. -/
theorem pageFault_inside (h : p.Ok s) (hin : p.InRegion va) (hmax : va < MAXVA)
    (hnone : leaf s.mem p.pagetable (va / 4096) = none) : Ensures (pageFault p va) s (FaultOutcome p va s) := by
  obtain ⟨haligned, hdiv⟩ := PGROUNDDOWN_facts va
  have hlt : PGROUNDDOWN va < MAXVA := by
    rw [PGROUNDDOWN_eq]
    change _ < 2 ^ 38
    have : va < 2 ^ 38 := hmax
    omega
  rw [pageFault, if_pos hin, ensures_bind]
  refine Ensures.mono (allocMap_spec h.space.within haligned hlt (hdiv.symm ▸ hnone) (by decide) (by decide)) ?_
  intro r s' hm
  rw [hdiv] at hm
  cases r with
  | none =>
    obtain ⟨hsame, hex⟩ := hm.failed rfl
    exact (ensures_pure _ _ _).2 (.killed s' hm.quiet hsame (.inr (.inr hex)))
  | some m =>
    obtain ⟨hfree, hleaf, hmem, hex, -⟩ := hm.mapped m rfl
    exact (ensures_pure _ _ _).2 (.region s' m hin ⟨hm.quiet, hnone, hfree, hleaf, hmem, hex⟩)

/-- The region of a process ends below the trapframe. -/
theorem Proc.InRegion.lt_trapframe (h : p.Ok s) (hin : p.InRegion va) : va < TRAPFRAME :=
  lt_of_lt_of_le hin.2.2 (h.region hin.1)

/-- Every fault has one of the outcomes, unless the page is mapped already. -/
theorem pageFault_yields (h : p.Ok s) :
    Yields (pageFault p va) s (FaultOutcome p va s) (fun e => e = .mappagesRemap) := by
  by_cases hin : p.InRegion va
  · have hlow : va < 2 ^ 38 - 4096 - 4096 := hin.lt_trapframe h
    have hmax : va < MAXVA := by
      change va < 2 ^ 38
      omega
    by_cases hfree : leaf s.mem p.pagetable (va / 4096) = none
    · exact (pageFault_inside h hin hmax hfree).yields _
    · obtain ⟨haligned, hdiv⟩ := PGROUNDDOWN_facts va
      rw [← hdiv] at hfree
      have hmax' : PGROUNDDOWN va < MAXVA := by
        rw [PGROUNDDOWN_eq]
        change va / 4096 * 4096 < 2 ^ 38
        omega
      rw [pageFault, if_pos hin, yields_bind]
      refine (allocMap_blocked h.space.within haligned (.inr hfree)).mono ?_ fun e he => he hmax'
      rintro _ s' ⟨rfl, rfl, -⟩
      refine (yields_pure _ _ _ _).2 (.killed _ ?_ (fun _ => rfl) (.inr (.inr rfl)))
      exact ⟨⟨⟨h.space.within.space, h.space.within.free, h.space.within.apart⟩, rfl, fun _ _ => rfl⟩,
        fun _ _ _ => rfl, fun _ => .inl, fun _ => id, fun _ => rfl⟩
  · exact (pageFault_outside h hin).yields _

/-- Every fault that the kernel survives has one of the outcomes. -/
theorem pageFault_allows (h : p.Ok s) : Allows (pageFault p va) s (FaultOutcome p va s) := (pageFault_yields h).1

/-- What may appear at a page number through a page fault of the process. -/
def Proc.FaultPage (p : Proc) (vpn perm : ℕ) (page : Page) : Prop :=
  perm = lazyPerm ∧ ∃ va, va / 4096 = vpn ∧
    ((p.InRegion va ∧ page = filled regionByte) ∨ (¬ p.InRegion va ∧ va < p.sz ∧ page = filled 0))

/-- A page fault fills at most one hole. -/
theorem FaultOutcome.filled {p' : Proc} {s' : Phys} (h : FaultOutcome p va s p' s') :
    Filled p.pagetable p.FaultPage s s' := by
  cases h with
  | killed _ quiet same _ => exact Filled.of_same quiet same
  | region _ m inside fault =>
    exact fault.filled (by decide) ⟨rfl, va, rfl, .inl ⟨inside, rfl⟩⟩
  | lazy _ m outside below fault =>
    exact fault.filled (by decide) ⟨rfl, va, rfl, .inr ⟨outside, below, rfl⟩⟩

end Fault

end Xv6
