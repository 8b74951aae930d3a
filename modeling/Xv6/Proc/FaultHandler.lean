import Xv6.Proc.Guarded

/-!
# The page-fault handler

A page fault should map one fresh page at a hole, or kill the process and leave its memory alone. The
branch of the handler for the region of `mapzero` does not ask whether the page is mapped already, so
a store to a read-only page inside the region makes the kernel panic. In every other case the handler
does what it should.
-/

namespace Xv6

open Library Vm

section Handler

variable [KernelImage]

/-- What a page fault at an address should do: map one fresh page at a hole and count it, or kill the
process and leave its leaf entries and its pages as they are. No other page is taken but for tables. -/
def FaultHandled (p : Proc) (va : ℕ) (s : Phys) (p' : Proc) (s' : Phys) : Prop :=
  (p' = { p with pagefaultCount := p.pagefaultCount + 1 } ∧
    leaf s.mem p.pagetable (va / 4096) = none ∧ ∃ m ∈ s.freelist, m ∉ s'.freelist ∧
      leaf s'.mem p.pagetable =
        Function.update (leaf s.mem p.pagetable) (va / 4096) (some (mkPte m lazyPerm)) ∧
      ∀ x, x ∈ s.freelist ↔ x ∈ s'.freelist ∨ x ∈ s.freelist ∧ x ∈ tables s'.mem p.pagetable ∨ x = m) ∨
  (p' = { p with killed := true } ∧ leaf s'.mem p.pagetable = leaf s.mem p.pagetable ∧
    (∀ v w, leaf s.mem p.pagetable v = some w → s'.mem (PTE2PA w) = s.mem (PTE2PA w)) ∧
    ∀ x, x ∈ s.freelist ↔ x ∈ s'.freelist ∨ x ∈ s.freelist ∧ x ∈ tables s'.mem p.pagetable)

section Fault

variable {p p' : Proc} {s s' : Phys} {va : ℕ}

/-- The outcomes of a page fault are the ones that it should have. -/
theorem FaultOutcome.handled (h : p.Ok s) (ho : FaultOutcome p va s p' s') : FaultHandled p va s p' s' := by
  have hfresh : ∀ page m, Faulted p.pagetable (va / 4096) lazyPerm page s s' m →
      leaf s.mem p.pagetable (va / 4096) = none ∧ ∃ m ∈ s.freelist, m ∉ s'.freelist ∧
        leaf s'.mem p.pagetable = Function.update (leaf s.mem p.pagetable) (va / 4096) (some (mkPte m lazyPerm)) ∧
        ∀ x, x ∈ s.freelist ↔ x ∈ s'.freelist ∨ x ∈ s.freelist ∧ x ∈ tables s'.mem p.pagetable ∨ x = m := by
    intro page m hf
    have hpa := h.space.within.free.valid m hf.free
    have hpte : PTE2PA (mkPte m lazyPerm) = m := PTE2PA_mkPte hpa.1 hpa.lt_two_pow (by decide)
    have hleaf : leaf s'.mem p.pagetable (va / 4096) = some (mkPte m lazyPerm) := by
      rw [hf.leaf_eq, Function.update_self]
    have hout := (hf.quiet.step.after.mapped_out hleaf).2
    rw [hpte] at hout
    refine ⟨hf.unmapped, m, hf.free, hout, funext hf.leaf_eq, fun x => ?_⟩
    refine hf.quiet.free_iff h.space.within (fun y => y = m) (fun v w hw => ?_) fun hx => hx ▸ hf.free
    rw [hf.leaf_eq, Function.update_apply] at hw
    split_ifs at hw
    · exact .inr (Option.some.inj hw ▸ hpte)
    · exact .inl hw
  cases ho with
  | killed s' quiet same _ =>
    refine .inr ⟨rfl, funext same, ?_, quiet.free_iff_of_eq h.space.within same⟩
    intro v w hw
    obtain ⟨htable, hfree⟩ := h.space.within.mapped_out hw
    exact quiet.same _ htable hfree
  | region s' m _ fault => exact .inl ⟨rfl, hfresh _ m fault⟩
  | lazy s' m _ _ fault => exact .inl ⟨rfl, hfresh _ m fault⟩

/-- A page of the region that is mapped already cannot be mapped again. -/
theorem pageFault_remap (h : p.Ok s) (hin : p.InRegion va) (hfree : s.freelist ≠ [])
    (hmapped : leaf s.mem p.pagetable (va / 4096) ≠ none) : ¬ Ensures (pageFault p va) s (FaultHandled p va s) := by
  obtain ⟨haligned, hdiv⟩ := PGROUNDDOWN_facts va
  intro hrun
  rw [pageFault, if_pos hin, ensures_bind] at hrun
  obtain ⟨r, s₁, hrun, -⟩ := hrun
  rw [← hdiv] at hmapped
  exact hfree ((allocMap_blocked h.space.within haligned (.inr hmapped)).1 r s₁ hrun).2.2

/-- Without memory a page fault in the region kills the process. -/
theorem pageFault_full (h : p.Ok s) (hin : p.InRegion va) (hfree : s.freelist = []) :
    Ensures (pageFault p va) s (FaultHandled p va s) := by
  have hreturns : Ensures (pageFault p va) s fun _ _ => True := by
    rw [pageFault, if_pos hin, ensures_bind, allocMap, ensures_bind]
    refine kalloc_spec ?_ ?_
    · intro _
      exact (ensures_pure _ _ _).2 ((ensures_pure _ _ _).2 trivial)
    · intro n rest hcons
      rw [hfree] at hcons
      cases hcons
  obtain ⟨p', s', hrun, -⟩ := hreturns
  exact ⟨p', s', hrun, (pageFault_allows h p' s' hrun).handled h⟩

/-- The handler does what it should except for a mapped page of the region. -/
theorem pageFault_handled_iff (h : p.Ok s) :
    Ensures (pageFault p va) s (FaultHandled p va s) ↔
      (p.InRegion va → leaf s.mem p.pagetable (va / 4096) = none ∨ s.freelist = []) := by
  constructor
  · intro hrun hin
    by_contra hbad
    rw [not_or] at hbad
    exact pageFault_remap h hin hbad.2 hbad.1 hrun
  · intro hgood
    by_cases hin : p.InRegion va
    · obtain hnone | hfree := hgood hin
      · have hmax : va < MAXVA := by
          have hlimit : p.vr.limit ≤ 2 ^ 38 - 4096 - 4096 := h.region hin.1
          have hlt := hin.2.2
          change va < 2 ^ 38
          omega
        exact (pageFault_inside h hin hmax hnone).mono fun _ _ ho => ho.handled h
      · exact pageFault_full h hin hfree
    · exact (pageFault_outside h hin).mono fun _ _ ho => ho.handled h

end Fault

/-- After every run of guarded moves, a page fault of a process at any address is handled as it should
be exactly when the address is outside the region of the process, or its page is not mapped, or there
is no memory. -/
theorem pageFault_after_run {k₀ k : Kernel} {events : List Event} {i : Fin NPROC} (hboot : k₀.Boot)
    (hrun : Run Kernel.Guarded k₀ events k) (hi : (k.proc i).state = .runnable) (va : BitVec 64) :
    Ensures (pageFault (k.proc i) va.toNat) k.phys (FaultHandled (k.proc i) va.toNat k.phys) ↔
      ((k.proc i).InRegion va.toNat →
        leaf k.phys.mem (k.proc i).pagetable (va.toNat / 4096) = none ∨ k.phys.freelist = []) := by
  have hlive : (k.proc i).Live := .of_runnable hi
  exact pageFault_handled_iff ((hboot.invariant.of_run hrun).layout.slot i hlive).ok

end Handler

section Concrete

attribute [local instance] linkedImage

/-- A store to a read-only page of `map_ro` inside a region of `mapzero` faults, and the handler tries
to map a page that is mapped already. -/
theorem pageFault_readonly_region : ∃ events k, (bootKernel 40).Boot ∧
    Run (Kernel.Moves .lazy) (bootKernel 40) events k ∧
    events.map (fun e => (e.proc, e.op)) = [(0, .mapzero 8192), (0, .mapRo 4096)] ∧
    hwTranslate k.phys.mem (k.proc 0).pagetable 4096 PTE_W = none ∧
    pageFault (k.proc 0) 4096 k.phys = .error .mappagesRemap := by
  obtain ⟨events, k, hreplay, hcheck⟩ := Kernel.exists_replay .lazy (bootKernel 40)
    [(0, .mapzero 8192), (0, .mapRo 4096)]
    (fun _ k => decide (hwTranslate k.phys.mem (k.proc 0).pagetable 4096 PTE_W = none ∧
      pageFault (k.proc 0) 4096 k.phys = .error .mappagesRemap)) (by decide +kernel)
  obtain ⟨hrun, hops⟩ := Kernel.run_of_replay hreplay
  exact ⟨events, k, bootKernel_forty.1, hrun, hops, of_decide_eq_true hcheck⟩

/-- A fault at a page of the region that has not been touched is handled. -/
theorem pageFault_after_run_region : ∃ events k,
    Run Kernel.Guarded (bootKernel 40) events k ∧
    events.map (fun e => (e.proc, e.op)) = [(0, .mapzero 8192), (0, .load 5000)] ∧
    (k.proc 0).InRegion 100 ∧
    Ensures (pageFault (k.proc 0) 100) k.phys (FaultHandled (k.proc 0) 100 k.phys) := by
  obtain ⟨events, k, hrun, hops, hcheck⟩ := Kernel.exists_replayGuarded (bootKernel 40)
    [(0, .mapzero 8192), (0, .load 5000)]
    (fun _ k => decide ((k.proc 0).state = .runnable ∧ (k.proc 0).InRegion 100 ∧
      leaf k.phys.mem (k.proc 0).pagetable 0 = none)) (by decide +kernel)
  obtain ⟨hstate, hin, hnone⟩ := of_decide_eq_true hcheck
  exact ⟨events, k, hrun, hops, hin,
    (pageFault_after_run bootKernel_forty.1 hrun hstate 100).2 fun _ => .inl hnone⟩

end Concrete

end Xv6
