import Xv6.Proc.Guarded

/-!
# The users of the shared page

In every state that guarded moves reach, the reference count is the number of processes that map the
shared page, each of them maps it at its own address only, and the page goes back to the free list in
the step after which no process maps it any more. A second `fork` by a process that shares the page
already maps it a second time.
-/

namespace Xv6

open Library Vm

/-- The page table of the process maps the page. -/
def Proc.Maps (p : Proc) (s : Phys) (page : ℕ) : Prop :=
  ∃ v w, leaf s.mem p.pagetable v = some w ∧ PTE2PA w = page

open Classical in
/-- The processes that have not been freed yet and whose page table maps a page. -/
noncomputable def Kernel.mappers (k : Kernel) (page : ℕ) : Finset (Fin NPROC) :=
  Finset.univ.filter fun i => (k.proc i).Live ∧ (k.proc i).Maps k.phys page

open Classical in
theorem mem_mappers {k : Kernel} {page : ℕ} {i : Fin NPROC} :
    i ∈ k.mappers page ↔ (k.proc i).Live ∧ (k.proc i).Maps k.phys page := by
  rw [Kernel.mappers, Finset.mem_filter]
  exact ⟨fun h => h.2, fun h => ⟨Finset.mem_univ i, h⟩⟩

section Users

variable [KernelImage] {k k' : Kernel} {i : Fin NPROC}

/-- A process maps the shared page exactly when its record says so. -/
theorem SlotOk.maps_iff {p : Proc} {s : Phys} {page : ℕ} (h : SlotOk p s page) (hpage : page ≠ 0) :
    p.Maps s page ↔ p.shmVa ≠ 0 := by
  constructor
  · intro hmaps
    obtain ⟨v, w, hw, heq⟩ := hmaps
    exact (h.only hpage v w hw heq).1
  · intro hne
    obtain ⟨-, -, hshare⟩ := h.sharer hne
    exact ⟨_, _, hshare.mapped, PTE2PA_mkPte hshare.page.1 hshare.page.lt_two_pow (by decide)⟩

/-- The processes that share the page are those that map it. -/
theorem Kernel.Layout.mappers_eq (h : k.Layout) (hpage : k.sharedPage ≠ 0) :
    k.mappers k.sharedPage = k.sharers := by
  ext i
  rw [mem_mappers, mem_sharers]
  refine and_congr_right fun hi => ?_
  exact (h.slot i hi).maps_iff hpage

/-- Nobody maps a page of the free list. -/
theorem Kernel.Layout.mappers_free (h : k.Layout) {page : ℕ} (hfree : page ∈ k.phys.freelist) :
    k.mappers page = ∅ := by
  apply Finset.eq_empty_of_forall_notMem
  intro i hi
  obtain ⟨hlive, v, w, hw, rfl⟩ := mem_mappers.1 hi
  exact (h.page_out hlive hw).1 hfree

/-- A release either keeps the shared page or frees it. -/
theorem Kernel.Released.shared_cases {freed : List ℕ} (h : k.Invariant) (hi : (k.proc i).Live)
    (hr : k.Released k' i freed) (hpage : k.sharedPage ≠ 0) :
    k'.sharedPage = k.sharedPage ∨ k'.sharedPage = 0 ∧ k.sharedPage ∈ k'.phys.freelist := by
  by_cases hlast : k.LastShare (k.proc i)
  · refine .inr ⟨hr.shared_of_last hlast, ?_⟩
    rw [hr.freed.freelist]
    exact List.mem_append_left _ ((hr.shared_freed_iff h hi hpage).2 hlast)
  · left
    by_cases hshares : (k.proc i).Shares
    · exact (hr.shared_of_kept hshares hlast).1
    · exact (hr.shared_of_not hshares).1

/-- A guarded move either keeps the shared page or frees it. -/
theorem Kernel.Guarded.shared_cases {e : Event} (h : k.Invariant) (hg : k.Guarded e k') (hpage : k.sharedPage ≠ 0) :
    k'.sharedPage = k.sharedPage ∨ k'.sharedPage = 0 ∧ k.sharedPage ∈ k'.phys.freelist := by
  obtain ⟨i, op, o⟩ := e
  obtain ⟨hstep, hadmits⟩ := hg
  change k.Step .lazy i op o k' at hstep
  have hlive := hstep.live
  have hslot := h.layout.slot i hlive
  have hmemory : op.OnMemory → k'.sharedPage = k.sharedPage := by
    intro hop
    obtain ⟨p', s', -, hafter⟩ := hstep.memEffect hslot.ok hop
    exact hafter.spec.2.2.2.2.1
  have hrule : ∀ Q : Kernel → Prop, Allows (runOp .lazy i op) k (fun _ k' => Q k') → Q k' :=
    fun Q hQ => hQ o k' hstep.2
  cases op with
  | sbrk | mapzero | mapRo | load | store | copyin | copyout => exact .inl (hmemory trivial)
  | setshm =>
    left
    apply hrule fun k' => k'.sharedPage = k.sharedPage
    rw [runOp, allows_bind, allows_onProc, allows_pure, allows_pure]
    rfl
  | fork =>
    left
    have husar : (k.proc i).usarMemoriaCompartida = false := by
      rw [← Bool.not_eq_true]
      exact fun hu => hpage (hadmits hu).1
    apply hrule fun k' => k'.sharedPage = k.sharedPage
    rw [runOp, allows_bind]
    refine (kfork_unshared h hlive husar).allows.mono ?_
    intro r k₁ hr
    rw [allows_pure]
    obtain ⟨-, rfl | ⟨s', rfl, -⟩⟩ | ⟨np, tf, root, s, -, -, -, rfl, -⟩ := hr
    · rfl
    · rfl
    · rfl
  | exec path file argv =>
    left
    apply hrule fun k' => k'.sharedPage = k.sharedPage
    rw [runOp, allows_bind, allows_onProc]
    intro r s' _
    rw [allows_pure]
    rfl
  | exit status =>
    left
    apply hrule fun k' => k'.sharedPage = k.sharedPage
    rw [runOp, allows_bind]
    intro a k₁ hk₁
    rw [kexit_run] at hk₁
    by_cases hinit : i = k.initproc
    · rw [if_pos hinit] at hk₁
      cases hk₁
    · rw [if_neg hinit] at hk₁
      cases hk₁
      exact (allows_pure _ _ _).2 rfl
  | wait addr =>
    apply hrule fun k' => k'.sharedPage = k.sharedPage ∨ k'.sharedPage = 0 ∧ k.sharedPage ∈ k'.phys.freelist
    rw [runOp, allows_bind]
    refine (kwait_spec h hlive addr.toNat).mono ?_
    intro r k₁ hk₁
    have hcases : k₁.sharedPage = k.sharedPage ∨
        k₁.sharedPage = 0 ∧ k.sharedPage ∈ k₁.phys.freelist := by
      obtain rfl | ⟨s₁, hgrowth, rfl | ⟨j, freed, hj, -, hreleased⟩⟩ := hk₁
      · exact .inl rfl
      · exact .inl rfl
      · exact Kernel.Released.shared_cases (k := { k with phys := s₁ }) (h.of_growth hlive hgrowth) hj hreleased hpage
    cases r with
    | returned pid => exact (allows_pure _ _ _).2 hcases
    | sleeps => exact (allows_pure _ _ _).2 hcases

/-- In every state that guarded moves reach from the start: the reference count is the number of
processes that map the shared page, they map it at their own address only, and it is not free. A
further guarded move puts it on the free list, which has no page twice, exactly if nobody maps it
afterwards. -/
theorem shared_page_after_run {k₀ : Kernel} {events : List Event} (hboot : k₀.Boot)
    (hrun : Run Kernel.Guarded k₀ events k) (hpage : k.sharedPage ≠ 0) :
    k.refcount = (k.mappers k.sharedPage).card ∧
    (∀ i v w, (k.proc i).Live → leaf k.phys.mem (k.proc i).pagetable v = some w →
      PTE2PA w = k.sharedPage → v * 4096 = (k.proc i).shmVa) ∧
    k.sharedPage ∉ k.phys.freelist ∧
    ∀ e k', k.Guarded e k' → k'.phys.freelist.Nodup ∧
      (k.sharedPage ∈ k'.phys.freelist ↔ k'.mappers k.sharedPage = ∅) := by
  have hinv := hboot.invariant.of_run hrun
  refine ⟨?_, ?_, (hinv.layout.page hpage).2, ?_⟩
  · rw [hinv.layout.mappers_eq hpage]
    exact hinv.counted.count hpage
  · intro i v w hi hw heq
    have hslot := hinv.layout.slot i hi
    obtain ⟨hshm, rfl⟩ := hslot.only hpage v w hw heq
    have haligned := (hslot.sharer hshm).2.2.aligned
    omega
  · intro e k' hg
    have hinv' := hg.invariant hinv
    refine ⟨hinv'.layout.free.nodup, fun hfree => hinv'.layout.mappers_free hfree, ?_⟩
    intro hempty
    obtain hsame | ⟨-, hfree⟩ := hg.shared_cases hinv hpage
    · have hpage' : k'.sharedPage ≠ 0 := hsame ▸ hpage
      rw [← hsame, hinv'.layout.mappers_eq hpage'] at hempty
      exact absurd hempty (hinv'.counted.used hpage').ne_empty
    · exact hfree

end Users

section Concrete

attribute [local instance] linkedImage

/-- A process that forks twice maps the shared page at two addresses. -/
theorem shared_page_mapped_twice : ∃ events k, (bootKernel 40).Boot ∧
    Run (Kernel.Moves .lazy) (bootKernel 40) events k ∧
    events.map (fun e => (e.proc, e.op)) = [(0, .sbrk 4096), (0, .setshm), (0, .fork), (0, .fork)] ∧
    k.sharedPage ≠ 0 ∧ (k.proc 0).state = .runnable ∧ (k.proc 0).shmVa = 2 * 4096 ∧
    (leaf k.phys.mem (k.proc 0).pagetable 1).map PTE2PA = some k.sharedPage ∧
    (leaf k.phys.mem (k.proc 0).pagetable 2).map PTE2PA = some k.sharedPage := by
  obtain ⟨events, k, hreplay, hcheck⟩ := Kernel.exists_replay .lazy (bootKernel 40)
    [(0, .sbrk 4096), (0, .setshm), (0, .fork), (0, .fork)]
    (fun _ k => decide (k.sharedPage ≠ 0 ∧ (k.proc 0).state = .runnable ∧ (k.proc 0).shmVa = 2 * 4096 ∧
      (leaf k.phys.mem (k.proc 0).pagetable 1).map PTE2PA = some k.sharedPage ∧
      (leaf k.phys.mem (k.proc 0).pagetable 2).map PTE2PA = some k.sharedPage)) (by decide +kernel)
  obtain ⟨hrun, hops⟩ := Kernel.run_of_replay hreplay
  exact ⟨events, k, bootKernel_forty.1, hrun, hops, of_decide_eq_true hcheck⟩

/-- After the first `fork` the page has two users. -/
theorem shared_page_after_fork : ∃ events k, Run Kernel.Guarded (bootKernel 40) events k ∧
    events.map (fun e => (e.proc, e.op)) = [(0, .sbrk 4096), (0, .setshm), (0, .fork)] ∧
    k.sharedPage ≠ 0 ∧ k.refcount = 2 ∧ (k.mappers k.sharedPage).card = 2 := by
  obtain ⟨events, k, hrun, hops, hcheck⟩ := Kernel.exists_replayGuarded (bootKernel 40)
    [(0, .sbrk 4096), (0, .setshm), (0, .fork)]
    (fun _ k => decide (k.sharedPage ≠ 0 ∧ k.refcount = 2)) (by decide +kernel)
  obtain ⟨hpage, hcount⟩ := of_decide_eq_true hcheck
  have husers := (shared_page_after_run bootKernel_forty.1 hrun hpage).1
  refine ⟨events, k, hrun, hops, hpage, hcount, ?_⟩
  rw [hcount] at husers
  exact_mod_cast husers.symm

end Concrete

end Xv6
