import Xv6.Proc.SysInvariant
import Xv6.Vm.CloneSpec

/-!
# What `fork` does

`fork` gives a new slot a copy of the mapped pages of the parent below its size. The pages of the child
all come from the free list. If memory runs out, all of them are free again. A parent that has asked
for shared memory also gets the shared page, above its old memory, together with its child.
-/

namespace Xv6

open Function Kernel Library List Vm

variable [KernelImage]

/-- The record of a child before it may run. -/
def childProc (p : Proc) (i : Fin NPROC) (pid tf root : ℕ) : Proc :=
  { newProc pid tf root with sz := p.sz, name := p.name, traceMask := p.traceMask, parent := some i }

/-- More pages than `fork` takes before it shares memory: six for the trapframe and the first tables of the
child, and for each mapped page below the size of the parent a copy and two tables. -/
def Kernel.forkPages (k : Kernel) (i : Fin NPROC) : ℕ :=
  6 + 3 * mappedBelow k.phys.mem (k.proc i).pagetable (pageCount (k.proc i).sz)

/-- The memory of a child: a copy of the memory of its parent, in pages from the free list. -/
structure ChildMemory (k : Kernel) (i : Fin NPROC) (root tf : ℕ) (s : Phys) : Prop where
  space : ProcSpace s root tf
  copy : ∀ v < pageCount (k.proc i).sz, ∀ w, leaf k.phys.mem (k.proc i).pagetable v = some w →
    ∃ m ∈ k.phys.freelist, leaf s.mem root v = some (mkPte m (PTE_FLAGS w)) ∧
      s.mem m = k.phys.mem (PTE2PA w)
  hole : ∀ v < pageCount (k.proc i).sz, leaf k.phys.mem (k.proc i).pagetable v = none →
    leaf s.mem root v = none
  only : ∀ v w, leaf s.mem root v = some w → v < pageCount (k.proc i).sz ∨ v = trampVpn ∨ v = tfVpn
  frame : ∀ x, x ∉ k.phys.freelist → s.mem x = k.phys.mem x
  exhausted : s.exhausted = k.phys.exhausted
  length : k.phys.freelist.length ≤ s.freelist.length + k.forkPages i

/-- `fork` has failed: no record has changed, and no page is lost. -/
def ForkFailed (k k' : Kernel) : Prop :=
  k' = k ∨ ∃ s', k' = { k with phys := s', nextpid := k.nextpid + 1 } ∧ Restored k.phys s'

section Child

variable {k : Kernel} {i np : Fin NPROC} {root tf : ℕ} {s₁ s₂ : Phys}

/-- The pages of the parent are out of reach for the new address space. -/
theorem Kernel.Layout.separate (h : k.Layout) (hi : (k.proc i).Live)
    (hnew : NewMemory root tf k.phys s₁) : Separate (k.proc i).pagetable root s₁ ∧
      (∀ t ∈ tables k.phys.mem (k.proc i).pagetable, s₁.mem t = k.phys.mem t) := by
  have hslot := h.slot i hi
  have hsame : ∀ t ∈ tables k.phys.mem (k.proc i).pagetable, s₁.mem t = k.phys.mem t := by
    intro t ht
    exact hnew.frame t (hslot.not_free (reach_mono _ (by decide) _ ht))
  have hout : ∀ x ∈ (k.proc i).reached k.phys, x ∉ tables s₁.mem root ∧ x ∉ s₁.freelist := by
    intro x hx
    have hfree := hslot.not_free hx
    exact ⟨fun ht => hfree ((hnew.split x).2 (.inr (.inl ht))), fun hf => hfree ((hnew.split x).2 (.inr (.inr hf)))⟩
  refine ⟨⟨?_, ?_⟩, hsame⟩
  · intro t ht
    rw [tables_congr hsame] at ht
    exact hout t (reach_mono _ (by decide) _ ht)
  · intro v w hw
    rw [leaf_congr hsame] at hw
    exact hout _ (mem_reach_three.2 (.inr ⟨v, w, hw, rfl⟩))

/-- The trapframe of the new process is a page of its own. -/
theorem NewMemory.trapframe_out {s : Phys} (hnew : NewMemory root tf s s₁) :
    tf ∈ s.freelist ∧ tf ∉ tables s₁.mem root ∧ tf ∉ s₁.freelist := by
  have hout := hnew.space.within.mapped_out hnew.space.tfLeaf
  rw [hnew.space.PTE2PA_tf] at hout
  exact ⟨(hnew.split tf).2 (.inl rfl), hout⟩

/-- The copied memory, with the trapframe filled in. -/
theorem childMemory_of_copied (h : k.Layout) (hi : (k.proc i).Live) (hnew : NewMemory root tf k.phys s₁)
    (hc : Copied (k.proc i).pagetable root (pageCount (k.proc i).sz) s₁ s₂) (page : Page) :
    ChildMemory k i root tf (s₂.setPage tf page) ∧ SpaceStep root s₁ (s₂.setPage tf page) := by
  have hslot := h.slot i hi
  obtain ⟨hsep, hsame⟩ := h.separate hi hnew
  obtain ⟨htf, htftable, htffree⟩ := hnew.trapframe_out
  have hcount := pageCount_le hslot.ok.size
  have hproc₂ : ProcSpace s₂ root tf := by
    refine hnew.space.of_step hc.quiet.step ?_
    intro v hv
    exact hc.others v (hcount.trans hv)
  have hwrite : LeafGrowth root (fun _ _ => True) s₂ (s₂.setPage tf page) := by
    have hpage : PageAddress (PTE2PA (mkPte tf (PTE_R ||| PTE_W))) := by
      rw [hproc₂.PTE2PA_tf]
      exact hproc₂.tfPage
    have hw : LeafGrowth root (fun _ _ => True) s₂
        (s₂.setPage (PTE2PA (mkPte tf (PTE_R ||| PTE_W))) page) :=
      leafGrowth_write hproc₂.within hproc₂.tfLeaf hpage page
    rwa [hproc₂.PTE2PA_tf] at hw
  have hkeep : ∀ x, x ≠ tf → (s₂.setPage tf page).mem x = s₂.mem x := by
    intro x hx
    exact update_of_ne hx _ _
  have htf₂ : tf ∉ tables s₂.mem root := by
    have hout := hproc₂.within.mapped_out hproc₂.tfLeaf
    rw [hproc₂.PTE2PA_tf] at hout
    exact hout.1
  have hleaf : ∀ v, leaf (s₂.setPage tf page).mem root v = leaf s₂.mem root v := by
    apply leaf_congr
    intro t ht
    exact hkeep t fun heq => htf₂ (heq ▸ ht)
  refine ⟨⟨hwrite.procSpace hproc₂, ?_, ?_, ?_, ?_, hc.exhausted.trans hnew.exhausted, ?_⟩,
    hc.quiet.step.trans hwrite.step⟩
  · intro v hv w hw
    rw [← leaf_congr hsame] at hw
    obtain ⟨m, hm, hmleaf, hmem⟩ := hc.copy v hv w hw
    refine ⟨m, (hnew.split m).2 (.inr (.inr hm)), (hleaf v).trans hmleaf, ?_⟩
    rw [hkeep m fun heq => htffree (heq ▸ hm), hmem]
    rw [leaf_congr hsame] at hw
    exact hnew.frame _ (hslot.not_free (mem_reach_three.2 (.inr ⟨v, w, hw, rfl⟩)))
  · intro v hv hw
    rw [← leaf_congr hsame] at hw
    exact (hleaf v).trans (hc.hole v hv hw)
  · intro v w hw
    rw [hleaf] at hw
    by_cases hv : v < pageCount (k.proc i).sz
    · exact .inl hv
    · rw [hc.others v (not_lt.1 hv)] at hw
      exact .inr (hnew.only v w hw)
  · intro x hx
    have h1 : x ∉ tables s₁.mem root := fun ht => hx ((hnew.split x).2 (.inr (.inl ht)))
    have h2 : x ∉ s₁.freelist := fun hf => hx ((hnew.split x).2 (.inr (.inr hf)))
    rw [hkeep x fun heq => hx (heq ▸ htf), hc.quiet.same x h1 h2]
    exact hnew.frame x hx
  · have hcopied := hc.length
    have hcreated := hnew.length
    rw [mappedBelow, funext (leaf_congr hsame)] at hcopied
    change _ ≤ s₂.freelist.length + (6 + 3 * Nat.count _ _)
    omega

omit [KernelImage] in
/-- Two stages of one new slot differ nowhere else. -/
theorem elsewhere_staged (k : Kernel) (i : Fin NPROC) (p q : Proc) (s s' : Phys) :
    (k.staged i p s).Elsewhere (k.staged i q s') i := by
  refine ⟨fun j hj => ?_, fun j hj => ?_, fun j hj h => ?_⟩
  · rw [staged_proc_of_ne k hj, staged_proc_of_ne k hj]
    exact Proc.SameMemory.refl _
  · rw [staged_proc_of_ne k hj, staged_proc_of_ne k hj]
  · rw [staged_proc_of_ne k hj] at h ⊢
    exact h

/-- The invariant holds once the child has its memory and size. -/
theorem Kernel.Invariant.child (h : k.Invariant) (hnp : ¬ (k.proc np).Live) (hnew : NewMemory root tf k.phys s₁)
    {q : Proc} {s' : Phys} (hstep : SpaceStep root s₁ s') (hspace : ProcSpace s' root tf) (hlive : q.Live)
    (hroot : q.pagetable = root) (htf : q.trapframe = tf) (hsz : q.sz ≤ TRAPFRAME) (hvr : q.vr.active = false)
    (hro : q.mapRoVa = 0) (hshm : q.shmVa = 0) : (k.staged np q s').Invariant := by
  have hcreated : (k.staged np (newProc k.nextpid tf root) s₁).Invariant := h.created hnp hnew
  have hself := staged_proc_self k np (newProc k.nextpid tf root) s₁
  have hself' := staged_proc_self k np q s'
  refine hcreated.of_step (i := np) ?_ (elsewhere_staged k np _ q s₁ s') ?_ rfl rfl ?_ ?_ ?_ ?_ ?_ ?_ ?_
  · rw [hself]
    exact nofun
  · rw [hself']
    exact hlive
  · rw [hself]
    exact hstep
  · rw [hself, hself', hroot]
    rfl
  · rw [hself']
    refine ⟨by rw [hroot, htf]; exact hspace, hsz, fun hact => ?_⟩
    rw [hvr] at hact
    cases hact
  · rw [hself', Proc.MapRoOk, hro]
    exact ⟨rfl, by decide⟩
  · rw [hself, hself', hshm]
    rfl
  · rw [hself]
    exact fun hne => absurd rfl hne
  · rw [hself]
    exact fun _ hne => absurd rfl hne

end Child

section Kfork

variable {k : Kernel} {i np : Fin NPROC} {root tf : ℕ} {s₁ s₂ : Phys}

/-- A child whose memory could not be copied is given back. -/
theorem freeproc_child (h : k.Invariant) (hnp : ¬ (k.proc np).Live)
    (hnew : NewMemory root tf k.phys s₁) (hex : Exhausted root s₁ s₂) :
    Ensures (freeproc np) (k.staged np (newProc k.nextpid tf root) s₂) fun _ k' =>
      ForkFailed k k' ∧ k'.phys.exhausted = true := by
  have hspace : ProcSpace s₂ root tf := hnew.space.of_step hex.quiet.step fun v _ => hex.leaf_eq v
  have hinv := h.child (q := newProc k.nextpid tf root) hnp hnew hex.quiet.step hspace
    nofun rfl rfl (Nat.zero_le _) rfl rfl rfl
  have hself := staged_proc_self k np (newProc k.nextpid tf root) s₂
  have hlive : ((k.staged np (newProc k.nextpid tf root) s₂).proc np).Live := by
    rw [hself]
    exact nofun
  have hnoshare : ¬ ((k.staged np (newProc k.nextpid tf root) s₂).proc np).Shares := by
    rw [hself]
    exact fun hf => nomatch hf.1
  refine ((freeproc_released hinv.layout hlive).ensures ?_).mono ?_
  · intro _ he
    apply he
    rw [hself]
    refine ⟨fun v w hw hv => ?_, nofun⟩
    have hw' : leaf s₁.mem root v = some w := (hex.leaf_eq v).symm.trans hw
    obtain rfl | rfl := hnew.only v w hw'
    · exact absurd hv (by decide)
    · exact absurd hv (by decide)
  · intro _ k' hk'
    obtain ⟨freed, hr⟩ := hk'
    have hfreed := hr.freed
    have hok := (hinv.layout.slot np hlive).ok
    have heq : k' = { k with phys := k'.phys, nextpid := k.nextpid + 1 } := by
      have heq := hr.eq
      rw [unshare, if_neg hnoshare] at heq
      rw [← staged_eq (h.layout.unused np hnp) k'.phys]
      conv_lhs => rw [heq]
      rw [staged_setProc]
      rfl
    rw [hself] at hfreed hok
    have hexhausted : k'.phys.exhausted = true := by
      rw [hfreed.exhausted]
      exact hex.exhausted
    refine ⟨.inr ⟨k'.phys, heq, hok.freeOk_of_freed hfreed, ?_, ?_, hexhausted⟩, hexhausted⟩
    · -- the pages of the child and the free list are what was free before
      intro x
      rw [← hnew.mem_resources x, ← hex.quiet.step.conserve, hspace.mem_resources, hfreed.freelist,
        mem_append, hfreed.mem_iff]
      refine or_congr_left (or_congr_right ?_)
      constructor
      · rintro ⟨v, w, hw, hwx, hv, -⟩
        exact ⟨v, w, hw, hwx, hv⟩
      · rintro ⟨v, w, hw, hwx, hv⟩
        exact ⟨v, w, hw, hwx, hv, fun hkept => nomatch hkept.1.1.1⟩
    · intro x hx
      have hres : x ∉ resources s₁ root := fun hm => hx ((hnew.mem_resources x).1 hm)
      have hpages : x ∉ (newProc k.nextpid tf root).pages s₂
          ((k.staged np (newProc k.nextpid tf root) s₂).keptPages (newProc k.nextpid tf root)) := by
        intro hp
        obtain ⟨h1, h2, -⟩ := hok.pages_out hp
        exact hres (hex.quiet.step.conserve ▸ ⟨h1, .inl h2⟩)
      rw [hfreed.frame x hpages]
      exact (hex.quiet.step.frame x hres).trans (hnew.frame x hx)

/-- `fork` up to the point where the child has its memory and size. -/
theorem kfork_rule {Q : ℤ → Kernel → Prop} {R : Panic → Prop} (h : k.Invariant)
    (hi : (k.proc i).Live) (hfail : ∀ k', ForkFailed k k' →
      ((k.unusedSlot = none ∧ k' = k) ∨ k'.phys.exhausted = true) → Q (-1) k')
    (hchild : ∀ np tf root s, k.unusedSlot = some np → ChildMemory k i root tf s →
      (k.staged np (childProc (k.proc i) i k.nextpid tf root) s).Invariant →
      Yields (if (k.proc i).usarMemoriaCompartida then do
          let _ ← crearMemoriaCompartida i np
          modify fun k => k.setProc np { k.proc np with usarMemoriaCompartida := true }
          modify fun k => k.setProc np { k.proc np with state := .runnable }
          pure (k.nextpid : ℤ)
        else do
          modify fun k => k.setProc np { k.proc np with state := .runnable }
          pure (k.nextpid : ℤ))
        (k.staged np (childProc (k.proc i) i k.nextpid tf root) s) Q R) :
    Yields (kfork i) k Q R := by
  have hslots : ∀ j, (k.proc j).state = .unused → k.proc j = Proc.empty :=
    fun j hj => h.layout.unused j fun hl => hl hj
  have hslot := h.layout.slot i hi
  rw [kfork, yields_bind]
  apply Ensures.yields
  refine (allocproc_spec h.layout.free hslots).mono ?_
  intro r k₁ hr
  obtain ⟨rfl, hnone, rfl⟩ | ⟨rfl, s', rfl, hrest⟩ | ⟨np, tf, root, s₁, rfl, hnp, rfl, hnew⟩ := hr
  · exact (yields_pure _ _ _ _).2 (hfail _ (.inl rfl) (.inl ⟨hnone, rfl⟩))
  · exact (yields_pure _ _ _ _).2 (hfail _ (.inr ⟨s', rfl, hrest⟩) (.inr hrest.exhausted))
  · have hdead : ¬ (k.proc np).Live := fun hl => hl (unusedSlot_some hnp)
    have hne : i ≠ np := fun heq => hdead (heq ▸ hi)
    have hparent : ∀ p s, (k.staged np p s).proc i = k.proc i := fun p s => staged_proc_of_ne k hne p s
    obtain ⟨hsep, hsame⟩ := h.layout.separate hi hnew
    change Yields (get >>= _) _ _ _
    rw [yields_bind, yields_get, yields_bind, yields_onPhys, hparent, staged_proc_self]
    apply Ensures.yields
    refine (uvmcopy_spec (hslot.ok.space.within.space.congr hsame).perm hnew.space.within hsep hslot.ok.size ?_).mono ?_
    · intro v hv
      by_contra hsome
      obtain ⟨w, hw⟩ := Option.ne_none_iff_exists'.1 hsome
      have hlt := lt_of_lt_of_le hv (pageCount_le hslot.ok.size)
      obtain rfl | rfl := hnew.only v w hw
      · exact absurd hlt (by decide)
      · exact absurd hlt (by decide)
    intro r s₂ hr
    obtain ⟨rfl, hc⟩ | ⟨rfl, hex⟩ := hr
    · -- the memory has been copied
      rw [if_neg (by decide), finishFork, yields_bind, yields_get, yields_bind, yields_onPhys,
        copyTrapframe, yields_modify, yields_bind, yields_modify]
      change Yields (if ((k.staged np (newProc k.nextpid tf root) s₂).proc i).usarMemoriaCompartida
        then _ else _) ((k.staged np (newProc k.nextpid tf root) _).setProc np _) Q R
      rw [staged_setProc, hparent]
      simp only [staged_proc_self, hparent]
      obtain ⟨hmem, hstep⟩ := childMemory_of_copied h.layout hi hnew hc
        ((writeBytes (s₂.mem tf) 0 (readBytes (s₂.mem (k.proc i).trapframe) 0 trapframeBytes)).setWord 8 14 0)
      exact hchild np tf root _ hnp hmem (h.child hdead hnew hstep hmem.space nofun rfl rfl hslot.ok.size rfl rfl rfl)
    · rw [if_pos (by decide), yields_bind]
      apply Ensures.yields
      refine (freeproc_child h hdead hnew hex).mono ?_
      intro _ k' hk'
      exact (yields_pure _ _ _ _).2 (hfail k' hk'.1 (.inr hk'.2))

/-- How `fork` by a process that has not asked for shared memory ends: there is no free slot, memory has
run out, or the first free slot holds a child. -/
def ForkUnshared (k : Kernel) (i : Fin NPROC) (r : ℤ) (k' : Kernel) : Prop :=
  (r = -1 ∧ ForkFailed k k' ∧ ((k.unusedSlot = none ∧ k' = k) ∨ k'.phys.exhausted = true)) ∨
    ∃ np tf root s, r = k.nextpid ∧ k.unusedSlot = some np ∧ ChildMemory k i root tf s ∧
      k' = k.staged np { childProc (k.proc i) i k.nextpid tf root with state := .runnable } s ∧
      k'.Invariant

/-- `fork` by a process that has not asked for shared memory. -/
theorem kfork_unshared (h : k.Invariant) (hi : (k.proc i).Live)
    (husar : (k.proc i).usarMemoriaCompartida = false) : Ensures (kfork i) k (ForkUnshared k i) := by
  have hrule : Yields (kfork i) k (ForkUnshared k i) (fun _ => False) := by
    refine kfork_rule h hi (fun k' hk' hreason => .inl ⟨rfl, hk', hreason⟩) ?_
    intro np tf root s hnp hmem hinv
    rw [husar, if_neg Bool.false_ne_true, yields_bind, yields_modify, yields_pure]
    right
    refine ⟨np, tf, root, s, rfl, hnp, hmem, ?_, ?_⟩
    · rw [staged_setProc, staged_proc_self]
    · refine hinv.record ?_ nofun ?_ ?_
      · rw [staged_proc_self]
        exact nofun
      · exact ⟨rfl, rfl, rfl, rfl, rfl, rfl, rfl⟩
      · rw [staged_proc_self]
        exact fun hne => absurd rfl hne
  exact hrule.ensures fun _ he => he

end Kfork

section Share

variable {k : Kernel} {i np : Fin NPROC}

/-- The record of a process after the shared page has been mapped. -/
def Proc.sharing (p : Proc) (va : ℕ) : Proc :=
  { p with sz := va + PGSIZE, shmVa := va, usarMemoriaCompartida := true }

/-- A process gets the shared page. -/
theorem Kernel.Layout.share (va : ℕ) (s' : Phys) (taken : List ℕ) (h : k.Layout)
    (hi : (k.proc i).Live) (hpage : k.sharedPage ≠ 0)
    (hnot : k.sharedPage ∉ (k.proc i).reached k.phys) (hva : va % 4096 = 0) (hlow : va < TRAPFRAME)
    (hzero : va ≠ 0) (hg : Grown (k.proc i).pagetable k.phys s' taken
      (Function.update (leaf k.phys.mem (k.proc i).pagetable) (va / 4096)
        (some (mkPte k.sharedPage (PTE_W ||| PTE_R ||| PTE_U))))) :
    ({ k with phys := s' }.setProc i ((k.proc i).sharing va)).Layout := by
  have hslot := h.slot i hi
  have hpa := (h.page hpage).1
  have hlow' : va < 2 ^ 38 - 4096 - 4096 := hlow
  have hself : ({ k with phys := s' }.setProc i ((k.proc i).sharing va)).proc i =
      (k.proc i).sharing va := setProc_proc_self _ i _
  have hlive : ((k.proc i).sharing va).Live := hi
  have hpte : PTE2PA (mkPte k.sharedPage (PTE_W ||| PTE_R ||| PTE_U)) = k.sharedPage :=
    PTE2PA_mkPte hpa.1 hpa.lt_two_pow (by decide)
  have hspace : SpaceIn s' (k.proc i).pagetable :=
    hg.foreign hslot.ok.space.within hpte (by decide) (fun _ => hpa) hnot (h.page hpage).2
  have hhigh : ∀ v, tfVpn ≤ v →
      leaf s'.mem (k.proc i).pagetable v = leaf k.phys.mem (k.proc i).pagetable v := by
    intro v hv
    have hv' : 67108862 ≤ v := hv
    rw [hg.leaf_eq, update_of_ne (by omega)]
  have hok := hslot.ok.space
  refine h.update i (elsewhere_setProc k i _ s') hspace.free ?_ (fun x hx => .inl (hg.free_sub hx))
    (.inl rfl) ?_ ?_ ?_ ?_
  · intro x hf hr
    exact hg.quiet (fun ht => hr hi (reach_mono _ (by decide) _ ht)) hf
  · intro hp
    exact ⟨hpa, fun hx => (h.page hp).2 (hg.free_sub hx)⟩
  · rw [hself]
    exact fun hn => absurd hlive hn
  · rw [hself]
    intro _
    refine ⟨⟨⟨hspace, ?_, ?_, hok.tfPage⟩, ?_, hslot.ok.region⟩, hslot.mapRo, ?_, ?_, ?_⟩
    · exact (hhigh trampVpn (by decide)).trans hok.tramp
    · exact (hhigh tfVpn (le_refl _)).trans hok.tfLeaf
    · change va + 4096 ≤ 2 ^ 38 - 4096 - 4096
      omega
    · intro _ ht
      obtain ht | ht := (hg.tables_iff _).1 ht
      · exact hslot.notTable hpage ht
      · exact (h.page hpage).2 (hg.taken_sub ht)
    · intro _
      refine ⟨hpage, rfl, hva, hlow, ?_, hpa⟩
      exact (hg.leaf_eq _).trans (update_self _ _ _)
    · intro _ v w hw hwx
      refine ⟨hzero, ?_⟩
      by_contra hv
      have hne : v ≠ va / 4096 := hv
      have hw' : leaf s'.mem (k.proc i).pagetable v = some w := hw
      rw [hg.leaf_eq, update_of_ne hne] at hw'
      exact hnot (mem_reach_three.2 (.inr ⟨v, w, hw', hwx⟩))
  · rw [hself]
    intro _ x hx hxpa
    obtain ht | ⟨v, w, hw, hwx⟩ := mem_reach_three.1 hx
    · obtain ht | ht := (hg.tables_iff _).1 ht
      · exact .inr (.inl ⟨hi, reach_mono _ (by decide) _ ht⟩)
      · exact .inl (hg.taken_sub ht)
    · have hw' : leaf s'.mem (k.proc i).pagetable v = some w := hw
      rw [hg.leaf_eq] at hw'
      obtain ⟨-, rfl⟩ | ⟨-, hold⟩ := update_eq_some hw'
      · exact .inr (.inr (hwx.symm.trans hpte))
      · exact .inr (.inl ⟨hi, mem_reach_three.2 (.inr ⟨v, w, hold, hwx⟩)⟩)

omit [KernelImage] in
/-- Taking a page to be shared, when there is none yet. -/
theorem takeSharedPage_spec (hzero : k.sharedPage = 0) :
    Ensures takeSharedPage k fun r k' =>
      (r = none ∧ k.phys.freelist = [] ∧ k' = { k with phys := { k.phys with exhausted := true } }) ∨
      ∃ page s', r = some page ∧ k.phys.freelist = page :: s'.freelist ∧
        (∀ x, x ≠ page → s'.mem x = k.phys.mem x) ∧
        k' = { k with phys := s', sharedPage := page, refcount := 2 } := by
  rw [takeSharedPage, ensures_bind, ensures_get, if_pos hzero, ensures_bind, ensures_onPhys]
  refine kalloc_spec ?_ ?_
  · intro hnil
    exact (ensures_pure _ _ _).2 (.inl ⟨rfl, hnil, rfl⟩)
  · intro page rest hcons
    change Ensures (onPhys (memset page 0) >>= _) _ _
    rw [ensures_bind, ensures_onPhys, ensures_memset, ensures_bind, ensures_modify, ensures_pure]
    refine .inr ⟨page, _, rfl, hcons, ?_, rfl⟩
    intro x hx
    exact (update_of_ne hx _ _).trans (update_of_ne hx _ _)

/-- Nobody has a share while there is no shared page. -/
theorem Kernel.Layout.no_share (h : k.Layout) (hzero : k.sharedPage = 0) (j : Fin NPROC) :
    (k.proc j).shmVa = 0 := by
  by_cases hj : (k.proc j).Live
  · by_contra hne
    exact ((h.slot j hj).sharer hne).1 hzero
  · rw [h.unused j hj]
    rfl

/-- A free page becomes the shared page. -/
theorem Kernel.Layout.take (h : k.Layout) (hzero : k.sharedPage = 0) {page : ℕ} {s' : Phys}
    (hcons : k.phys.freelist = page :: s'.freelist) (hmem : ∀ x, x ≠ page → s'.mem x = k.phys.mem x) :
    Kernel.Layout { k with phys := s', sharedPage := page, refcount := 2 } ∧ page ≠ 0 ∧
      ∀ j, (k.proc j).Live → page ∉ (k.proc j).reached s' := by
  have hfree := h.free
  rw [hcons] at hfree
  have hnodup := nodup_cons.1 hfree.nodup
  have hpa : PageAddress page := hfree.valid page mem_cons_self
  have hmemfree : page ∈ k.phys.freelist := hcons ▸ mem_cons_self
  refine ⟨h.untouched rfl ⟨hnodup.2, fun x hx => hfree.valid x (mem_cons_of_mem _ hx)⟩ ?_ ?_ ?_ ?_, hpa.ne_zero, ?_⟩
  · intro x hx
    rw [hcons]
    exact mem_cons_of_mem _ hx
  · intro x hx
    exact hmem x fun heq => hx (heq ▸ hmemfree)
  · exact .inr ⟨fun _ => hmemfree, fun j _ => h.no_share hzero j⟩
  · intro _
    exact ⟨hpa, hnodup.1⟩
  · intro j hj hx
    have hslot := h.slot j hj
    have hsame : ∀ t ∈ tables k.phys.mem (k.proc j).pagetable, s'.mem t = k.phys.mem t := by
      intro t ht
      exact hmem t fun heq => hslot.not_free (reach_mono _ (by decide) _ ht) (heq ▸ hmemfree)
    rw [Proc.reached_congr hsame (Proc.SameMemory.refl _)] at hx
    exact hslot.not_free hx hmemfree

/-- The two mappings of the page that has been taken. -/
def mapShare (i np : Fin NPROC) (pa : ℕ) : KernelM ℤ := do
  let k ← get
  let va := PGROUNDUP (k.proc i).sz
  let r ← onPhys (mappages (k.proc i).pagetable va PGSIZE pa (PTE_W ||| PTE_R ||| PTE_U))
  if r < 0 then pure (-1)
  else do
    let r ← onPhys (mappages (k.proc np).pagetable va PGSIZE pa (PTE_W ||| PTE_R ||| PTE_U))
    if r < 0 then pure (-1)
    else do
      let share (p : Proc) : Proc :=
        { p with sz := va + PGSIZE, shmVa := va, usarMemoriaCompartida := true }
      modify fun k => k.setProc i (share (k.proc i))
      modify fun k => k.setProc np (share (k.proc np))
      pure 0

omit [KernelImage] in
theorem crearMemoriaCompartida_eq (i np : Fin NPROC) :
    crearMemoriaCompartida i np = (takeSharedPage >>= fun
      | none => pure (-1)
      | some pa => mapShare i np pa) := rfl

/-- The pages that the call takes for the tables of both processes. -/
def Kernel.shareTables (k : Kernel) (i np : Fin NPROC) : ℕ :=
  missing k.phys.mem (pageCount (k.proc i).sz * 4096) 2 (k.proc i).pagetable +
    missing k.phys.mem (pageCount (k.proc i).sz * 4096) 2 (k.proc np).pagetable

/-- The page tables of two processes have been extended by the shared page, one after the other. -/
structure MappedTwice (k : Kernel) (i np : Fin NPROC) (n : ℕ) (s₁ s₂ : Phys) : Prop where
  low : n < tfVpn
  before : ∀ j, j = i ∨ j = np → leaf k.phys.mem (k.proc j).pagetable n = none
  parent : ∃ taken, Grown (k.proc i).pagetable k.phys s₁ taken
    (Function.update (leaf k.phys.mem (k.proc i).pagetable) n
      (some (mkPte k.sharedPage (PTE_W ||| PTE_R ||| PTE_U))))
  child : ∃ taken, Grown (k.proc np).pagetable s₁ s₂ taken
    (Function.update (leaf s₁.mem (k.proc np).pagetable) n
      (some (mkPte k.sharedPage (PTE_W ||| PTE_R ||| PTE_U))))
  same : ∀ t ∈ tables k.phys.mem (k.proc np).pagetable, s₁.mem t = k.phys.mem t
  kept : ∀ t ∈ tables s₁.mem (k.proc i).pagetable, s₂.mem t = s₁.mem t

/-- The kernel in which both records have been changed. -/
def Kernel.shared (k : Kernel) (i np : Fin NPROC) (va : ℕ) (s : Phys) : Kernel :=
  setProc (setProc { k with phys := s } i ((k.proc i).sharing va)) np
    ((k.proc np).sharing va)

/-- The mappings of a page that has been taken: both succeed, memory runs out, or something is in the way. -/
theorem mapShare_spec (h : k.Layout) (hpage : k.sharedPage ≠ 0) (hi : (k.proc i).Live)
    (hnp : (k.proc np).Live) (hne : i ≠ np) :
    Yields (mapShare i np k.sharedPage) k
      (fun r k' => (r = -1 ∧ k.phys.freelist.length < k.shareTables i np ∧ ∃ s', k' = { k with phys := s' }) ∨
        (r = 0 ∧ k.shareTables i np ≤ k.phys.freelist.length ∧ ∃ s₁ s₂,
          MappedTwice k i np (pageCount (k.proc i).sz) s₁ s₂ ∧
            k' = k.shared i np (pageCount (k.proc i).sz * 4096) s₂))
      (fun e => e = .mappagesRemap ∧ ∃ j, (j = i ∨ j = np) ∧
        leaf k.phys.mem (k.proc j).pagetable (pageCount (k.proc i).sz) ≠ none) := by
  obtain ⟨hpa, hout⟩ := h.page hpage
  have hsloti := h.slot i hi
  have hslotn := h.slot np hnp
  have hcount : pageCount (k.proc i).sz ≤ 67108862 := pageCount_le hsloti.ok.size
  rw [mapShare, yields_bind, yields_get, yields_bind, yields_onPhys, shareTables,
    PGROUNDUP_eq (hsloti.ok.size.trans (by decide))]
  generalize pageCount (k.proc i).sz = n at hcount
  have hdiv : n * 4096 / 4096 = n := Nat.mul_div_cancel _ (by decide)
  have hmax : n * 4096 < MAXVA := by
    change n * 4096 < 2 ^ 38
    omega
  cases hleaf : leaf k.phys.mem (k.proc i).pagetable n with
  | some w =>
    refine yields_of_error (mappages_remap (Nat.mul_mod_left _ _) hmax (hdiv.symm ▸ hleaf)) ⟨rfl, i, .inl rfl, ?_⟩
    rw [hleaf]
    exact Option.some_ne_none w
  | none =>
    have hlow : n < tfVpn := by
      refine lt_of_le_of_ne hcount ?_
      rintro rfl
      exact none_elim hleaf hsloti.ok.space.tfLeaf
    have hwithin := hsloti.ok.space.within
    apply Ensures.yields
    refine (mappages_one (Nat.mul_mod_left _ _) hmax (by decide) hpa.1 hpa.lt_two_pow hwithin.space.tree
      hwithin.free hwithin.apart (hdiv.symm ▸ hleaf) (hsloti.notTable hpage) hout).mono ?_
    rw [hdiv]
    rintro r s₁ ⟨taken, ⟨rfl, hg, -, hroom⟩ | ⟨rfl, -, -, -, hroom⟩⟩
    · rw [if_neg (by decide), yields_bind, yields_onPhys]
      -- the tables of the child are as before
      have hsame : ∀ t ∈ tables k.phys.mem (k.proc np).pagetable, s₁.mem t = k.phys.mem t := by
        intro t ht
        obtain ⟨hnotfree, hnotreach⟩ := h.table_out hne.symm hnp ht
        exact hg.quiet (fun ht' => hnotreach hi (reach_mono _ (by decide) _ ht')) hnotfree
      have hslot : SlotOk (k.proc np) s₁ k.sharedPage :=
        hslotn.frame (Proc.SameMemory.refl _) hsame (hg.freeOk h.free)
          (fun x hx hx' => hslotn.not_free hx' (hg.free_sub hx)) (.inl rfl)
      have hwithin' := hslot.ok.space.within
      cases hnone : leaf k.phys.mem (k.proc np).pagetable n with
      | some w =>
        refine yields_of_error (mappages_remap (w := w) (Nat.mul_mod_left _ _) hmax ?_) ⟨rfl, np, .inr rfl, ?_⟩
        · rw [hdiv, leaf_congr hsame, hnone]
        · rw [hnone]
          exact Option.some_ne_none w
      | none =>
        apply Ensures.yields
        refine (mappages_one (Nat.mul_mod_left _ _) hmax (by decide) hpa.1 hpa.lt_two_pow
          hwithin'.space.tree hwithin'.free hwithin'.apart ?_ (hslot.notTable hpage)
          (fun hx => hout (hg.free_sub hx))).mono ?_
        · rw [hdiv, leaf_congr hsame, hnone]
        rw [hdiv, missing_congr hsame]
        rintro r s₂ ⟨taken', ⟨rfl, hg', -, hroom'⟩ | ⟨rfl, -, -, -, hroom'⟩⟩
        · rw [if_neg (by decide), yields_bind, yields_modify, yields_bind, yields_modify, yields_pure]
          refine .inr ⟨rfl, by omega, s₁, s₂, ⟨hlow, ?_, ⟨taken, hg⟩, ⟨taken', hg'⟩, hsame, ?_⟩, ?_⟩
          · rintro j (rfl | rfl)
            · exact hleaf
            · exact hnone
          · -- the tables of the parent are not those of the child
            intro t ht
            refine hg'.quiet ?_ ?_
            · rw [tables_congr hsame]
              intro ht'
              obtain ⟨hnotfree, hnotreach⟩ := h.table_out hne.symm hnp ht'
              obtain hold | hnew := (hg.tables_iff t).1 ht
              · exact hnotreach hi (reach_mono _ (by decide) _ hold)
              · exact hnotfree (hg.taken_sub hnew)
            · intro ht'
              obtain hold | hnew := (hg.tables_iff t).1 ht
              · exact hsloti.not_free (reach_mono _ (by decide) _ hold) (hg.free_sub ht')
              · exact (nodup_append.1 (hg.freelist ▸ h.free.nodup)).2.2 t hnew t ht' rfl
          · rw [setProc_proc_of_ne _ hne.symm]
            rfl
        · rw [if_pos (by decide), yields_pure]
          exact .inl ⟨rfl, by omega, s₂, rfl⟩
    · rw [if_pos (by decide), yields_pure]
      exact .inl ⟨rfl, by omega, s₁, rfl⟩

omit [KernelImage] in
/-- Two processes and no other share the page. -/
theorem sharers_pair {k' : Kernel} (hother : ∀ j, j ≠ i → j ≠ np → (k'.proc j).shmVa = 0)
    (hi : (k'.proc i).Live ∧ (k'.proc i).shmVa ≠ 0)
    (hnp : (k'.proc np).Live ∧ (k'.proc np).shmVa ≠ 0) : k'.sharers = {i, np} := by
  ext j
  rw [mem_sharers, Finset.mem_insert, Finset.mem_singleton]
  constructor
  · intro hj
    by_contra hout
    rw [not_or] at hout
    exact hj.2 (hother j hout.1 hout.2)
  · intro hj
    obtain rfl | rfl := hj
    · exact hi
    · exact hnp

/-- Two processes have got the shared page at a page number, and keep the rest of their memory. -/
structure SharedPair (k k' : Kernel) (i np : Fin NPROC) (n : ℕ) : Prop where
  invariant : k'.Invariant
  parent : k'.proc i = (k.proc i).sharing (n * 4096)
  child : k'.proc np = (k.proc np).sharing (n * 4096)
  others : ∀ j, j ≠ i → j ≠ np → k'.proc j = k.proc j
  leaf_eq : ∀ j, j = i ∨ j = np → ∀ v, v ≠ n →
    leaf k'.phys.mem (k.proc j).pagetable v = leaf k.phys.mem (k.proc j).pagetable v
  mem_eq : ∀ j, (k.proc j).Live → ∀ v w, leaf k.phys.mem (k.proc j).pagetable v = some w →
    k'.phys.mem (PTE2PA w) = k.phys.mem (PTE2PA w)

/-- A parent and its child share a new page, if nothing is mapped above the parent and there is memory for
the page and its tables. -/
theorem crearMemoriaCompartida_spec (h : k.Invariant) (hi : (k.proc i).Live) (hnp : (k.proc np).Live)
    (hne : i ≠ np) (hzero : k.sharedPage = 0) (hpos : 0 < (k.proc i).sz)
    (hnone : ∀ j, j = i ∨ j = np → leaf k.phys.mem (k.proc j).pagetable (pageCount (k.proc i).sz) = none)
    (hroom : 5 ≤ k.phys.freelist.length) :
    Ensures (crearMemoriaCompartida i np) k fun _ k' => SharedPair k k' i np (pageCount (k.proc i).sz) := by
  rw [crearMemoriaCompartida_eq, ensures_bind]
  refine (takeSharedPage_spec hzero).mono ?_
  rintro r k₁ (⟨rfl, hnil, rfl⟩ | ⟨page, s₁, rfl, hcons, hmem, rfl⟩)
  · rw [hnil] at hroom
    cases hroom
  obtain ⟨hlayout, hpage, hnot⟩ := h.layout.take hzero hcons hmem
  have hsame₁ : ∀ j, (k.proc j).Live →
      ∀ t ∈ tables k.phys.mem (k.proc j).pagetable, s₁.mem t = k.phys.mem t := by
    intro j hj t ht
    apply hmem
    rintro rfl
    exact (h.layout.slot j hj).not_free (reach_mono _ (by decide) _ ht) (hcons ▸ mem_cons_self)
  refine ((mapShare_spec hlayout hpage hi hnp hne).ensures ?_).mono ?_
  · rintro e ⟨-, j, hj, hsome⟩
    apply hsome
    change leaf s₁.mem (k.proc j).pagetable _ = none
    rw [leaf_congr (hsame₁ j (by obtain rfl | rfl := hj <;> assumption))]
    exact hnone j hj
  rintro r k' (⟨-, hfew, -⟩ | ⟨-, -, s₂, s₃, hmapped, hk'⟩)
  · -- at most two tables for each of the two processes
    rw [hcons, length_cons] at hroom
    have htables : shareTables { k with phys := s₁, sharedPage := page, refcount := 2 } i np ≤ 2 + 2 :=
      Nat.add_le_add missing_le missing_le
    change s₁.freelist.length < _ at hfew
    omega
  have hva0 : pageCount (k.proc i).sz * 4096 ≠ 0 := by
    rw [pageCount]
    omega
  generalize pageCount (k.proc i).sz = n at hmapped hk' hva0
  have hpi : k'.proc i = (k.proc i).sharing (n * 4096) := by
    rw [hk', shared, setProc_proc_of_ne _ hne, setProc_proc_self]
  have hpnp : k'.proc np = (k.proc np).sharing (n * 4096) := by
    rw [hk', shared, setProc_proc_self]
  have hothers : ∀ j, j ≠ i → j ≠ np → k'.proc j = k.proc j := by
    intro j hji hjnp
    rw [hk', shared, setProc_proc_of_ne _ hjnp, setProc_proc_of_ne _ hji]
  obtain ⟨taken, hg⟩ := hmapped.parent
  obtain ⟨taken₃, hg₃⟩ := hmapped.child
  have hlow : n * 4096 < TRAPFRAME := by
    have hlt : n < 67108862 := hmapped.low
    change n * 4096 < 2 ^ 38 - 4096 - 4096
    omega
  have hdiv : n * 4096 / 4096 = n := Nat.mul_div_cancel _ (by decide)
  have hB := hlayout.share (i := i) (n * 4096) s₂ taken hi hpage (hnot i hi) (Nat.mul_mod_left _ _) hlow hva0
    (hdiv.symm ▸ hg)
  have hnotnp : page ∉ (k.proc np).reached s₂ := by
    rw [Proc.reached_congr hmapped.same (Proc.SameMemory.refl _)]
    exact hnot np hnp
  have hC := hB.share (i := np) (n * 4096) s₃ taken₃
  rw [setProc_proc_of_ne _ hne.symm] at hC
  have hC' : k'.Layout := by
    rw [hk']
    exact hC hnp hpage hnotnp (Nat.mul_mod_left _ _) hlow hva0 (hdiv.symm ▸ hg₃)
  have hpair : k'.sharers = {i, np} := by
    apply sharers_pair
    · intro j hji hjnp
      rw [hothers j hji hjnp]
      exact h.layout.no_share hzero j
    · rw [hpi]
      exact ⟨hi, hva0⟩
    · rw [hpnp]
      exact ⟨hnp, hva0⟩
  have hphys : k'.phys = s₃ := by
    rw [hk']
    rfl
  refine ⟨⟨hC', fun _ => ?_, fun _ => ?_⟩, hpi, hpnp, hothers, ?_, ?_⟩
  · rw [hpair, Finset.card_pair hne, hk']
    rfl
  · rw [hpair]
    exact Finset.insert_nonempty i {np}
  · intro j hj v hv
    rw [hphys]
    obtain rfl | rfl := hj
    · rw [leaf_congr hmapped.kept, hg.leaf_eq, update_of_ne hv, leaf_congr (hsame₁ j hi)]
    · rw [hg₃.leaf_eq, update_of_ne hv, leaf_congr hmapped.same, leaf_congr (hsame₁ j hnp)]
  · intro j hj v w hw
    obtain ⟨hf, ht⟩ := h.layout.page_out hj hw
    have hnf : PTE2PA w ∉ s₁.freelist := fun hx => hf (hcons ▸ mem_cons_of_mem _ hx)
    rw [hphys, hg₃.quiet, hg.quiet]
    · exact hmem _ fun heq => hf (by rw [heq, hcons]; exact mem_cons_self)
    · rw [tables_congr (hsame₁ i hi)]
      exact ht i hi
    · exact hnf
    · rw [tables_congr hmapped.same, tables_congr (hsame₁ np hnp)]
      exact ht np hnp
    · exact fun hx => hnf (hg.free_sub hx)

end Share

section Result

variable {k k' : Kernel} {i np : Fin NPROC} {root tf : ℕ} {s : Phys}

/-- What a successful `fork` leaves behind: a child with a copy of the mapped pages of its parent. -/
structure ForkResult (k : Kernel) (i np : Fin NPROC) (k' : Kernel) : Prop where
  invariant : k'.Invariant
  fresh : ¬ (k.proc np).Live
  others : ∀ j, j ≠ np → ((k'.proc j).Live ↔ (k.proc j).Live)
  state : (k'.proc np).state = .runnable
  killed : (k'.proc np).killed = false
  region : (k'.proc np).vr.active = false
  size : (k.proc i).sz ≤ (k'.proc np).sz
  copy : ∀ v < pageCount (k.proc i).sz, ∀ w, leaf k.phys.mem (k.proc i).pagetable v = some w →
    ∃ w', leaf k'.phys.mem (k'.proc np).pagetable v = some w' ∧ PTE_FLAGS w' = PTE_FLAGS w ∧
      k'.phys.mem (PTE2PA w') = k.phys.mem (PTE2PA w)
  hole : ∀ v < pageCount (k.proc i).sz, leaf k.phys.mem (k.proc i).pagetable v = none →
    leaf k'.phys.mem (k'.proc np).pagetable v = none

omit [KernelImage] in
theorem or_one_of_odd {x : ℕ} (h : x % 2 = 1) : x ||| 1 = x := by
  have hdiv : (x ||| 1) / 2 = x / 2 := by
    rw [Nat.or_div_two]
    exact Nat.or_zero _
  have hmod : (x ||| 1) % 2 = 1 := Nat.or_mod_two_eq_one.2 (.inr rfl)
  omega

omit [KernelImage] in
/-- The entry of a copied page has the flags of the original. -/
theorem PTE_FLAGS_copied {mem : ℕ → Page} {root v w : ℕ} (hw : leaf mem root v = some w) (m : ℕ) :
    PTE_FLAGS (mkPte m (PTE_FLAGS w)) = PTE_FLAGS w := by
  rw [PTE_FLAGS_mkPte (PTE_FLAGS_lt w)]
  exact or_one_of_odd (by rw [PTE_FLAGS_eq, Nat.mod_mod_of_dvd w (by decide), leaf_odd hw])

/-- A child that has its copy of the memory and may run. -/
theorem ChildMemory.forkResult (hnp : ¬ (k.proc np).Live) (hmem : ChildMemory k i root tf s)
    (hfree : FreeOk k.phys.freelist) (hinv : k'.Invariant)
    (hothers : ∀ j, j ≠ np → ((k'.proc j).Live ↔ (k.proc j).Live))
    (hstate : (k'.proc np).state = .runnable) (hkilled : (k'.proc np).killed = false)
    (hvr : (k'.proc np).vr.active = false)
    (hsz : (k.proc i).sz ≤ (k'.proc np).sz) (hroot : (k'.proc np).pagetable = root)
    (hleaf : ∀ v < pageCount (k.proc i).sz, leaf k'.phys.mem root v = leaf s.mem root v)
    (hpages : ∀ v w, leaf s.mem root v = some w → k'.phys.mem (PTE2PA w) = s.mem (PTE2PA w)) :
    ForkResult k i np k' where
  invariant := hinv
  fresh := hnp
  others := hothers
  state := hstate
  killed := hkilled
  region := hvr
  size := hsz
  copy := by
    intro v hv w hw
    obtain ⟨m, hm, hcopy, hcontents⟩ := hmem.copy v hv w hw
    have hpa := hfree.valid m hm
    have hpte : PTE2PA (mkPte m (PTE_FLAGS w)) = m := PTE2PA_mkPte hpa.1 hpa.lt_two_pow (PTE_FLAGS_lt w)
    refine ⟨_, ?_, PTE_FLAGS_copied hw m, ?_⟩
    · rw [hroot, hleaf v hv]
      exact hcopy
    · rw [hpages v _ hcopy, hpte]
      exact hcontents
  hole := by
    intro v hv hw
    rw [hroot, hleaf v hv]
    exact hmem.hole v hv hw

/-- The child may run now. -/
theorem Kernel.Invariant.started (h : k.Invariant) (hnp : (k.proc np).Live)
    (husar : (k.proc np).shmVa ≠ 0 → (k.proc np).usarMemoriaCompartida = true) (usar : Bool)
    (hkeep : (k.proc np).usarMemoriaCompartida = true → usar = true) :
    (k.setProc np { k.proc np with usarMemoriaCompartida := usar, state := .runnable }).Invariant := by
  refine h.record hnp nofun ?_ ?_
  · exact ⟨rfl, rfl, rfl, rfl, rfl, rfl, rfl⟩
  · exact fun hne => hkeep (husar hne)

/-- How `fork` can end: it fails, or there is a child. -/
def ForkOutcome (k : Kernel) (i : Fin NPROC) (r : ℤ) (k' : Kernel) : Prop :=
  (r = -1 ∧ ForkFailed k k') ∨ ∃ np, r = k.nextpid ∧ ForkResult k i np k'

/-- A parent can share a page with its next child: no page is shared, the page above the parent is not
mapped, and there is memory for the child, the shared page and the tables of its two mappings. -/
def Kernel.CanShare (k : Kernel) (i : Fin NPROC) : Prop :=
  k.sharedPage = 0 ∧ 0 < (k.proc i).sz ∧
    leaf k.phys.mem (k.proc i).pagetable (pageCount (k.proc i).sz) = none ∧
    k.forkPages i + 5 ≤ k.phys.freelist.length

/-- The parent of a new child maps what it has mapped before. -/
theorem ChildMemory.leaf_parent (hmem : ChildMemory k i root tf s) (hslot : SlotOk (k.proc i) k.phys k.sharedPage)
    (v : ℕ) : leaf s.mem (k.proc i).pagetable v = leaf k.phys.mem (k.proc i).pagetable v :=
  leaf_congr (fun t ht => hmem.frame t (hslot.not_free (reach_mono _ (by decide) _ ht))) v

/-- Nothing is mapped above the memory of a child if nothing is above that of its parent. -/
theorem ChildMemory.leaf_above (hmem : ChildMemory k i root tf s) (hslot : SlotOk (k.proc i) k.phys k.sharedPage)
    (hnone : leaf k.phys.mem (k.proc i).pagetable (pageCount (k.proc i).sz) = none) :
    leaf s.mem root (pageCount (k.proc i).sz) = none := by
  have hle : pageCount (k.proc i).sz ≤ 67108862 := pageCount_le hslot.ok.size
  cases hw : leaf s.mem root (pageCount (k.proc i).sz) with
  | none => rfl
  | some w =>
    exfalso
    obtain hlt | htramp | htf := hmem.only _ w hw
    · exact lt_irrefl _ hlt
    · rw [htramp] at hle
      exact absurd hle (by decide)
    · rw [htf] at hnone
      exact none_elim hnone hslot.ok.space.tfLeaf

/-- The end of `fork` after the parent and its child have got the shared page. -/
theorem SharedPair.forkResult (hnp : ¬ (k.proc np).Live) (hne : i ≠ np)
    (hfree : FreeOk k.phys.freelist) (hmem : ChildMemory k i root tf s)
    (h : SharedPair (k.staged np (childProc (k.proc i) i k.nextpid tf root) s) k' i np
      (pageCount (k.proc i).sz)) :
    ForkResult k i np (k'.setProc np
      { k'.proc np with usarMemoriaCompartida := true, state := .runnable }) := by
  have hchild := h.child
  rw [staged_proc_self] at hchild
  have hused : ProcState.used ≠ .unused := by decide
  have hlive : (k'.proc np).Live := by
    rw [hchild]
    exact hused
  have hself := setProc_proc_self k' np { k'.proc np with usarMemoriaCompartida := true, state := .runnable }
  apply hmem.forkResult hnp hfree
  · apply h.invariant.started hlive _ true fun _ => rfl
    rw [hchild]
    exact fun _ => rfl
  · intro j hj
    rw [setProc_proc_of_ne _ hj]
    by_cases hji : j = i
    · rw [hji, h.parent, staged_proc_of_ne k hne]
      rfl
    · rw [h.others j hji hj, staged_proc_of_ne k hj]
  · rw [hself]
  · rw [hself, hchild]
    rfl
  · rw [hself, hchild]
    rfl
  · rw [hself, hchild]
    change (k.proc i).sz ≤ pageCount (k.proc i).sz * 4096 + 4096
    rw [pageCount]
    omega
  · rw [hself, hchild]
    rfl
  · intro v hv
    have hleaf := h.leaf_eq np (.inr rfl) v (Nat.ne_of_lt hv)
    rw [staged_proc_self] at hleaf
    exact hleaf
  · intro v w hw
    have hpages := h.mem_eq np
    rw [staged_proc_self] at hpages
    exact hpages hused v w hw

/-- `fork`, by a parent that can share a page if it has asked for one. -/
theorem kfork_spec (h : k.Invariant) (hi : (k.proc i).Live)
    (hguard : (k.proc i).usarMemoriaCompartida = true → k.CanShare i) :
    Ensures (kfork i) k (ForkOutcome k i) := by
  have hrule : Yields (kfork i) k (ForkOutcome k i) (fun _ => False) := by
    refine kfork_rule h hi (fun k' hk' _ => .inl ⟨rfl, hk'⟩) ?_
    intro np tf root s hslot hmem hinv
    have hnp : ¬ (k.proc np).Live := fun hl => hl (unusedSlot_some hslot)
    have hne : i ≠ np := fun heq => hnp (heq ▸ hi)
    have hfree := h.layout.free
    generalize hkc : k.staged np (childProc (k.proc i) i k.nextpid tf root) s = kc at hinv
    have hself : kc.proc np = childProc (k.proc i) i k.nextpid tf root := by
      rw [← hkc, staged_proc_self]
    have hparent : kc.proc i = k.proc i := by
      rw [← hkc, staged_proc_of_ne k hne]
    have hlive : (kc.proc np).Live := by
      rw [hself]
      exact nofun
    have hphys : kc.phys = s := by
      rw [← hkc]
      rfl
    cases husar : (k.proc i).usarMemoriaCompartida with
    | false =>
      rw [if_neg Bool.false_ne_true, yields_bind, yields_modify, yields_pure]
      have hset := setProc_proc_self kc np { kc.proc np with state := .runnable }
      refine .inr ⟨np, rfl, hmem.forkResult hnp hfree ?_ ?_ ?_ ?_ ?_ ?_ ?_ ?_ ?_⟩
      · refine hinv.started hlive ?_ _ fun hu => hu
        rw [hself]
        exact fun hf => absurd rfl hf
      · intro j hj
        rw [setProc_proc_of_ne _ hj, ← hkc, staged_proc_of_ne k hj]
      · rw [hset]
      · rw [hset, hself]
        rfl
      · rw [hset, hself]
        rfl
      · rw [hset, hself]
        exact le_refl _
      · rw [hset, hself]
        rfl
      · intro v _
        change leaf kc.phys.mem root v = _
        rw [hphys]
      · intro v w _
        change kc.phys.mem _ = _
        rw [hphys]
    | true =>
      obtain ⟨hzero, hpos, hnone, hroom⟩ := hguard husar
      have hlength := hmem.length
      rw [if_pos rfl, yields_bind]
      apply Ensures.yields
      refine (crearMemoriaCompartida_spec hinv (by rwa [hparent]) hlive hne ?_ (by rwa [hparent]) ?_ ?_).mono ?_
      · rw [← hkc]
        exact hzero
      · rw [hparent, hphys]
        rintro j (rfl | rfl)
        · rw [hparent, hmem.leaf_parent (h.layout.slot _ hi), hnone]
        · rw [hself]
          exact hmem.leaf_above (h.layout.slot i hi) hnone
      · rw [hphys]
        omega
      intro _ k₁ hpair
      rw [yields_bind, yields_modify, yields_bind, yields_modify, yields_pure, setProc_proc_self]
      change ForkOutcome k i _ (setProc (k₁.setProc np _) np
        { k₁.proc np with usarMemoriaCompartida := true, state := .runnable })
      rw [setProc_setProc]
      rw [hparent, ← hkc] at hpair
      exact .inr ⟨np, rfl, hpair.forkResult hnp hne hfree hmem⟩
  exact hrule.ensures fun _ he => he

end Result

end Xv6
