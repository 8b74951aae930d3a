import Xv6.Proc.Boot
import Xv6.Proc.ExecSpec
import Xv6.Proc.ForkSpec

/-!
# Runs that keep the invariant of the kernel

The invariant survives every operation of a process which neither moves the size over the trapframe
nor loses the shared page. The shared page is lost when a second pair of processes is made to share it,
when `exec` frees it with the old address space, when `sbrk` unmaps it, and when `fork` can take it but
not map it, or maps it at address zero.
-/

namespace Xv6

open Function Kernel Library Vm

section Runs

variable [KernelImage]

/-- What a process may ask for. -/
def Kernel.Admits (k : Kernel) (i : Fin NPROC) : Op → Prop
  | .sbrk n => (k.proc i).shmVa ≠ 0 → (k.proc i).shmVa < (sbrkTo (k.proc i).sz n.toInt).2
  | .mapzero size => (k.proc i).MapzeroFits size.toInt
  | .fork => (k.proc i).usarMemoriaCompartida = true → k.CanShare i
  | .exec _ _ argv => ArgvOk argv ∧ (k.proc i).shmVa = 0
  | _ => True

/-- The moves that keep the invariant. -/
structure Kernel.Guarded (k : Kernel) (e : Event) (k' : Kernel) : Prop where
  moves : k.Moves .lazy e k'
  admits : k.Admits e.proc e.op

section Step

variable {k k' : Kernel} {i : Fin NPROC} {op : Op} {o : Outcome}

/-- A process can run only if its slot is in use. -/
theorem Kernel.Step.live (h : k.Step .lazy i op o k') : (k.proc i).Live := by
  intro hunused
  have hrun := h.1
  rw [hunused] at hrun
  cases hrun

omit [KernelImage] in
theorem Kernel.Admits.fits (h : k.Admits i op) : op.Fits (k.proc i) := by
  cases op with
  | mapzero size => exact h
  | _ => trivial

variable {s' : Phys}

/-- Only `sbrk` makes a process smaller. -/
theorem MemEffect.size_le {p p' : Proc} {s : Phys} (he : MemEffect p s op o p' s')
    (hfits : op.Fits p) (hop : ∀ n, op ≠ .sbrk n) : p.sz ≤ p'.sz := by
  cases he with
  | grow n | shrink n => exact absurd rfl (hop n)
  | mapzero size =>
    by_cases hpos : 0 < size.toInt
    · rw [sysMapzero_pos hpos (natAbs_toInt_le size) (hfits hpos).1]
      exact Nat.le_add_right _ _
    · rw [sysMapzero_nonpos (not_lt.1 hpos)]
  | mapRoFailed | mapRo | copyin | copyout => exact le_refl _
  | load va r p' s' outcome =>
    obtain ⟨pa, ha, -⟩ := outcome
    exact ha.proc.sameMemory.sz.ge
  | store va byte r p' s' outcome =>
    obtain ⟨pa, s₁, ha, -⟩ := outcome
    exact ha.proc.sameMemory.sz.ge

/-- The page of the shared memory stays mapped. -/
theorem MemEffect.share_kept {p' : Proc} (hok : (k.proc i).Ok k.phys)
    (he : MemEffect (k.proc i) k.phys op o p' s') (hadmits : k.Admits i op) {w : ℕ} (hshm : (k.proc i).shmVa ≠ 0)
    (hw : leaf k.phys.mem (k.proc i).pagetable ((k.proc i).shmVa / 4096) = some w) :
    leaf s'.mem (k.proc i).pagetable ((k.proc i).shmVa / 4096) = some w := by
  apply he.leaf_kept hok hw
  by_cases hop : ∀ n, op ≠ .sbrk n
  · exact .inl (he.size_le hadmits.fits hop)
  · rw [not_forall] at hop
    obtain ⟨n, hn⟩ := hop
    rw [not_not] at hn
    subst hn
    right
    have hlt := hadmits hshm
    rw [lt_pageCount_iff]
    have hsz : p'.sz = (sbrkTo (k.proc i).sz n.toInt).2 := by
      cases he with
      | grow | shrink => rfl
    rw [hsz]
    omega

section

variable (h : k.Invariant)

include h

/-- Operations on memory keep the invariant. -/
theorem Kernel.Invariant.of_memory (hop : op.OnMemory) (hadmits : k.Admits i op)
    (hstep : k.Step .lazy i op o k') : k'.Invariant := by
  have hlive := hstep.live
  have hslot := h.layout.slot i hlive
  obtain ⟨p', s', he, hafter⟩ := hstep.memEffect hslot.ok hop
  obtain ⟨hphys, hsame, hlive', helse, hpage, hcount⟩ := hafter.spec
  have hsound := he.sound hslot.ok hslot.mapRo hadmits.fits
  have hhandles := hsound.handles
  refine h.of_step hlive helse (hlive' ?_) hpage hcount (hphys ▸ hsound.step) ?_ ?_ ?_ ?_ ?_ ?_
  · rw [Proc.Live, hhandles.state]
    exact hlive
  · rw [hsame.pagetable, hhandles.pagetable]
  · rw [hphys]
    exact hsame.ok hsound.ok
  · rw [Proc.MapRoOk, hsame.mapRoVa]
    exact hsound.mapRo
  · rw [hsame.shmVa, hhandles.shmVa]
  · intro hne
    rw [hsame.usar, hhandles.usar]
    exact (hslot.sharer hne).2.1
  · intro w hne hw
    rw [hphys]
    exact he.share_kept hslot.ok hadmits hne hw

/-- The end of a process keeps the invariant. -/
theorem Kernel.Invariant.of_exit (hlive : (k.proc i).Live) (status : ℤ) : (k.exited i status).Invariant := by
  have hslot := h.layout.slot i hlive
  obtain ⟨parent, hself⟩ := exited_self k i status
  have hset : { k with phys := k.phys }.setProc i (k.proc i) = k := by
    change { k with proc := update k.proc i (k.proc i) } = k
    rw [update_eq_self]
  have helse := elsewhere_exited k i (k.proc i) k.phys status
  rw [hset] at helse
  refine h.of_step hlive helse ?_ rfl rfl (SpaceStep.refl hslot.ok.space.within) ?_ ?_ ?_ ?_ ?_ fun _ _ hw => hw
  · rw [hself]
    exact nofun
  · rw [hself]
  · rw [hself]
    exact ⟨hslot.ok.space, hslot.ok.size, hslot.ok.region⟩
  · rw [hself]
    exact hslot.mapRo
  · rw [hself]
  · rw [hself]
    exact fun hne => (hslot.sharer hne).2.1

/-- `exec` keeps the invariant if the process does not share the page. -/
theorem Kernel.Invariant.of_exec {path : List UInt8} {file : Option ExecFile}
    {argv : List (List UInt8)} (hadmits : k.Admits i (.exec path file argv))
    (hstep : k.Step .lazy i (.exec path file argv) o k') : k'.Invariant := by
  have hlive := hstep.live
  have hslot := h.layout.slot i hlive
  have hshm := hadmits.2
  have hrun : Allows (runOp .lazy i (.exec path file argv)) k fun _ k' => k'.Invariant := by
    rw [runOp, allows_bind, allows_onProc]
    refine (kexec_spec hslot.ok hadmits.1).1.mono ?_
    intro r s' hr
    rw [allows_pure]
    have helse := elsewhere_setProc k i r.2 s'
    have hself : ({ k with phys := s' }.setProc i r.2).proc i = r.2 := setProc_proc_self _ i _
    obtain ⟨rfl, hfail⟩ | ⟨-, hdone⟩ := hr
    · obtain ⟨hsp, hleaf⟩ := hfail.spaceStep hslot.ok
      refine h.of_step hlive helse ?_ rfl rfl hsp ?_ ?_ ?_ ?_ ?_ ?_
      · rw [hself]
        exact hlive
      · rw [hself]
      · rw [hself]
        exact ⟨hslot.ok.space.of_step hsp fun v _ => hleaf v, hslot.ok.size, hslot.ok.region⟩
      · rw [hself]
        exact hslot.mapRo
      · rw [hself]
      · exact fun hne => absurd hshm hne
      · exact fun _ hne => absurd hshm hne
    · have hrecord := hdone.record
      refine h.of_exchange hlive helse ?_ rfl rfl ?_ ?_ ?_ ?_ ?_ ?_ ?_
      · rw [hself, hrecord]
        exact hlive
      · rw [hself]
        exact hdone.resources_eq hslot.ok
      · exact hdone.frame
      · rw [hself]
        refine ⟨?_, hdone.size, ?_⟩
        · rw [show r.2.trapframe = (k.proc i).trapframe by rw [hrecord]]
          exact hdone.space
        · rw [hrecord]
          exact hslot.ok.region
      · rw [hself, hrecord]
        exact hslot.mapRo
      · rw [hself, hrecord]
      · exact fun hne => absurd hshm hne
      · exact fun hne => absurd hshm hne
  exact hrun o k' hstep.2

/-- `fork` keeps the invariant if the shared page is not lost. -/
theorem Kernel.Invariant.of_fork (hadmits : k.Admits i .fork) (hstep : k.Step .lazy i .fork o k') :
    k'.Invariant := by
  have hrun : Allows (runOp .lazy i .fork) k fun _ k' => ∃ r, ForkOutcome k i r k' := by
    rw [runOp, allows_bind]
    refine (kfork_spec h hstep.live hadmits).allows.mono ?_
    intro r k' hr
    rw [allows_pure]
    exact ⟨r, hr⟩
  obtain ⟨r, ⟨-, rfl | ⟨s', rfl, hrestored⟩⟩ | ⟨np, -, hresult⟩⟩ := hrun o k' hstep.2
  · exact h
  · exact h.restored hrestored rfl rfl rfl rfl
  · exact hresult.invariant

/-- Adding leaves to the memory of a process keeps the invariant. -/
theorem Kernel.Invariant.of_growth (hlive : (k.proc i).Live) {allowed : ℕ → ℕ → Prop}
    (hg : LeafGrowth (k.proc i).pagetable allowed k.phys s') : Kernel.Invariant { k with phys := s' } := by
  have hslot := h.layout.slot i hlive
  have hset : { k with phys := s' }.setProc i (k.proc i) = { k with phys := s' } := by
    change Kernel.mk _ (update k.proc i (k.proc i)) _ _ _ _ = _
    rw [update_eq_self]
  have helse := elsewhere_setProc k i (k.proc i) s'
  rw [hset] at helse
  exact h.of_step hlive helse hlive rfl rfl hg.step rfl (hslot.ok.of_leafGrowth hg) hslot.mapRo rfl
    (fun hne => (hslot.sharer hne).2.1) fun w _ hw => hg.old _ w hw

/-- What `wait` does to the kernel: it may copy a status to the process and release a child. -/
theorem kwait_spec (hlive : (k.proc i).Live) (addr : ℕ) :
    Allows (kwait i addr) k fun _ k' => k' = k ∨ ∃ s₁,
      LeafGrowth (k.proc i).pagetable (k.proc i).CopyVpn k.phys s₁ ∧
      (k' = { k with phys := s₁ } ∨ ∃ j freed, (k.proc j).Live ∧ (k.proc j).state = .zombie ∧
        Kernel.Released { k with phys := s₁ } k' j freed) := by
  have hslot := h.layout.slot i hlive
  rw [kwait, allows_bind, allows_get]
  dsimp only
  cases hfind : (List.finRange NPROC).find? fun j =>
      (k.proc j).parent = some i ∧ (k.proc j).state = .zombie with
  | none =>
    dsimp only
    by_cases hc : (∀ j, (k.proc j).parent ≠ some i) ∨ (k.proc i).killed
    · rw [if_pos hc, allows_pure]
      exact .inl rfl
    · rw [if_neg hc, allows_pure]
      exact .inl rfl
  | some j =>
    have hj : (k.proc j).parent = some i ∧ (k.proc j).state = .zombie := by
      have := List.find?_some hfind
      simpa using this
    have hjlive : (k.proc j).Live := by
      rw [Proc.Live, hj.2]
      decide
    dsimp only
    have hrest : ∀ (r : ℤ) (s₁ : Phys),
        LeafGrowth (k.proc i).pagetable (k.proc i).CopyVpn k.phys s₁ →
        Allows (if r < 0 then pure (WaitResult.returned (-1)) else do
          freeproc j
          pure (WaitResult.returned (k.proc j).pid)) { k with phys := s₁ } fun _ k' => k' = k ∨ ∃ s₁,
            LeafGrowth (k.proc i).pagetable (k.proc i).CopyVpn k.phys s₁ ∧
            (k' = { k with phys := s₁ } ∨ ∃ j freed, (k.proc j).Live ∧ (k.proc j).state = .zombie ∧
              Kernel.Released { k with phys := s₁ } k' j freed) := by
      intro r s₁ hg
      by_cases hr : r < 0
      · rw [if_pos hr, allows_pure]
        exact .inr ⟨s₁, hg, .inl rfl⟩
      · rw [if_neg hr, allows_bind]
        refine (freeproc_released (h.of_growth hlive hg).layout hjlive).1.mono ?_
        intro _ k' hk'
        obtain ⟨freed, hreleased⟩ := hk'
        rw [allows_pure]
        exact .inr ⟨s₁, hg, .inr ⟨j, freed, hjlive, hj.2, hreleased⟩⟩
    by_cases haddr : addr ≠ 0
    · rw [if_pos haddr, allows_bind, allows_onPhys]
      refine (copyout_spec _ addr k.phys hslot.ok).allows.mono ?_
      intro r s₁ hr
      exact hrest r s₁ hr.1
    · rw [if_neg haddr, allows_bind, allows_pure]
      exact hrest 0 k.phys (LeafGrowth.refl hslot.ok.space.within)

/-- `wait` keeps the invariant. -/
theorem Kernel.Invariant.of_wait {addr : BitVec 64} (hstep : k.Step .lazy i (.wait addr) o k') : k'.Invariant := by
  have hlive := hstep.live
  have hrun : Allows (runOp .lazy i (.wait addr)) k fun _ k' => k'.Invariant := by
    rw [runOp, allows_bind]
    refine (kwait_spec h hlive addr.toNat).mono ?_
    intro r k' hk'
    have hinv : k'.Invariant := by
      obtain rfl | ⟨s₁, hg, rfl | ⟨j, freed, hj, -, hreleased⟩⟩ := hk'
      · exact h
      · exact h.of_growth hlive hg
      · exact Kernel.Invariant.released hreleased (h.of_growth hlive hg) hj
    cases r with
    | returned pid => exact (allows_pure _ _ _).2 hinv
    | sleeps => exact (allows_pure _ _ _).2 hinv
  exact hrun o k' hstep.2

/-- Asking for shared memory keeps the invariant. -/
theorem Kernel.Invariant.of_setshm (hstep : k.Step .lazy i .setshm o k') : k'.Invariant := by
  have hrun : Allows (runOp .lazy i .setshm) k fun _ k' => k'.Invariant := by
    rw [runOp, allows_bind, allows_onProc, allows_pure, allows_pure]
    apply h.record hstep.live
    · exact hstep.live
    · exact ⟨rfl, rfl, rfl, rfl, rfl, rfl, rfl⟩
    · exact fun _ => rfl
  exact hrun o k' hstep.2

end

end Step

/-- Every guarded move keeps the invariant. -/
theorem Kernel.Guarded.invariant {k k' : Kernel} {e : Event} (h : k.Invariant)
    (hg : k.Guarded e k') : k'.Invariant := by
  obtain ⟨i, op, o⟩ := e
  obtain ⟨hstep, hadmits⟩ := hg
  change k.Step .lazy i op o k' at hstep
  cases op with
  | sbrk | mapzero | mapRo | load | store | copyin | copyout =>
    refine h.of_memory ?_ hadmits hstep
    trivial
  | setshm => exact h.of_setshm hstep
  | fork => exact h.of_fork hadmits hstep
  | exec path file argv => exact h.of_exec hadmits hstep
  | exit status =>
    have hrun : Allows (runOp .lazy i (.exit status)) k fun _ k' => k'.Invariant := by
      rw [runOp, allows_bind]
      intro a k₁ hk₁
      rw [kexit_run] at hk₁
      by_cases hinit : i = k.initproc
      · rw [if_pos hinit] at hk₁
        cases hk₁
      · rw [if_neg hinit] at hk₁
        cases hk₁
        exact (allows_pure _ _ _).2 (h.of_exit hstep.live _)
    exact hrun o k' hstep.2
  | wait addr => exact h.of_wait hstep

/-- The invariant holds when the kernel has started. -/
theorem Kernel.Boot.invariant {k : Kernel} (h : k.Boot) : k.Invariant := by
  obtain ⟨k₀, tf, root, hb⟩ := h.booted
  have hdead : ∀ i, ¬ (k₀.proc i).Live := by
    intro i
    rw [hb.fresh.slots i]
    exact fun hl => hl rfl
  have hzero : ¬ k₀.sharedPage ≠ 0 := not_not.2 hb.fresh.shared
  have hfresh : k₀.Invariant :=
    ⟨⟨hb.fresh.free, fun i _ => hb.fresh.slots i, fun i hi => absurd hi (hdead i),
      fun i _ _ _ hi => absurd hi (hdead i), fun hp => absurd hp hzero⟩,
      fun hp => absurd hp hzero, fun hp => absurd hp hzero⟩
  have hcreated : (k₀.staged k.initproc (newProc k₀.nextpid tf root) k.phys).Invariant :=
    hfresh.created (hdead _) hb.memory
  have hstarted := hcreated.started (by rw [staged_proc_self]; exact nofun)
    (by rw [staged_proc_self]; exact fun hf => absurd rfl hf) false
    (by rw [staged_proc_self]; exact nofun)
  rw [staged_setProc, staged_proc_self] at hstarted
  have hproc : k.proc = (k₀.staged k.initproc
      { newProc k₀.nextpid tf root with usarMemoriaCompartida := false, state := .runnable }
      k.phys).proc := by
    funext j
    by_cases hj : j = k.initproc
    · rw [hj, staged_proc_self, hb.first]
      rfl
    · rw [staged_proc_of_ne k₀ hj, hb.others j hj, hb.fresh.slots]
  have hfree := hstarted.layout.free
  refine ⟨hstarted.layout.untouched hproc hfree (fun _ hx => hx) (fun _ _ => rfl) (.inl ?_) ?_, ?_, ?_⟩
  · exact hb.shared.trans hb.fresh.shared.symm
  · exact fun hp => absurd hb.shared hp
  · exact fun hp => absurd hb.shared hp
  · exact fun hp => absurd hb.shared hp

section Replay

instance ArgvOk.decidable (argv : List (List UInt8)) : Decidable (ArgvOk argv) :=
  inferInstanceAs (Decidable (_ ∧ _))

instance Proc.decidableMapzeroFits (p : Proc) (n : ℤ) : Decidable (p.MapzeroFits n) :=
  inferInstanceAs (Decidable (_ → _))

instance Kernel.decidableCanShare (k : Kernel) (i : Fin NPROC) : Decidable (k.CanShare i) :=
  inferInstanceAs (Decidable (_ ∧ _ ∧ _ ∧ _))

instance Kernel.decidableAdmits (k : Kernel) (i : Fin NPROC) (op : Op) : Decidable (k.Admits i op) :=
  match op with
  | .sbrk _ => inferInstanceAs (Decidable (_ → _))
  | .mapzero _ => inferInstanceAs (Decidable (Proc.MapzeroFits _ _))
  | .fork => inferInstanceAs (Decidable (_ → Kernel.CanShare _ _))
  | .exec _ _ argv => inferInstanceAs (Decidable (ArgvOk argv ∧ _))
  | .mapRo _ | .setshm | .exit _ | .wait _ | .load _ | .store _ _ | .copyin _ _ | .copyout _ _ =>
    inferInstanceAs (Decidable True)

/-- A move passes the check if it is a guarded one. -/
def Kernel.guardedMove (k : Kernel) (e : Event) (_ : Kernel) : Bool :=
  decide (k.Admits e.proc e.op)

/-- A replay of guarded moves whose result passes a check exists. -/
theorem Kernel.exists_replayGuarded (k : Kernel) (ops : List (Fin NPROC × Op)) (check : List Event → Kernel → Bool)
    (h : ((k.replayWhen .lazy guardedMove ops).any fun r => check r.1 r.2) = true) :
    ∃ events k', Run Kernel.Guarded k events k' ∧ events.map (fun e => (e.proc, e.op)) = ops ∧
      check events k' = true :=
  exists_replayWhen .lazy guardedMove k ops check (fun _ _ _ hmove hcheck => ⟨hmove, of_decide_eq_true hcheck⟩) h

end Replay

/-- The invariant holds in every state that a run of guarded moves reaches. -/
theorem Kernel.Invariant.of_run {k₀ k : Kernel} {events : List Event} (h : k₀.Invariant)
    (hrun : Run Kernel.Guarded k₀ events k) : k.Invariant :=
  hrun.invariant Kernel.Invariant h fun _ _ _ hk hmove => hmove.invariant hk

end Runs

section Concrete

/-- An executable with one segment of a page at address zero. -/
def initProgram : ExecFile where
  size := 4096
  byte j :=
    match j with
    | 0 => 0x7F
    | 1 => 0x45
    | 2 => 0x4C
    | 3 => 0x46
    | 32 => 64
    | 56 => 1
    | 64 => 1
    | 68 => 5
    | 97 => 2
    | 105 => 16
    | _ => 0

attribute [local instance] linkedImage

/-- A process starts its program, touches the second page of a heap and asks for shared memory. -/
def startedOps (i : Fin NPROC) : List (Fin NPROC × Op) :=
  [(i, .exec [] (some initProgram) []), (i, .sbrk 8192), (i, .store 17000 77), (i, .setshm)]

/-- The process has one page of its heap and not the other, and it can share a page with a child. -/
def Kernel.Started (k : Kernel) (i : Fin NPROC) : Prop :=
  (k.proc i).state = .runnable ∧ (k.proc i).sz = 5 * 4096 ∧
    (leaf k.phys.mem (k.proc i).pagetable 4).isSome = true ∧ leaf k.phys.mem (k.proc i).pagetable 3 = none ∧
    3 ≤ k.phys.freelist.length ∧ (k.proc i).usarMemoriaCompartida = true ∧ k.CanShare i

instance Kernel.decidableStarted (k : Kernel) (i : Fin NPROC) : Decidable (k.Started i) :=
  inferInstanceAs (Decidable (_ ∧ _ ∧ _ ∧ _ ∧ _ ∧ _ ∧ _))

/-- The state passes the check, and `fork` succeeds in it. -/
def Kernel.startedCheck (i : Fin NPROC) (_ : List Event) (k : Kernel) : Bool :=
  decide (k.Started i) && (kfork i k).toOption.any fun r => r.1 ≠ -1

set_option maxRecDepth 100000 in
theorem replay_startedOps : (((bootKernel 40).replayWhen .lazy guardedMove (startedOps 0)).any fun r =>
    Kernel.startedCheck 0 r.1 r.2) = true := by decide +kernel

/-- The operations lead to such a state. -/
theorem exists_started : ∃ events k, Run Kernel.Guarded (bootKernel 40) events k ∧
    events.map (fun e => (e.proc, e.op)) = startedOps 0 ∧ k.Started 0 ∧
    (kfork 0 k).toOption.any (fun r => r.1 ≠ -1) = true := by
  obtain ⟨events, k, hrun, hops, hcheck⟩ := Kernel.exists_replayGuarded (bootKernel 40) (startedOps 0)
    (Kernel.startedCheck 0) replay_startedOps
  rw [Kernel.startedCheck, Bool.and_eq_true, decide_eq_true_eq] at hcheck
  exact ⟨events, k, hrun, hops, hcheck⟩

end Concrete

end Xv6
