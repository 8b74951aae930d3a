import Xv6.Proc.CopySpec
import Xv6.Proc.FreeSpec
import Xv6.Proc.Machine
import Xv6.Proc.ResizeSpec

/-!
# What one operation does to the memory of a process

`MemEffect` lists everything that the operations on memory can do to the record and the pages of the
process that performs them. `runOp_memEffect` says that every such operation of the kernel is one of
them, and that it leaves the other processes alone.
-/

namespace Xv6

open Library Vm

/-- The operations that work on the memory of one process. -/
def Op.OnMemory : Op → Prop
  | .sbrk _ | .mapzero _ | .mapRo _ | .load _ | .store _ _ | .copyin _ _ | .copyout _ _ => True
  | .setshm | .fork | .exec _ _ _ | .exit _ | .wait _ => False

variable [KernelImage]

section Lifting

variable {α : Type} {k : Kernel} {i : Fin NPROC}

omit [KernelImage]

@[simp] theorem allows_onPhys (x : VmM α) (k : Kernel) (Q : α → Kernel → Prop) :
    Allows (onPhys x) k Q ↔ Allows x k.phys fun a s => Q a { k with phys := s } := by
  have h := yields_onPhys x k Q fun _ => True
  constructor
  · intro hx
    exact (h.1 ⟨hx, fun _ _ => trivial⟩).1
  · intro hx
    exact (h.2 ⟨hx, fun _ _ => trivial⟩).1

@[simp] theorem allows_onProc (x : Proc → VmM (α × Proc)) (k : Kernel) (Q : α → Kernel → Prop) :
    Allows (onProc i x) k Q ↔ Allows (x (k.proc i)) k.phys fun r s =>
      Q r.1 ({ k with phys := s }.setProc i r.2) := by
  rw [onProc, allows_bind, allows_get, allows_bind, allows_onPhys]
  simp only [allows_bind, allows_modify, allows_pure]

@[simp] theorem yields_onProc (x : Proc → VmM (α × Proc)) (k : Kernel) (Q : α → Kernel → Prop) (R : Panic → Prop) :
    Yields (onProc i x) k Q R ↔ Yields (x (k.proc i)) k.phys
      (fun r s => Q r.1 ({ k with phys := s }.setProc i r.2)) R := by
  rw [onProc, yields_bind, yields_get, yields_bind, yields_onPhys]
  simp only [yields_bind, yields_modify, yields_pure]

end Lifting

section Exit

variable {k : Kernel} {i : Fin NPROC}

/-- The kernel after the children of a process have been given to the first one. -/
def Kernel.reparented (k : Kernel) (i : Fin NPROC) : Kernel :=
  { k with proc := fun j =>
      if (k.proc j).parent = some i then { k.proc j with parent := some k.initproc } else k.proc j }

/-- The kernel after a process has ended. -/
def Kernel.exited (k : Kernel) (i : Fin NPROC) (status : ℤ) : Kernel :=
  (k.reparented i).setProc i { (k.reparented i).proc i with xstate := status, state := .zombie }

omit [KernelImage] in
/-- A process ends, unless it is the first one. -/
theorem kexit_run (status : ℤ) :
    kexit i status k = if i = k.initproc then .error .initExiting else .ok ((), k.exited i status) := by
  rw [kexit, bind_run]
  change (if i = k.initproc then panic .initExiting else _ : KernelM Unit) k = _
  split_ifs with h
  · rfl
  · rfl

omit [KernelImage] in
/-- A process that is killed stops the kernel only if it is the first one. -/
theorem kexit_yields : Yields (do kexit i (-1); pure Outcome.gone) k (fun _ _ => True)
    (fun e => e = .initExiting) := by
  rw [yields_bind]
  refine ⟨fun _ _ _ => (yields_pure _ _ _ _).2 trivial, ?_⟩
  intro e he
  rw [kexit_run] at he
  by_cases hinit : i = k.initproc
  · rw [if_pos hinit] at he
    cases he
    rfl
  · rw [if_neg hinit] at he
    cases he

omit [KernelImage] in
/-- Reparenting changes the parent field only. -/
theorem reparented_proc (j : Fin NPROC) :
    ∃ parent, (k.reparented i).proc j = { k.proc j with parent := parent } := by
  change ∃ parent, (if (k.proc j).parent = some i then _ else _) = _
  split_ifs with h
  · exact ⟨_, rfl⟩
  · exact ⟨(k.proc j).parent, rfl⟩

end Exit

/-- What an operation on the memory of a process with record `p` can do, with its outcome. -/
inductive MemEffect (p : Proc) (s : Phys) : Op → Outcome → Proc → Phys → Prop
  | grow (n : BitVec 32) (nonneg : 0 ≤ n.toInt) :
      MemEffect p s (.sbrk n) (.result (sbrkTo p.sz n.toInt).1)
        { p with sz := (sbrkTo p.sz n.toInt).2 } s
  | shrink (n : BitVec 32) (s' : Phys) (neg : n.toInt < 0)
      (dealloced : Dealloced p.pagetable p.sz (sbrkTo p.sz n.toInt).2 s (sbrkTo p.sz n.toInt).2 s') :
      MemEffect p s (.sbrk n) (.result (sbrkTo p.sz n.toInt).1)
        { p with sz := (sbrkTo p.sz n.toInt).2 } s'
  | mapzero (size : BitVec 32) :
      MemEffect p s (.mapzero size) (.result (sysMapzero p size.toInt).1) (sysMapzero p size.toInt).2 s
  | mapRoFailed (va : BitVec 64) (s' : Phys) (growth : LeafGrowth p.pagetable (fun _ _ => False) s s') :
      MemEffect p s (.mapRo va) (.result minusOne) p s'
  | mapRo (va : BitVec 64) (s' : Phys) (low : va.toNat / 4096 < tfVpn)
      (unmapped : leaf s.mem p.pagetable (va.toNat / 4096) = none)
      (growth : LeafGrowth p.pagetable
        (fun v perm => v = va.toNat / 4096 ∧ perm = PTE_R ||| PTE_U) s s') :
      MemEffect p s (.mapRo va) (.result 0) { p with mapRoVa := PGROUNDDOWN va.toNat } s'
  | load (va : BitVec 64) (r : Option UInt8) (p' : Proc) (s' : Phys)
      (outcome : LoadOutcome p va.toNat s r p' s') :
      MemEffect p s (.load va) (r.elim .gone .loaded) p' s'
  | store (va : BitVec 64) (byte : UInt8) (r : Bool) (p' : Proc) (s' : Phys)
      (outcome : StoreOutcome p va.toNat byte s r p' s') :
      MemEffect p s (.store va byte) (if r then .stored else .gone) p' s'
  | copyin (va len : BitVec 64) (r : Option (List UInt8)) (s' : Phys)
      (filled : Filled p.pagetable (p.CopyPage va.toNat len.toNat) s s')
      (seen : p.Materialised s va.toNat len.toNat →
        s'.exhausted = true ∨ r = (view s p).copyin va.toNat len.toNat) :
      MemEffect p s (.copyin va len) (.copiedIn r) p s'
  | copyout (va : BitVec 64) (bytes : List UInt8) (r : ℤ) (s' : Phys)
      (growth : LeafGrowth p.pagetable p.CopyVpn s s')
      (seen : p.Materialised s va.toNat bytes.length →
        CopiedOut (view s p) (view s' p) va.toNat bytes r s'.exhausted) :
      MemEffect p s (.copyout va bytes) (.copiedOut (decide (0 ≤ r))) p s'

section Inversion

variable {k k' : Kernel} {i : Fin NPROC} {op : Op} {o : Outcome}

omit [KernelImage] in
/-- The size of a 32-bit number of bytes. -/
theorem natAbs_toInt_le (n : BitVec 32) : n.toInt.natAbs ≤ 2 ^ 31 := by
  have h1 := BitVec.toInt_lt (x := n)
  have h2 := BitVec.le_toInt (x := n)
  omega

/-- The kernel after an operation on the memory of a process: the process goes on, or it is killed. -/
def Kernel.AfterMem (k : Kernel) (i : Fin NPROC) (o : Outcome) (p' : Proc) (s' : Phys) (k' : Kernel) :
    Prop :=
  (o ≠ .gone ∧ k' = { k with phys := s' }.setProc i p') ∨
    (o = .gone ∧ i ≠ k.initproc ∧ k' = ({ k with phys := s' }.setProc i p').exited i (-1))

omit [KernelImage] in
/-- A killed process ends. -/
theorem kexit_afterMem {p' : Proc} {s' : Phys} :
    Allows (do kexit i (-1); pure Outcome.gone) ({ k with phys := s' }.setProc i p')
      fun o k' => o = .gone ∧ k.AfterMem i o p' s' k' := by
  intro o k' hrun
  obtain ⟨_, t, hexit, hpure⟩ := bind_ok_iff.1 hrun
  rw [kexit_run] at hexit
  obtain ⟨rfl, rfl⟩ := Prod.mk.inj (Except.ok.inj hpure)
  by_cases hinit : i = ({ k with phys := s' }.setProc i p').initproc
  · rw [if_pos hinit] at hexit
    cases hexit
  · rw [if_neg hinit] at hexit
    obtain ⟨-, rfl⟩ := Prod.mk.inj (Except.ok.inj hexit)
    exact ⟨rfl, .inr ⟨rfl, hinit, rfl⟩⟩

/-- Every operation on memory that returns has one of the effects, and no other process is touched. -/
theorem runOp_memEffect (hok : (k.proc i).Ok k.phys) (hop : op.OnMemory) :
    Allows (runOp .lazy i op) k fun o k' =>
      ∃ p' s', MemEffect (k.proc i) k.phys op o p' s' ∧ k.AfterMem i o p' s' k' := by
  cases op with
  | sbrk n =>
    rw [runOp, allows_bind, allows_onProc]
    refine (sysSbrk_spec hok (natAbs_toInt_le n)).allows.mono ?_
    intro r s' hr
    obtain ⟨rfl, hgrow, hshrink⟩ := hr
    rw [allows_pure]
    refine ⟨_, s', ?_, .inl ⟨nofun, rfl⟩⟩
    by_cases hn : 0 ≤ n.toInt
    · rw [hgrow hn]
      exact .grow n hn
    · exact .shrink n s' (not_le.1 hn) (hshrink (not_le.1 hn))
  | mapzero size =>
    rw [runOp, allows_bind, allows_onProc, allows_pure, allows_pure]
    exact ⟨_, k.phys, .mapzero size, .inl ⟨nofun, rfl⟩⟩
  | mapRo va =>
    rw [runOp, allows_bind, allows_onProc]
    refine (sysMapRo_allows hok).mono ?_
    intro r s' hr
    rw [allows_pure]
    obtain ⟨rfl, hgrowth⟩ | ⟨rfl, hlow, hnone, hgrowth⟩ := hr
    · exact ⟨_, s', .mapRoFailed va s' hgrowth, .inl ⟨nofun, rfl⟩⟩
    · exact ⟨_, s', .mapRo va s' hlow hnone hgrowth, .inl ⟨nofun, rfl⟩⟩
  | load va =>
    rw [runOp, allows_bind, allows_onProc]
    refine (userLoad_allows hok).mono ?_
    intro r s' ho
    obtain ⟨r, p'⟩ := r
    have heffect := MemEffect.load va r p' s' ho
    cases r with
    | none =>
      refine kexit_afterMem.mono ?_
      intro o k' hk'
      obtain ⟨rfl, hk'⟩ := hk'
      exact ⟨p', s', heffect, hk'⟩
    | some b =>
      exact (allows_pure _ _ _).2 ⟨p', s', heffect, .inl ⟨nofun, rfl⟩⟩
  | store va byte =>
    rw [runOp, allows_bind, allows_onProc]
    refine (userStore_allows hok).mono ?_
    intro r s' ho
    obtain ⟨r, p'⟩ := r
    have heffect := MemEffect.store va byte r p' s' ho
    cases r with
    | false =>
      refine kexit_afterMem.mono ?_
      intro o k' hk'
      obtain ⟨rfl, hk'⟩ := hk'
      exact ⟨p', s', heffect, hk'⟩
    | true =>
      exact (allows_pure _ _ _).2 ⟨p', s', heffect, .inl ⟨nofun, rfl⟩⟩
  | copyin va len =>
    rw [runOp, allows_bind, allows_onProc, allows_bind]
    refine (copyin_spec len.toNat va.toNat k.phys hok).allows.mono ?_
    intro r s' hr
    rw [allows_pure, allows_pure]
    exact ⟨_, s', .copyin va len r s' hr.1 hr.2, .inl ⟨nofun, rfl⟩⟩
  | copyout va bytes =>
    rw [runOp, allows_bind, allows_onProc, allows_bind]
    refine (copyout_spec bytes va.toNat k.phys hok).allows.mono ?_
    intro r s' hr
    rw [allows_pure, allows_pure]
    exact ⟨_, s', .copyout va bytes r s' hr.1 hr.2, .inl ⟨nofun, rfl⟩⟩
  | setshm => exact hop.elim
  | fork => exact hop.elim
  | exec _ _ _ => exact hop.elim
  | exit _ => exact hop.elim
  | wait _ => exact hop.elim

/-- Every step of the kernel for an operation on memory has one of the effects. -/
theorem Kernel.Step.memEffect (hok : (k.proc i).Ok k.phys) (hop : op.OnMemory) (hstep : k.Step .lazy i op o k') :
    ∃ p' s', MemEffect (k.proc i) k.phys op o p' s' ∧ k.AfterMem i o p' s' k' :=
  runOp_memEffect hok hop o k' hstep.2

end Inversion

/-- Two records that say the same about the memory of a process. -/
structure Proc.SameMemory (p q : Proc) : Prop where
  pagetable : q.pagetable = p.pagetable
  trapframe : q.trapframe = p.trapframe
  sz : q.sz = p.sz
  vr : q.vr = p.vr
  mapRoVa : q.mapRoVa = p.mapRoVa
  shmVa : q.shmVa = p.shmVa
  usar : q.usarMemoriaCompartida = p.usarMemoriaCompartida

section SameMemory

variable {p q r : Proc} {s : Phys}

omit [KernelImage] in
theorem Proc.SameMemory.refl (p : Proc) : p.SameMemory p := ⟨rfl, rfl, rfl, rfl, rfl, rfl, rfl⟩

omit [KernelImage] in
theorem Proc.SameButFault.sameMemory (h : p.SameButFault q) : p.SameMemory q := by
  rw [h]
  exact ⟨rfl, rfl, rfl, rfl, rfl, rfl, rfl⟩

theorem Proc.SameMemory.ok (h : p.SameMemory q) (hok : p.Ok s) : q.Ok s where
  space := by
    rw [h.pagetable, h.trapframe]
    exact hok.space
  size := by
    rw [h.sz]
    exact hok.size
  region := by
    rw [h.vr]
    exact hok.region

omit [KernelImage] in
theorem Proc.SameMemory.inRegion (h : p.SameMemory q) (va : ℕ) : q.InRegion va ↔ p.InRegion va := by
  rw [Proc.InRegion, Proc.InRegion, h.vr]

omit [KernelImage] in
theorem Proc.SameMemory.view_eq (h : p.SameMemory q) : view s q = view s p := by
  funext vpn
  have hpromised : q.promised vpn = p.promised vpn := by
    simp only [Proc.promised, Proc.InRegion, h.vr, h.sz]
  rw [view, view, h.pagetable, hpromised]

end SameMemory

/-- The slot holds a process that has not been freed yet. -/
def Proc.Live (p : Proc) : Prop := p.state ≠ .unused

omit [KernelImage] in
theorem Proc.Live.of_runnable {p : Proc} (h : p.state = .runnable) : p.Live := by
  rw [Live, h]
  decide

instance (p : Proc) : Decidable p.Live := by
  unfold Proc.Live
  infer_instance

section Elsewhere

variable {k k' : Kernel} {i : Fin NPROC}

/-- The kernel has changed in one slot; the other records say the same about memory. -/
structure Kernel.Elsewhere (k k' : Kernel) (i : Fin NPROC) : Prop where
  same : ∀ j, j ≠ i → (k.proc j).SameMemory (k'.proc j)
  live : ∀ j, j ≠ i → ((k'.proc j).Live ↔ (k.proc j).Live)
  empty : ∀ j, j ≠ i → k.proc j = Proc.empty → k'.proc j = Proc.empty

omit [KernelImage] in
theorem elsewhere_setProc (k : Kernel) (i : Fin NPROC) (p : Proc) (s : Phys) :
    k.Elsewhere ({ k with phys := s }.setProc i p) i where
  same j hj := by
    rw [setProc_proc_of_ne _ hj]
    exact Proc.SameMemory.refl _
  live j hj := by rw [setProc_proc_of_ne _ hj]
  empty j hj h := by rwa [setProc_proc_of_ne _ hj]

omit [KernelImage] in
/-- The end of a process changes only the parents of others. -/
theorem elsewhere_exited (k : Kernel) (i : Fin NPROC) (p : Proc) (s : Phys) (status : ℤ) :
    k.Elsewhere (({ k with phys := s }.setProc i p).exited i status) i where
  same j hj := by
    rw [Kernel.exited, setProc_proc_of_ne _ hj]
    obtain ⟨parent, hparent⟩ := reparented_proc (k := { k with phys := s }.setProc i p) (i := i) j
    rw [hparent, setProc_proc_of_ne _ hj]
    exact ⟨rfl, rfl, rfl, rfl, rfl, rfl, rfl⟩
  live j hj := by
    rw [Kernel.exited, setProc_proc_of_ne _ hj]
    obtain ⟨parent, hparent⟩ := reparented_proc (k := { k with phys := s }.setProc i p) (i := i) j
    rw [hparent, setProc_proc_of_ne _ hj]
    rfl
  empty j hj h := by
    have hempty : ({ k with phys := s }.setProc i p).proc j = Proc.empty := by
      rw [setProc_proc_of_ne _ hj]
      exact h
    rw [Kernel.exited, setProc_proc_of_ne _ hj, Kernel.reparented]
    simp only [hempty]
    rfl

omit [KernelImage] in
/-- The record of a process that has ended. -/
theorem exited_self (k : Kernel) (i : Fin NPROC) (status : ℤ) :
    ∃ parent, (k.exited i status).proc i =
      { k.proc i with parent := parent, xstate := status, state := .zombie } := by
  obtain ⟨parent, hparent⟩ := reparented_proc (k := k) (i := i) i
  rw [Kernel.exited, setProc_proc_self, hparent]
  exact ⟨parent, rfl⟩

omit [KernelImage] in
/-- Whether the process goes on or is killed, only its own memory and size have changed. -/
theorem Kernel.AfterMem.spec {o : Outcome} {p' : Proc} {s' : Phys} (h : k.AfterMem i o p' s' k') :
    k'.phys = s' ∧ p'.SameMemory (k'.proc i) ∧ (p'.Live → (k'.proc i).Live) ∧ k.Elsewhere k' i ∧
      k'.sharedPage = k.sharedPage ∧ k'.refcount = k.refcount := by
  obtain ⟨-, rfl⟩ | ⟨-, -, rfl⟩ := h
  · refine ⟨rfl, ?_, ?_, elsewhere_setProc k i p' s', rfl, rfl⟩
    · rw [setProc_proc_self]
      exact Proc.SameMemory.refl p'
    · rw [setProc_proc_self]
      exact id
  · refine ⟨rfl, ?_, ?_, elsewhere_exited k i p' s' (-1), rfl, rfl⟩
    · obtain ⟨parent, hparent⟩ := exited_self ({ k with phys := s' }.setProc i p') i (-1)
      rw [hparent, setProc_proc_self]
      exact ⟨rfl, rfl, rfl, rfl, rfl, rfl, rfl⟩
    · obtain ⟨parent, hparent⟩ := exited_self ({ k with phys := s' }.setProc i p') i (-1)
      rw [hparent]
      exact nofun

end Elsewhere

/-- User accesses, and the copies that the kernel makes for a process. -/
def Op.IsAccess : Op → Prop
  | .load _ | .store _ _ | .copyin _ _ | .copyout _ _ => True
  | _ => False

/-- An access maps pages of the region and pages below the size at most. -/
theorem MemEffect.access {p p' : Proc} {s s' : Phys} {op : Op} {o : Outcome} (h : p.Ok s)
    (he : MemEffect p s op o p' s') (hop : op.IsAccess) :
    p.SameMemory p' ∧ LeafGrowth p.pagetable p.FaultVpn s s' := by
  have hcopy : ∀ vpn perm, p.CopyVpn vpn perm → p.FaultVpn vpn perm := by
    intro vpn perm hv
    exact ⟨hv.1, vpn * 4096, Nat.mul_div_cancel _ (by decide), .inr hv.2⟩
  cases he with
  | load va r _ _ outcome =>
    obtain ⟨pa, ha, -⟩ := id outcome
    exact ⟨ha.proc.sameMemory, outcome.leafGrowth h⟩
  | store va byte r _ _ outcome =>
    obtain ⟨pa, s₁, ha, -⟩ := id outcome
    exact ⟨ha.proc.sameMemory, outcome.leafGrowth h⟩
  | copyin va len r _ filled =>
    refine ⟨Proc.SameMemory.refl p, filled.leafGrowth h.space.within ?_⟩
    intro vpn perm page hpage
    exact hcopy vpn perm ⟨hpage.2.2.1, hpage.2.2.2.1⟩
  | copyout va bytes r _ growth =>
    exact ⟨Proc.SameMemory.refl p, growth.mono hcopy⟩
  | grow n nonneg => exact hop.elim
  | shrink n _ neg dealloced => exact hop.elim
  | mapzero size => exact hop.elim
  | mapRoFailed va _ growth => exact hop.elim
  | mapRo va _ low unmapped growth => exact hop.elim

/-- A `mapzero` keeps the process and its region below the trapframe. -/
def Op.Fits (p : Proc) : Op → Prop
  | .mapzero size => p.MapzeroFits size.toInt
  | _ => True

/-- Two records with the same page table, trapframe and share of the shared page. -/
structure Proc.SameHandles (p q : Proc) : Prop where
  pagetable : q.pagetable = p.pagetable
  trapframe : q.trapframe = p.trapframe
  shmVa : q.shmVa = p.shmVa
  usar : q.usarMemoriaCompartida = p.usarMemoriaCompartida
  state : q.state = p.state

/-- What holds of every operation on memory. -/
structure MemSound (p : Proc) (s : Phys) (p' : Proc) (s' : Phys) : Prop where
  ok : p'.Ok s'
  mapRo : p'.MapRoOk
  step : SpaceStep p.pagetable s s'
  handles : p.SameHandles p'

section Sound

variable {p p' : Proc} {s s' : Phys} {op : Op} {o : Outcome}

omit [KernelImage] in
theorem Proc.SameHandles.refl (p : Proc) : p.SameHandles p := ⟨rfl, rfl, rfl, rfl, rfl⟩

omit [KernelImage] in
theorem Proc.SameButFault.sameHandles (h : p.SameButFault p') : p.SameHandles p' := by
  rw [h]
  exact ⟨rfl, rfl, rfl, rfl, rfl⟩

/-- Adding leaves and writing user pages is sound. -/
theorem memSound_of_growth {allowed : ℕ → ℕ → Prop} (h : p.Ok s) (hro : p.MapRoOk)
    (hg : LeafGrowth p.pagetable allowed s s') : MemSound p s p s' :=
  ⟨h.of_leafGrowth hg, hro, hg.step, Proc.SameHandles.refl p⟩

/-- `mapzero` only changes the record. -/
theorem memSound_mapzero {size : BitVec 32} (h : p.Ok s) (hro : p.MapRoOk)
    (hfits : p.MapzeroFits size.toInt) : MemSound p s (sysMapzero p size.toInt).2 s := by
  by_cases hpos : 0 < size.toInt
  · have hsz := (hfits hpos).1
    rw [sysMapzero_pos hpos (natAbs_toInt_le size) hsz]
    refine ⟨⟨h.space, hsz, fun _ => ?_⟩, hro, SpaceStep.refl h.space.within, rfl, rfl, rfl, rfl, rfl⟩
    obtain heq | hle := hfits.limit hpos BitVec.toInt_lt
    · exact heq.le.trans hsz
    · exact hle.trans h.size
  · rw [sysMapzero_nonpos (not_lt.1 hpos)]
    exact ⟨h, hro, SpaceStep.refl h.space.within, Proc.SameHandles.refl p⟩

/-- Every operation on memory whose `mapzero` fits keeps the address space in order. -/
theorem MemEffect.sound (h : p.Ok s) (hro : p.MapRoOk) (hfits : op.Fits p)
    (he : MemEffect p s op o p' s') : MemSound p s p' s' := by
  cases he with
  | grow n nonneg =>
    exact ⟨⟨h.space, sbrkTo_le h.size, h.region⟩, hro, SpaceStep.refl h.space.within, rfl, rfl, rfl, rfl, rfl⟩
  | shrink n _ neg dealloced =>
    refine ⟨⟨h.space.of_step dealloced.step ?_, sbrkTo_le h.size, h.region⟩, hro, dealloced.step, rfl,
      rfl, rfl, rfl, rfl⟩
    intro v hv
    rw [dealloced.leaf_eq, removed_of_le _ ((pageCount_le h.size).trans hv)]
  | mapzero size => exact memSound_mapzero h hro hfits
  | mapRoFailed va _ growth => exact memSound_of_growth h hro growth
  | mapRo va _ low unmapped growth =>
    have hsound := memSound_of_growth h hro growth
    refine ⟨⟨hsound.ok.space, h.size, h.region⟩, ⟨(PGROUNDDOWN_facts va.toNat).1, ?_⟩, growth.step, rfl,
      rfl, rfl, rfl, rfl⟩
    obtain ⟨-, hpage⟩ := PGROUNDDOWN_facts va.toNat
    have hlow : va.toNat / 4096 < 67108862 := low
    change PGROUNDDOWN va.toNat < 2 ^ 38 - 4096 - 4096
    omega
  | load va r _ _ outcome =>
    obtain ⟨pa, ha, -⟩ := id outcome
    have hsound := memSound_of_growth h hro (outcome.leafGrowth h)
    have hro' : p'.MapRoOk := by
      rw [Proc.MapRoOk, ha.proc.sameMemory.mapRoVa]
      exact hro
    exact ⟨ha.proc.sameMemory.ok hsound.ok, hro', hsound.step, ha.proc.sameHandles⟩
  | store va byte r _ _ outcome =>
    obtain ⟨pa, s₁, ha, -⟩ := id outcome
    have hsound := memSound_of_growth h hro (outcome.leafGrowth h)
    have hro' : p'.MapRoOk := by
      rw [Proc.MapRoOk, ha.proc.sameMemory.mapRoVa]
      exact hro
    exact ⟨ha.proc.sameMemory.ok hsound.ok, hro', hsound.step, ha.proc.sameHandles⟩
  | copyin va len r _ filled =>
    have hg : LeafGrowth p.pagetable (fun _ _ => True) s s' := filled.leafGrowth h.space.within fun _ _ _ _ => trivial
    exact memSound_of_growth h hro hg
  | copyout va bytes r _ growth => exact memSound_of_growth h hro growth

/-- Only a shrinking `sbrk` removes leaves. -/
theorem MemEffect.leaf_kept (h : p.Ok s) (he : MemEffect p s op o p' s') {v w : ℕ}
    (hw : leaf s.mem p.pagetable v = some w) (hv : p.sz ≤ p'.sz ∨ v < pageCount p'.sz) :
    leaf s'.mem p.pagetable v = some w := by
  cases he with
  | grow n nonneg => exact hw
  | shrink n _ neg dealloced =>
    rw [dealloced.leaf_eq]
    obtain hv | hv := hv
    · have hle : pageCount p.sz ≤ pageCount (sbrkTo p.sz n.toInt).2 := pageCount_mono hv
      rw [removed, without, if_neg (by omega), hw]
    · rw [removed_of_lt _ hv, hw]
  | mapzero size => exact hw
  | mapRoFailed va _ growth => exact growth.old v w hw
  | mapRo va _ low unmapped growth => exact growth.old v w hw
  | load va r _ _ outcome => exact (outcome.leafGrowth h).old v w hw
  | store va byte r _ _ outcome => exact (outcome.leafGrowth h).old v w hw
  | copyin va len r _ filled => exact filled.old v w hw
  | copyout va bytes r _ growth => exact growth.old v w hw

end Sound

end Xv6
