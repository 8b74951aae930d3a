import Xv6.Sched.Kinship
import Xv6.Sched.WaitResult

/-!
# Exit and wait

The parents of processes along every interleaving, and what `kwait` returns: an exiting process leaves
its status to be found by its parent, exactly one `kwait` of the parent takes it, and the slot is freed
only then.
-/

namespace Xv6.Sched

open Function Library

variable {C L D K : Type} [DecidableEq C] {client : Client L D K} {instr : Instr L K}
  {e : Event}

namespace Machine

variable {s t : Machine C L D K} {c : C} {next : Pc L K}

namespace Kinship

section

variable (hk : Kinship s) (hs : Exclusive s)

include hk hs

/-- An instruction keeps the invariant. -/
theorem code (hcode : Sched.code (s.running c) (s.here c) = some instr) (hnext : instr.Next s.proc next)
    (hgoes : Goes s c next t) (hproc : t.proc = instr.effect s.nextpid s.proc) : Kinship t := by
  have hkin := code_kin (hs.here_wf c) hcode
  refine hk.of_goes hs hgoes ?_
  cases instr with
  | goto | acquire | release | setCurrent =>
    cases hnext
    exact .of_next hk hproc (hkin s.proc)
  | read i =>
    cases hnext
    exact .of_next hk hproc (hkin s.proc)
  | any =>
    obtain ⟨value, rfl⟩ := hnext
    exact .of_next hk hproc (hkin value s.proc)
  | write i f =>
    cases hnext
    exact .of_writes hk hs (fun j hj => by rw [hproc]; exact update_of_ne hj ..)
      (by rw [hproc]; exact update_self ..) hkin
  | allocpid i =>
    cases hnext
    obtain ⟨-, hnext, hchild, hrest⟩ := hkin
    have hunused := hs.sees c i _ (code_typed (hs.here_wf c) hcode).1
    have hdead : ∀ j, (s.proc j).parent ≠ some i := by
      intro j hj
      have hlive := hk.alive j i hj
      rw [hunused] at hlive
      cases hlive
    refine .of_state (f := fun proc => { proc i with pid := s.nextpid, state := .used }) hk
      (fun j hj => by rw [hproc]; exact update_of_ne hj ..)
      (by rw [hproc]; exact update_self ..) rfl nofun (.inr ⟨?_, hdead⟩)
      (fun _ h => absurd rfl h) ?_ hchild hrest
    · rintro rfl
      have hlive := hk.first
      rw [hunused] at hlive
      cases hlive
    · intro q b hq
      rw [hnext] at hq
      cases hq
      exact hk.unused i hunused
  | context | swtch | sched => cases hnext

/-- Setting a context up keeps the invariant. -/
theorem context {i : Fin NPROC} {entry : K} (hcode : Sched.code (s.running c) (s.here c) = some (.context i next))
    (hgoes : Goes (s.setContext i entry) c next t)
    (hproc : t.proc = update s.proc i { s.proc i with pagefaultCount := 0, vr := ⟨0, 0, false⟩ }) : Kinship t := by
  obtain ⟨hold, hkin, hchild, hrest⟩ := code_kin (hs.here_wf c) hcode
  have hused := hs.used_of_kin hold
  have hhere := hs.here_setContext hused entry
  have hk₁ : Kinship (s.setContext i entry) := by
    refine hk.of_points rfl ?_ fun d => .inl ⟨hhere d, rfl⟩
    intro t q b ht
    rw [setContext_point] at ht
    split at ht
    · cases ht
    · exact ht
  refine hk₁.of_goes (hs.setContext hused entry) hgoes (.of_alike hk₁ ?_ ?_ ?_ ?_ ?_)
  · intro j
    rw [hproc]
    exact field_update Proc.parent (by rfl) j
  · intro j
    rw [hproc]
    exact .inl (field_update Proc.state (by rfl) j)
  · rw [hhere, hkin]
  · intro q hq
    exact none_elim hchild hq
  · intro rest hq
    exact none_elim hrest hq

/-- A process that starts or goes on in the code of the client knows no children. -/
theorem client_step (hkin : next.kin = (s.here c).kin) (hchild : next.child = none) (hrest : next.unvisited = none)
    (hgoes : Goes s c next t) (hparent : ∀ i, (t.proc i).parent = (s.proc i).parent)
    (hstate : ∀ i, (t.proc i).state = (s.proc i).state) : Kinship t :=
  hk.of_goes hs hgoes (.of_alike hk hparent (fun i => .inl (hstate i)) hkin
    (fun _ => none_elim hchild) (fun _ => none_elim hrest))

/-- Every step keeps the invariant. -/
theorem step [DecidableEq L] (h : Step client s e t) : Kinship t := by
  cases hs.acts h with
  | code c instr next hcode hready hnext hgoes hproc hlock hdata => exact hk.code hs hcode hnext hgoes hproc
  | context c i next hcode hgoes hproc hlock hdata => exact hk.context hs hcode hgoes hproc
  | resume c q next hcode hidle ht =>
    have hkin : next.kin = none := code_kin (hs.here_wf c) hcode
    rw [ht]
    refine hk.of_points rfl ?_ ?_
    · intro t q b ht
      rw [resume_point] at ht
      split at ht
      · exact none_elim hkin ht
      · exact ht
    · intro d
      by_cases hd : d = c
      · rw [hd, resume_here_self]
        exact .inr (hs.resumable hcode).kinship
      · exact .inl ⟨resume_here_ne hd, resume_running_ne hd⟩
  | suspend c p next hcode hrun honly ht =>
    have hkin : next.kin = (s.here c).kin := code_kin (hs.here_wf c) hcode
    obtain ⟨-, ⟨rest, hsched⟩, -⟩ := hs.own c p hrun
    rw [ht]
    refine hk.of_points rfl ?_ ?_
    · intro t q b ht
      rw [suspend_point] at ht
      split at ht
      · rename_i htp
        rw [hkin, Exclusive.here_of_running hrun] at ht
        rw [htp]
        exact ht
      · exact ht
    · intro d
      by_cases hd : d = c
      · rw [hd, suspend_here_self, hsched]
        exact .inr ⟨rfl, rfl⟩
      · exact .inl ⟨suspend_here_ne hd fun hp => hd (hs.running_unique hp hrun), suspend_running_ne hd⟩
  | clientAcquire c back l k k' hop hlock hgoes hproc | clientRelease c back l k k' hop hlock hgoes hproc
  | access c back d k k' hop hgoes hproc =>
    obtain ⟨hkin, hchild, hrest⟩ := Pc.frame_kin back k k'
    exact hk.client_step hs (by rw [hop.here]; exact hkin) hchild hrest hgoes (fun i => by rw [hproc])
      (fun i => by rw [hproc])
  | wakeup c back chan k k' hop hgoes hproc =>
    obtain ⟨hkin, hchild, hrest⟩ := Pc.frame_kin back k k'
    refine hk.client_step hs ?_ ?_ ?_ hgoes (fun i => by rw [hproc]) (fun i => by rw [hproc])
    · rw [hop.here]
      exact hkin
    · exact hchild
    · exact hrest
  | own c p op k k' hrun hpc hnext hgoes hproc hlock hdata =>
    refine hk.client_step hs (by rw [hpc]; rfl) rfl rfl hgoes (fun i => ?_) (fun i => ?_)
    · rw [hproc]
      exact field_update Proc.parent (op.apply_fields _).2.1 i
    · rw [hproc]
      exact field_update Proc.state (op.apply_fields _).1 i
  | call c p op k next hrun hpc hnext hcall hgoes hproc hlock hdata =>
    obtain ⟨hkin, hchild, hrest⟩ := Op.call_kin hcall
    exact hk.client_step hs (by rw [hpc, hkin]; rfl) hchild hrest hgoes (fun i => by rw [hproc])
      (fun i => by rw [hproc])
  | interrupt c next hfree hnext hgoes hproc hlock hdata =>
    obtain rfl | ⟨chan⟩ | ⟨k, hstart⟩ := hnext
    · exact hk.client_step hs (by rfl) (by rfl) (by rfl) hgoes (fun i => by rw [hproc]) (fun i => by rw [hproc])
    · exact hk.of_goes hs hgoes (.of_next hk hproc (.same rfl (.inl rfl) (.inl rfl)))
    · exact hk.client_step hs (by rfl) (by rfl) (by rfl) hgoes (fun i => by rw [hproc]) (fun i => by rw [hproc])
  | iret c k back hpc hend hgoes hproc hlock hdata =>
    have hwait := (hpc ▸ hs.here_wf c : (Pc.handler k back).WF (s.running c)).2.2.1
    exact hk.client_step hs (by rw [hpc]; rfl) (Pc.child_of_holdsWait hwait) (Pc.unvisited_of_holdsWait hwait) hgoes
      (fun i => by rw [hproc]) (fun i => by rw [hproc])

end

omit [DecidableEq C] in
/-- The invariant holds after `userinit`. -/
theorem initial (h : Initial client s) : Kinship s := by
  obtain ⟨trapframe, pagetable, -, -, hfirst⟩ := h.first
  have hparent : ∀ i, (s.proc i).parent = none := by
    intro i
    by_cases hi : i = initproc
    · rw [hi, hfirst]
      rfl
    · rw [h.others i hi]
      rfl
  exact {
    unused := fun i _ => hparent i
    kin := by
      intro t q b ht
      cases t with
      | sched c =>
        change (s.sched c).kin = _ at ht
        rw [h.sched] at ht
        cases ht
      | proc p =>
        change (s.pc p).kin = _ at ht
        rw [h.pc] at ht
        split at ht <;> cases ht
    child := fun c q hq => by rw [h.here] at hq; cases hq
    unvisited := fun c rest hq => by rw [h.here] at hq; cases hq
    alive := fun i j hij => by rw [hparent] at hij; cases hij
    born := fun i hi hunused _ => absurd (by rw [h.others i hi]; rfl) hunused
    first := by
      rw [hfirst]
      trivial }

end Kinship

end Machine

/-- What a step does to the exit of slot `i` that no `kwait` has taken; an exit while another one is not
taken, and a reap of something else, do not fit. -/
def exitStep (i : Fin NPROC) (pending : Option (ℕ × ℤ)) : Event → Option (Option (ℕ × ℤ))
  | .exit j pid status =>
    if j = i then (if pending = none then some (some (pid, status)) else none) else some pending
  | .reap _ j pid status =>
    if j = i then (if pending = some (pid, status) then some none else none) else some pending
  | _ => some pending

/-- The exit of slot `i` that no `kwait` has taken, if all exits and reaps fit. -/
def pendingExit (i : Fin NPROC) (events : List Event) : Option (Option (ℕ × ℤ)) :=
  events.foldlM (exitStep i) none

variable {me : Option (Fin NPROC)} {pc : Pc L K} {status : ℤ} {pid : ℕ}

namespace Pc

/-- The status with which the process of the thread exits. -/
def exiting : Pc L K → Option ℤ
  | .yieldAcquire k | .yieldState k | .yieldSched k | .yieldRelease k => k.exiting
  | .sleepAcquire _ _ k | .sleepRelease _ _ k | .sleepState _ _ k => k.exiting
  | .sleepSched _ k | .sleepTidy _ k | .sleepUnlock _ k | .sleepReacquire _ k => k.exiting
  | .wakeup _ _ k | .wakeupTest _ _ _ k | .wakeupRelease _ _ _ k | .handler _ k => k.exiting
  | .exitWait status | .reparent _ status | .reparentAssign _ _ status | .exitWakeup status => some status
  | .exitAcquire status | .exitState status => some status
  | _ => none

/-- The zombie that the thread has found, with the values that `kwait` returns. -/
def found : Pc L K → Option (Fin NPROC × ℕ × ℤ)
  | .waitCopyout q pid status _ | .waitFree q pid status _ => some (q, pid, status)
  | _ => none

/-- A zombie that was found is still locked. -/
theorem slotLock_of_found {q : Fin NPROC} (h : pc.found = some (q, pid, status)) : pc.slotLock me = some q := by
  cases pc <;> (cases h <;> rfl)

/-- A thread without a slot lock has found no zombie. -/
theorem found_of_slotLock (h : pc.slotLock me = none) : pc.found = none := by
  cases hfound : pc.found with
  | none => rfl
  | some found => rw [slotLock_of_found hfound] at h; cases h

/-- The code of the client has found no zombie. -/
theorem frame_exit (back : Option (Pc L K)) (k k' : K) :
    (frame back k').exiting = (frame back k).exiting ∧ (frame back k').found = none := by
  cases back <;> exact ⟨rfl, rfl⟩

end Pc

/-- What an assignment does to the exit of a process. -/
inductive ExitWrites (me : Option (Fin NPROC)) (pc : Pc L K) (i : Fin NPROC)
    (f : (Fin NPROC → Proc) → Proc) (next : Pc L K) : Prop
  /-- Nothing. -/
  | keep (hevent : pc.event me = .silent) (hexiting : next.exiting = pc.exiting) (hfound : next.found = none)
      (hpid : ∀ proc, (f proc).pid = (proc i).pid) (hxstate : ∀ proc, (f proc).xstate = (proc i).xstate)
      (hstate : (∀ proc, (f proc).state = (proc i).state ∨
          (proc i).state = .sleeping ∧ (f proc).state = .runnable) ∨
        (me = some i ∧ pc.ownState = .running ∨ pc.sees = some (i, .runnable) ∨ ∃ b, pc.kin = some (i, b)) ∧
          ∀ proc, Machine.Live (f proc).state)
  /-- A process becomes a zombie. -/
  | exit (status : ℤ) (hevent : pc.event me = .silent) (hme : me = some i) (hslot : pc.slotLock me = some i)
      (hexiting : pc.exiting = some status) (hnext : next.exiting = none) (hfound : next.found = none)
      (hpid : ∀ proc, (f proc).pid = (proc i).pid) (hxstate : ∀ proc, (f proc).xstate = status)
      (hstate : ∀ proc, (f proc).state = .zombie)
  /-- The creation of a process fails. -/
  | abandon (hevent : pc.event me = .silent) (hslot : pc.slotLock me = some i) (hkin : ∃ b, pc.kin = some (i, b))
      (hexiting : next.exiting = pc.exiting) (hfound : next.found = none)
      (hstate : ∀ proc, (f proc).state = .unused)
  /-- A zombie is freed. -/
  | reap (parent : Fin NPROC) (pid : ℕ) (status : ℤ) (hme : me = some parent)
      (hevent : pc.event me = .reap parent i pid status) (hfound : pc.found = some (i, pid, status))
      (hsees : pc.sees = some (i, .zombie)) (hexiting : next.exiting = pc.exiting)
      (hnext : next.found = none) (hstate : ∀ proc, (f proc).state = .unused)

/-- What an instruction has to do with exits. -/
def Instr.Exit (me : Option (Fin NPROC)) (pc : Pc L K) : Instr L K → Prop
  | .goto next | .acquire _ next | .release _ next | .setCurrent _ next =>
    next.exiting = pc.exiting ∧ next.found = none
  | .read i next => ∀ p, (next p).exiting = pc.exiting ∧
      ((next p).found = none ∨ (next p).found = some (i, p.pid, p.xstate))
  | .any next => ∀ value, (next value).exiting = pc.exiting ∧
      ((next value).found = none ∨ (next value).found = pc.found)
  | .write i f next => ExitWrites me pc i f next
  | .allocpid _ next | .context _ next => next.exiting = pc.exiting ∧ next.found = none
  | .swtch _ next => next.exiting = none
  | .sched next => next.exiting = pc.exiting

/-- The common part of the code and exits. -/
theorem commonCode_exit (hwf : pc.WF me) (hcode : commonCode me pc = some instr) : instr.Exit me pc := by
  cases pc with
  | wakeup chan rest k =>
    cases rest with
    | nil =>
      cases hcode
      exact ⟨rfl, Pc.found_of_slotLock hwf.2.1⟩
    | cons q rest =>
      cases hcode
      split <;> exact ⟨rfl, rfl⟩
  | wakeupTest chan q rest k =>
    cases hcode
    exact .keep rfl rfl rfl (fun _ => (awakened_fields ..).2.1) (fun _ => (awakened_fields ..).2.2.1)
      (.inl fun _ => awakened_state ..)
  | wakeupRelease chan q rest k =>
    cases hcode
    exact ⟨rfl, rfl⟩
  | _ => cases hcode

/-- The code of the scheduler and exits. -/
theorem schedCode_exit (hwf : pc.WF none) (hcode : schedCode pc = some instr) : instr.Exit none pc := by
  cases pc with
  | schedIdle | schedCurrent | schedBack | schedRelease =>
    cases hcode
    exact ⟨rfl, rfl⟩
  | schedScan rest => cases rest <;> (cases hcode; exact ⟨rfl, rfl⟩)
  | schedTest q rest =>
    cases hcode
    intro p
    beta_reduce
    split <;> exact ⟨rfl, .inl rfl⟩
  | schedState q rest =>
    cases hcode
    exact .keep rfl rfl rfl (fun _ => rfl) (fun _ => rfl) (.inr ⟨.inr (.inl rfl), fun _ => trivial⟩)
  | schedSwtch q rest =>
    cases hcode
    exact rfl
  | _ => exact commonCode_exit hwf hcode

/-- The code of a process and exits. -/
theorem procCode_exit {me : Fin NPROC} (hwf : pc.WF (some me))
    (hcode : procCode me pc = some instr) : instr.Exit (some me) pc := by
  cases pc with
  -- Locks taken and released.
  | forkret | yieldAcquire | sleepAcquire | sleepRelease | sleepUnlock
  | killedAcquire | killedRelease | setkilledAcquire | setkilledRelease | killRelease | killSkip
  | forkSkip | forkUnlock | forkWait | forkWaitRelease | forkRelock | forkRelease | forkAbort
  | exitAcquire | exitRelease | waitAcquire | waitLock | waitSkip | waitUnlock | waitReturn | waitKilled =>
    cases hcode
    exact ⟨rfl, rfl⟩
  | yieldRelease k =>
    cases hcode
    exact ⟨rfl, Pc.found_of_slotLock hwf.2.1⟩
  | sleepReacquire lk k =>
    cases hcode
    obtain ⟨l, k', rfl, rfl⟩ | ⟨k', rfl, rfl⟩ := hwf <;> exact ⟨rfl, rfl⟩
  | waitKilledRelease killed k =>
    cases hcode
    cases killed <;> exact ⟨rfl, rfl⟩
  | exitWait status =>
    obtain ⟨-, rfl⟩ := procCode_exitWait hcode
    exact ⟨rfl, rfl⟩
  -- Loops.
  | kill pid rest k | forkScan rest k => cases rest <;> (cases hcode; exact ⟨rfl, rfl⟩)
  | reparent rest status =>
    cases rest with
    | nil =>
      cases hcode
      exact ⟨rfl, rfl⟩
    | cons q rest =>
      cases hcode
      intro p
      beta_reduce
      split <;> exact ⟨rfl, .inl rfl⟩
  | waitScan rest havekids k =>
    cases rest with
    | nil =>
      cases hcode
      cases havekids <;> exact ⟨rfl, rfl⟩
    | cons q rest =>
      cases hcode
      intro p
      beta_reduce
      split <;> exact ⟨rfl, .inl rfl⟩
  -- Fields read.
  | killedRead | forkPidRead | exitWakeup | waitKilledRead =>
    cases hcode
    exact fun _ => ⟨rfl, .inl rfl⟩
  | waitPid =>
    cases hcode
    exact fun _ => ⟨rfl, .inr rfl⟩
  | killTest | forkTest | forkShare | waitTest =>
    cases hcode
    intro p
    beta_reduce
    split <;> exact ⟨rfl, .inl rfl⟩
  -- Values of the memory below.
  | forkTrapframe | forkPagetable =>
    cases hcode
    exact fun _ => ⟨rfl, .inl rfl⟩
  | forkShareMap | forkCopy =>
    cases hcode
    intro value
    beta_reduce
    split <;> exact ⟨rfl, .inl rfl⟩
  | waitCopyout =>
    cases hcode
    intro value
    beta_reduce
    split
    · exact ⟨rfl, .inl rfl⟩
    · exact ⟨rfl, .inr rfl⟩
  -- Fields written.
  | sleepTidy | setkilledState | forkInherit | forkParent | forkShareChild | forkShareParent
  | forkShareFlag | reparentAssign =>
    cases hcode
    exact .keep rfl rfl rfl (fun _ => rfl) (fun _ => rfl) (.inl fun _ => .inl rfl)
  | forkSetTrapframe | forkSetPagetable =>
    cases hcode
    split <;> exact .keep rfl rfl rfl (fun _ => rfl) (fun _ => rfl) (.inl fun _ => .inl rfl)
  | killState q k =>
    cases hcode
    exact .keep rfl rfl rfl (fun _ => rfl) (fun _ => rfl) (.inl fun _ => slain_state _)
  | yieldState | sleepState =>
    cases hcode
    exact .keep rfl rfl rfl (fun _ => rfl) (fun _ => rfl) (.inr ⟨.inl ⟨rfl, rfl⟩, fun _ => trivial⟩)
  | forkState =>
    cases hcode
    exact .keep rfl rfl rfl (fun _ => rfl) (fun _ => rfl) (.inr ⟨.inr (.inr ⟨_, rfl⟩), fun _ => trivial⟩)
  | exitState status =>
    cases hcode
    exact .exit status rfl rfl rfl rfl rfl rfl (fun _ => rfl) (fun _ => rfl) (fun _ => rfl)
  | forkFree =>
    cases hcode
    exact .abandon rfl rfl ⟨_, rfl⟩ rfl rfl (fun _ => rfl)
  | waitFree q pid status k =>
    cases hcode
    exact .reap me pid status rfl rfl rfl rfl rfl rfl (fun _ => rfl)
  | forkPid =>
    cases hcode
    exact ⟨rfl, rfl⟩
  | forkContext =>
    cases hcode
    exact ⟨rfl, rfl⟩
  -- Switches to the scheduler.
  | yieldSched | sleepSched | exitSched =>
    cases hcode
    exact rfl
  | _ => exact commonCode_exit hwf hcode

/-- The code and exits. -/
theorem code_exit (hwf : pc.WF me) (hcode : code me pc = some instr) : instr.Exit me pc := by
  cases me with
  | none => exact schedCode_exit hwf hcode
  | some p => exact procCode_exit hwf hcode

namespace Machine

variable {s t : Machine C L D K} {c : C} {next : Pc L K}

/-- The exit of slot `i` that no `kwait` has taken: of a process on its way through `kexit`, and of a
zombie. -/
def leaving (s : Machine C L D K) (i : Fin NPROC) : Option (ℕ × ℤ) :=
  match (s.pc i).exiting with
  | some status => some ((s.proc i).pid, status)
  | none => if (s.proc i).state = .zombie then some ((s.proc i).pid, (s.proc i).xstate) else none

/-- What points say about exits. -/
structure Exits (s : Machine C L D K) : Prop where
  exiting : ∀ p status, (s.pc p).exiting = some status → Live (s.proc p).state
  found : ∀ c q pid status, (s.here c).found = some (q, pid, status) →
    (s.proc q).pid = pid ∧ (s.proc q).xstate = status

/-- The exit of a slot is as it was. -/
structure SameExit (s t : Machine C L D K) (i : Fin NPROC) : Prop where
  exiting : (t.pc i).exiting = (s.pc i).exiting
  pid : (t.proc i).pid = (s.proc i).pid
  xstate : (t.proc i).xstate = (s.proc i).xstate
  state : (t.proc i).state = (s.proc i).state ∨ (s.proc i).state ≠ .zombie ∧ Live (t.proc i).state

omit [DecidableEq C] in
/-- What is left to be taken is as it was. -/
theorem SameExit.leaving_eq {i : Fin NPROC} (h : SameExit s t i) : t.leaving i = s.leaving i := by
  unfold leaving
  rw [h.exiting, h.pid, h.xstate]
  obtain hsame | ⟨hold, hlive⟩ := h.state
  · rw [hsame]
  · have hnew : (t.proc i).state ≠ .zombie := by
      intro hz
      rw [hz] at hlive
      cases hlive
    rw [if_neg hold, if_neg hnew]

omit [DecidableEq C] in
/-- A process on its way through `kexit` stays alive. -/
theorem SameExit.live {i : Fin NPROC} (h : SameExit s t i) (he : Exits s)
    (hi : (t.pc i).exiting = some status) : Live (t.proc i).state := by
  obtain hsame | ⟨-, hlive⟩ := h.state
  · rw [hsame]
    exact he.exiting i status (h.exiting ▸ hi)
  · exact hlive

/-- A thread that moves keeps the status with which its process exits. -/
theorem Goes.exiting_eq (h : Goes s c next t) (hnext : next.exiting = (s.here c).exiting) (i : Fin NPROC) :
    (t.pc i).exiting = (s.pc i).exiting := by
  by_cases hi : s.running c = some i
  · rw [← Exclusive.here_of_running hi, ← Exclusive.here_of_running (h.running ▸ hi), h.here_self, hnext]
  · rw [h.pc_of_ne hi]

/-- What a CPU has found in a slot that nobody else assigns is as it was. -/
theorem Exits.found_of_goes (he : Exits s) (hs : Exclusive s) (hgoes : Goes s c next t)
    (hself : ∀ q pid status, next.found = some (q, pid, status) →
      (t.proc q).pid = pid ∧ (t.proc q).xstate = status)
    (hother : ∀ q, (t.proc q).pid = (s.proc q).pid ∧ (t.proc q).xstate = (s.proc q).xstate ∨
      (s.here c).slotLock (s.running c) = some q) (d : C) (q : Fin NPROC) (pid : ℕ) (status : ℤ)
    (hd : (t.here d).found = some (q, pid, status)) :
    (t.proc q).pid = pid ∧ (t.proc q).xstate = status := by
  by_cases hdc : d = c
  · rw [hdc, hgoes.here_self] at hd
    exact hself q pid status hd
  · rw [hgoes.here_ne hs.thread hdc] at hd
    obtain ⟨hpid, hxstate⟩ | hslot := hother q
    · rw [hpid, hxstate]
      exact he.found d q pid status hd
    · exact absurd (hs.slotLock_unique (Pc.slotLock_of_found hd) hslot) hdc

/-- What a step shows fits the exits that are not taken. -/
def Fits (s : Machine C L D K) (e : Event) (t : Machine C L D K) : Prop :=
  ∀ i, exitStep i (s.leaving i) e = some (t.leaving i)

omit [DecidableEq C] in
/-- A silent step that changes no exit fits. -/
theorem Fits.of_same (h : ∀ i, SameExit s t i) : Fits s .silent t := by
  intro i
  rw [(h i).leaving_eq]
  rfl

/-- A move that changes no exit. -/
theorem Exits.of_goes (he : Exits s) (hs : Exclusive s) (hgoes : Goes s c next t)
    (hfound : ∀ q pid status, next.found = some (q, pid, status) →
      (t.proc q).pid = pid ∧ (t.proc q).xstate = status)
    (hsame : ∀ i, SameExit s t i) : Exits t :=
  ⟨fun p _ hp => (hsame p).live he hp,
    he.found_of_goes hs hgoes hfound fun q => .inl ⟨(hsame q).pid, (hsame q).xstate⟩⟩

omit [DecidableEq C] in
/-- A zombie, a free slot and a slot under creation are not on their way through `kexit`. -/
theorem Exits.exiting_none (he : Exits s) {i : Fin NPROC} (h : ¬Live (s.proc i).state) :
    (s.pc i).exiting = none := by
  cases hi : (s.pc i).exiting with
  | none => rfl
  | some status => exact absurd (he.exiting i status hi) h

section Writes

variable {i : Fin NPROC} {f : (Fin NPROC → Proc) → Proc}

/-- The exits of the slots that an assignment does not concern. -/
theorem SameExit.of_ne (hgoes : Goes s c next t) (hother : ∀ j, j ≠ i → t.proc j = s.proc j)
    (hnext : next.exiting = (s.here c).exiting ∨ s.running c = some i) {j : Fin NPROC} (hj : j ≠ i) :
    SameExit s t j where
  exiting := by
    obtain hsame | hrun := hnext
    · exact hgoes.exiting_eq hsame j
    · rw [hgoes.pc_of_ne]
      rw [hrun]
      exact fun h => hj (Option.some.inj h).symm
  pid := by rw [hother j hj]
  xstate := by rw [hother j hj]
  state := .inl (by rw [hother j hj])

/-- An assignment to a slot whose process is not on its way through `kexit`. -/
theorem Exits.of_slot (he : Exits s) (hs : Exclusive s) (hgoes : Goes s c next t)
    (hne : ∀ j, j ≠ i → SameExit s t j) (hslot : (s.here c).slotLock (s.running c) = some i)
    (hfound : next.found = none) (hnew : (t.pc i).exiting = none) : Exits t := by
  refine ⟨fun p status hp => ?_, he.found_of_goes hs hgoes (fun _ _ _ => none_elim hfound) fun q => ?_⟩
  · have hpi : p ≠ i := by
      rintro rfl
      rw [hnew] at hp
      cases hp
    exact (hne p hpi).live he hp
  · by_cases hq : q = i
    · rw [hq]
      exact .inr hslot
    · exact .inl ⟨(hne q hq).pid, (hne q hq).xstate⟩

section

variable (he : Exits s) (hs : Exclusive s) (hgoes : Goes s c next t) (hother : ∀ j, j ≠ i → t.proc j = s.proc j)

include he hs hgoes hother

/-- A process becomes a zombie. -/
theorem Exits.of_exit (hme : s.running c = some i) (hslot : (s.here c).slotLock (s.running c) = some i)
    (hexiting : (s.here c).exiting = some status) (hnext : next.exiting = none) (hfound : next.found = none)
    (hpid : (t.proc i).pid = (s.proc i).pid) (hxstate : (t.proc i).xstate = status)
    (hstate : (t.proc i).state = .zombie) : Exits t ∧ Fits s .silent t := by
  have hne : ∀ j, j ≠ i → SameExit s t j := fun j hj => .of_ne hgoes hother (.inr hme) hj
  have hold : (s.pc i).exiting = some status := by rw [← Exclusive.here_of_running hme, hexiting]
  have hnew : (t.pc i).exiting = none := by
    rw [← Exclusive.here_of_running (hgoes.running ▸ hme), hgoes.here_self, hnext]
  refine ⟨he.of_slot hs hgoes hne hslot hfound hnew, fun j => ?_⟩
  by_cases hj : j = i
  · rw [hj]
    change some (s.leaving i) = some (t.leaving i)
    simp only [leaving, hold, hnew, hstate, hpid, hxstate, if_true]
  · rw [(hne j hj).leaving_eq]
    rfl

/-- A slot whose process is not alive is freed or taken. -/
theorem Exits.of_dead (hslot : (s.here c).slotLock (s.running c) = some i) (hdead : ¬Live (s.proc i).state)
    (hexiting : next.exiting = (s.here c).exiting) (hfound : next.found = none)
    (hstate : (t.proc i).state ≠ .zombie) :
    Exits t ∧ t.leaving i = none ∧ ∀ j, j ≠ i → t.leaving j = s.leaving j := by
  have hne : ∀ j, j ≠ i → SameExit s t j := fun j hj => .of_ne hgoes hother (.inl hexiting) hj
  have hnew : (t.pc i).exiting = none := by
    rw [hgoes.exiting_eq hexiting i, he.exiting_none hdead]
  refine ⟨he.of_slot hs hgoes hne hslot hfound hnew, ?_, fun j hj => (hne j hj).leaving_eq⟩
  simp only [leaving, hnew, hstate, if_false]

/-- The effect of an assignment on exits. -/
theorem Exits.of_writes (hself : t.proc i = f s.proc) (hwrites : ExitWrites (s.running c) (s.here c) i f next) :
    Exits t ∧ Fits s ((s.here c).event (s.running c)) t := by
  cases hwrites with
  | keep hevent hexiting hfound hpid hxstate hstate =>
    have hsame : ∀ j, SameExit s t j := by
      intro j
      refine ⟨hgoes.exiting_eq hexiting j, ?_, ?_, ?_⟩
      · by_cases hj : j = i
        · rw [hj, hself, hpid]
        · rw [hother j hj]
      · by_cases hj : j = i
        · rw [hj, hself, hxstate]
        · rw [hother j hj]
      · by_cases hj : j = i
        · rw [hj, hself]
          obtain hsame | ⟨hold, hlive⟩ := hstate
          · obtain hsame | ⟨hsleep, hnew⟩ := hsame s.proc
            · exact .inl hsame
            · refine .inr ⟨?_, ?_⟩
              · rw [hsleep]
                exact nofun
              · rw [hnew]
                trivial
          · refine .inr ⟨?_, hlive s.proc⟩
            obtain ⟨hme, hown⟩ | hsees | ⟨b, hkin⟩ := hold
            · rw [hs.state_of_running hme, hown]
              exact nofun
            · rw [hs.sees c i _ hsees]
              exact nofun
            · rw [hs.used_of_kin hkin]
              exact nofun
        · exact .inl (by rw [hother j hj])
    rw [hevent]
    exact ⟨he.of_goes hs hgoes (fun _ _ _ => none_elim hfound) hsame, .of_same hsame⟩
  | exit status hevent hme hslot hexiting hnext hfound hpid hxstate hstate =>
    rw [hevent]
    exact he.of_exit hs hgoes hother hme hslot hexiting hnext hfound (by rw [hself, hpid])
      (by rw [hself, hxstate]) (by rw [hself, hstate])
  | abandon hevent hslot hkin hexiting hfound hstate =>
    obtain ⟨b, hkin⟩ := hkin
    have hused := hs.used_of_kin hkin
    have hdead : ¬Live (s.proc i).state := by
      rw [hused]
      exact id
    obtain ⟨ht, hi, hj⟩ := he.of_dead hs hgoes hother hslot hdead hexiting hfound (by rw [hself, hstate]; exact nofun)
    refine ⟨ht, ?_⟩
    intro j
    rw [hevent]
    by_cases hji : j = i
    · have hold : s.leaving i = none := by
        simp only [leaving, he.exiting_none hdead, hused, reduceCtorEq, if_false]
      rw [hji, hold, hi]
      rfl
    · rw [hj j hji]
      rfl
  | reap parent pid status hme hevent hfound hsees hexiting hnext hstate =>
    have hzombie := hs.sees c i _ hsees
    have hdead : ¬Live (s.proc i).state := by
      rw [hzombie]
      exact id
    obtain ⟨hpid, hxstate⟩ := he.found c i pid status hfound
    obtain ⟨ht, hi, hj⟩ := he.of_dead hs hgoes hother (Pc.slotLock_of_sees hsees) hdead hexiting hnext
      (by rw [hself, hstate]; exact nofun)
    refine ⟨ht, ?_⟩
    intro j
    rw [hevent]
    by_cases hji : j = i
    · have hold : s.leaving i = some (pid, status) := by
        simp only [leaving, he.exiting_none hdead, hzombie, hpid, hxstate, if_true]
      rw [hji, hold, hi]
      simp only [exitStep, if_true]
    · rw [hj j hji]
      exact if_neg (Ne.symm hji)

end

end Writes

/-- An instruction fits the exits. -/
theorem Exits.code (he : Exits s) (hs : Exclusive s) (hcode : Sched.code (s.running c) (s.here c) = some instr)
    (hnext : instr.Next s.proc next) (hgoes : Goes s c next t) (hproc : t.proc = instr.effect s.nextpid s.proc) :
    Exits t ∧ Fits s ((s.here c).event (s.running c)) t := by
  have hexit := code_exit (hs.here_wf c) hcode
  -- An instruction that assigns nothing changes no exit.
  have hquiet : t.proc = s.proc → next.exiting = (s.here c).exiting → ∀ i, SameExit s t i :=
    fun hsame hexiting i => ⟨hgoes.exiting_eq hexiting i, by rw [hsame], by rw [hsame], .inl (by rw [hsame])⟩
  cases instr with
  | goto | acquire | release | setCurrent =>
    cases hnext
    rw [event_silent hcode nofun]
    obtain ⟨hexiting, hfound⟩ := hexit
    have hsame := hquiet hproc hexiting
    exact ⟨he.of_goes hs hgoes (fun _ _ _ => none_elim hfound) hsame, .of_same hsame⟩
  | read i =>
    cases hnext
    rw [event_silent hcode nofun]
    obtain ⟨hexiting, hfound⟩ := hexit (s.proc i)
    have hsame := hquiet hproc hexiting
    refine ⟨he.of_goes hs hgoes ?_ hsame, .of_same hsame⟩
    intro q pid status h
    obtain hnone | hsome := hfound
    · rw [hnone] at h
      cases h
    · rw [hsome] at h
      cases h
      exact ⟨(hsame i).pid, (hsame i).xstate⟩
  | any =>
    obtain ⟨value, rfl⟩ := hnext
    rw [event_silent hcode nofun]
    obtain ⟨hexiting, hfound⟩ := hexit value
    have hsame := hquiet hproc hexiting
    refine ⟨he.of_goes hs hgoes ?_ hsame, .of_same hsame⟩
    intro q pid status h
    obtain hnone | hold := hfound
    · exact none_elim hnone h
    · rw [(hsame q).pid, (hsame q).xstate]
      exact he.found c q pid status (hold ▸ h)
  | write i f =>
    cases hnext
    exact he.of_writes hs hgoes (fun j hj => by rw [hproc]; exact update_of_ne hj ..)
      (by rw [hproc]; exact update_self ..) hexit
  | allocpid i =>
    cases hnext
    rw [event_silent hcode nofun]
    obtain ⟨hexiting, hfound⟩ := hexit
    have hsees : (s.here c).sees = some (i, .unused) := (code_typed (hs.here_wf c) hcode).1
    have hunused := hs.sees c i _ hsees
    have hdead : ¬Live (s.proc i).state := by
      rw [hunused]
      exact id
    have hused : (t.proc i).state = .used := by
      rw [hproc]
      change (update s.proc i _ i).state = .used
      rw [update_self]
    obtain ⟨ht, hi, hj⟩ := he.of_dead hs hgoes
      (fun j hj => by rw [hproc]; exact update_of_ne hj ..) (Pc.slotLock_of_sees hsees) hdead
      hexiting hfound (by rw [hused]; exact nofun)
    refine ⟨ht, ?_⟩
    intro j
    by_cases hji : j = i
    · have hold : s.leaving i = none := by
        simp only [leaving, he.exiting_none hdead, hunused, reduceCtorEq, if_false]
      rw [hji, hold, hi]
      rfl
    · rw [hj j hji]
      rfl
  | context | swtch | sched => cases hnext

omit [DecidableEq C] in
/-- The points of processes do not depend on what CPUs execute. -/
theorem Exits.of_points (he : Exits s) (hproc : t.proc = s.proc) (hpc : ∀ i, (t.pc i).exiting = (s.pc i).exiting)
    (hhere : ∀ d, t.here d = s.here d ∨ (t.here d).found = none) : Exits t ∧ Fits s .silent t := by
  have hsame : ∀ i, SameExit s t i := fun i => ⟨hpc i, by rw [hproc], by rw [hproc], .inl (by rw [hproc])⟩
  refine ⟨⟨fun p _ hp => (hsame p).live he hp, ?_⟩, .of_same hsame⟩
  intro d q pid status hd
  rw [hproc]
  obtain hold | hnone := hhere d
  · exact he.found d q pid status (hold ▸ hd)
  · exact none_elim hnone hd

/-- A process that can be resumed has found no zombie. -/
theorem Exits.found_resumable (h : pc.Resumable) : pc.found = none := by
  cases pc <;> first | rfl | cases h

/-- Setting a context up fits the exits. -/
theorem Exits.context (he : Exits s) (hs : Exclusive s) {i : Fin NPROC} {entry : K}
    (hcode : Sched.code (s.running c) (s.here c) = some (.context i next))
    (hgoes : Goes (s.setContext i entry) c next t)
    (hproc : t.proc = update s.proc i { s.proc i with pagefaultCount := 0, vr := ⟨0, 0, false⟩ }) :
    Exits t ∧ Fits s .silent t := by
  obtain ⟨hexiting, hfound⟩ := code_exit (hs.here_wf c) hcode
  have hused := hs.used_of_creating (code_typed (hs.here_wf c) hcode).1
  have hhere := hs.here_setContext hused entry
  obtain ⟨he₁, hfits⟩ : Exits (s.setContext i entry) ∧ Fits s .silent (s.setContext i entry) := by
    refine he.of_points rfl ?_ fun d => .inl (hhere d)
    intro j
    by_cases hj : j = i
    · have hdead : ¬Live (s.proc i).state := by
        rw [hused]
        exact id
      rw [hj, he.exiting_none hdead]
      change (update s.pc i _ i).exiting = none
      rw [update_self]
      rfl
    · exact congrArg Pc.exiting (update_of_ne hj ..)
  have hsame : ∀ j, SameExit (s.setContext i entry) t j := by
    intro j
    refine ⟨hgoes.exiting_eq (by rw [hhere, hexiting]) j, ?_, ?_, .inl ?_⟩
    · rw [hproc]
      exact field_update Proc.pid (by rfl) j
    · rw [hproc]
      exact field_update Proc.xstate (by rfl) j
    · rw [hproc]
      exact field_update Proc.state (by rfl) j
  refine ⟨he₁.of_goes (hs.setContext hused entry) hgoes (fun _ _ _ => none_elim hfound) hsame, ?_⟩
  intro j
  rw [(hsame j).leaving_eq]
  exact hfits j

/-- A silent move of a thread that has found no zombie. -/
theorem Exits.quiet (he : Exits s) (hs : Exclusive s) (hgoes : Goes s c next t)
    (hexiting : next.exiting = (s.here c).exiting) (hfound : next.found = none)
    (hpid : ∀ i, (t.proc i).pid = (s.proc i).pid) (hxstate : ∀ i, (t.proc i).xstate = (s.proc i).xstate)
    (hstate : ∀ i, (t.proc i).state = (s.proc i).state) : Exits t ∧ Fits s .silent t := by
  have hsame : ∀ i, SameExit s t i := fun i => ⟨hgoes.exiting_eq hexiting i, hpid i, hxstate i, .inl (hstate i)⟩
  exact ⟨he.of_goes hs hgoes (fun _ _ _ => none_elim hfound) hsame, .of_same hsame⟩

variable {op : Op L D K}

/-- A call other than that of `kexit` starts no exit. -/
theorem Op.call_exit (hcall : op.call = some next) (p : Fin NPROC) (pid : ℕ) :
    next.found = none ∧ ((∃ status, op = .exit status ∧ next.exiting = some status) ∨
      next.exiting = none ∧ ∀ i pending, exitStep i pending (op.event p pid) = some pending) := by
  cases op with
  | exit status =>
    cases hcall
    exact ⟨rfl, .inl ⟨status, rfl, rfl⟩⟩
  | sleep | killed | setkilled | kill | fork | wait =>
    cases hcall
    exact ⟨rfl, .inr ⟨rfl, fun _ _ => rfl⟩⟩
  | acquire | release | access | own | wakeup => cases hcall

variable {p : Fin NPROC}

/-- A call fits the exits. -/
theorem Exits.call (he : Exits s) (hs : Exclusive s) {k : K}
    (hrun : s.running c = some p) (hpc : s.here c = .client k) (hcall : op.call = some next)
    (hgoes : Goes s c next t) (hproc : t.proc = s.proc) : Exits t ∧ Fits s (op.event p (s.proc p).pid) t := by
  obtain ⟨hfound, ⟨status, rfl, hexiting⟩ | ⟨hexiting, hevent⟩⟩ := Op.call_exit hcall p (s.proc p).pid
  · have hstate : (s.proc p).state = .running := by
      rw [hs.state_of_running hrun, hpc]
      rfl
    have hold : (s.pc p).exiting = none := by
      rw [← Exclusive.here_of_running hrun, hpc]
      rfl
    have hnew : (t.pc p).exiting = some status := by
      rw [← Exclusive.here_of_running (hgoes.running ▸ hrun), hgoes.here_self, hexiting]
    have hne : ∀ j, j ≠ p → SameExit s t j := by
      intro j hj
      refine ⟨?_, by rw [hproc], by rw [hproc], .inl (by rw [hproc])⟩
      rw [hgoes.pc_of_ne]
      rw [hrun]
      exact fun h => hj (Option.some.inj h).symm
    refine ⟨⟨?_, he.found_of_goes hs hgoes (fun _ _ _ => none_elim hfound)
      fun q => .inl (by rw [hproc]; exact ⟨rfl, rfl⟩)⟩, ?_⟩
    · intro q st hq
      by_cases hqp : q = p
      · rw [hqp, hproc, hstate]
        trivial
      · exact (hne q hqp).live he hq
    · intro j
      by_cases hj : j = p
      · have hleave : s.leaving p = none := by
          simp only [leaving, hold, hstate, reduceCtorEq, if_false]
        have hleave' : t.leaving p = some ((s.proc p).pid, status) := by
          simp only [leaving, hnew, hproc]
        rw [hj, hleave, hleave']
        simp only [Op.event, exitStep, if_true]
      · rw [(hne j hj).leaving_eq]
        exact if_neg (Ne.symm hj)
  · have hquiet := he.quiet hs hgoes (by rw [hexiting, hpc]; rfl) hfound (fun i => by rw [hproc])
      (fun i => by rw [hproc]) (fun i => by rw [hproc])
    refine ⟨hquiet.1, ?_⟩
    intro i
    rw [hevent]
    exact hquiet.2 i

/-- Every step fits the exits. -/
theorem Exits.step [DecidableEq L] (he : Exits s) (hs : Exclusive s) (h : Step client s e t) :
    Exits t ∧ Fits s e t := by
  cases hs.acts h with
  | code c instr next hcode hready hnext hgoes hproc hlock hdata => exact he.code hs hcode hnext hgoes hproc
  | context c i next hcode hgoes hproc hlock hdata => exact he.context hs hcode hgoes hproc
  | resume c q next hcode hidle ht =>
    rw [ht]
    refine he.of_points rfl (fun i => rfl) ?_
    intro d
    by_cases hd : d = c
    · rw [hd, resume_here_self]
      exact .inr (found_resumable (hs.resumable hcode))
    · exact .inl (resume_here_ne hd)
  | suspend c p next hcode hrun honly ht =>
    have hexiting : next.exiting = (s.here c).exiting := code_exit (hs.here_wf c) hcode
    obtain ⟨-, ⟨rest, hsched⟩, -⟩ := hs.own c p hrun
    rw [ht]
    refine he.of_points rfl ?_ ?_
    · intro i
      by_cases hi : i = p
      · rw [hi, ← Exclusive.here_of_running hrun, ← hexiting]
        exact congrArg Pc.exiting (update_self ..)
      · exact congrArg Pc.exiting (update_of_ne hi ..)
    · intro d
      by_cases hd : d = c
      · rw [hd, suspend_here_self, hsched]
        exact .inr rfl
      · exact .inl (suspend_here_ne hd fun hp => hd (hs.running_unique hp hrun))
  | clientAcquire c back l k k' hop hlock hgoes hproc | clientRelease c back l k k' hop hlock hgoes hproc
  | access c back d k k' hop hgoes hproc =>
    obtain ⟨hexiting, hfound⟩ := Pc.frame_exit back k k'
    exact he.quiet hs hgoes (by rw [hop.here]; exact hexiting) hfound (fun i => by rw [hproc])
      (fun i => by rw [hproc]) (fun i => by rw [hproc])
  | wakeup c back chan k k' hop hgoes hproc =>
    exact he.quiet hs hgoes (by rw [hop.here]; exact (Pc.frame_exit back k k').1) rfl (fun i => by rw [hproc])
      (fun i => by rw [hproc]) (fun i => by rw [hproc])
  | own c p op k k' hrun hpc hnext hgoes hproc hlock hdata =>
    refine he.quiet hs hgoes (by rw [hpc]; rfl) rfl (fun i => ?_) (fun i => ?_) (fun i => ?_)
    · rw [hproc]
      exact field_update Proc.pid (op.apply_fields _).2.2.1 i
    · rw [hproc]
      exact field_update Proc.xstate (op.apply_fields _).2.2.2.1 i
    · rw [hproc]
      exact field_update Proc.state (op.apply_fields _).1 i
  | call c p op k next hrun hpc hnext hcall hgoes hproc hlock hdata =>
    exact he.call hs hrun hpc hcall hgoes hproc
  | interrupt c next hfree hnext hgoes hproc hlock hdata =>
    have hexiting : next.exiting = (s.here c).exiting ∧ next.found = none := by
      obtain rfl | ⟨chan⟩ | ⟨k, hstart⟩ := hnext <;> exact ⟨rfl, rfl⟩
    exact he.quiet hs hgoes hexiting.1 hexiting.2 (fun i => by rw [hproc]) (fun i => by rw [hproc])
      (fun i => by rw [hproc])
  | iret c k back hpc hend hgoes hproc hlock hdata =>
    have hslot := (hpc ▸ hs.here_wf c : (Pc.handler k back).WF (s.running c)).2.1
    exact he.quiet hs hgoes (by rw [hpc]; rfl) (Pc.found_of_slotLock hslot) (fun i => by rw [hproc])
      (fun i => by rw [hproc]) (fun i => by rw [hproc])

omit [DecidableEq C] in
/-- No process exits after `userinit`. -/
theorem Exits.initial (h : Initial client s) : Exits s ∧ ∀ i, s.leaving i = none := by
  have hpc : ∀ i, (s.pc i).exiting = none := by
    intro i
    rw [h.pc]
    split <;> rfl
  refine ⟨⟨?_, ?_⟩, ?_⟩
  · intro p status hp
    rw [hpc] at hp
    cases hp
  · intro c q pid status hq
    rw [h.here] at hq
    cases hq
  intro i
  obtain ⟨trapframe, pagetable, -, -, hfirst⟩ := h.first
  have hstate : (s.proc i).state ≠ .zombie := by
    by_cases hi : i = initproc
    · rw [hi, hfirst]
      exact nofun
    · rw [h.others i hi]
      exact nofun
  simp only [leaving, hpc, hstate, if_false]

/-- The step that shows a reap is the assignment that frees the zombie. -/
theorem here_of_reap {i : Fin NPROC}
    (h : pc.event me = .reap p i pid status) : me = some p ∧ ∃ k, pc = .waitFree i pid status k := by
  cases pc with
  | waitFree q pid' status' k =>
    cases me with
    | none => cases h
    | some p' =>
      cases h
      exact ⟨rfl, k, rfl⟩
  | _ => cases h

/-- A zombie is freed by a `kwait` of its parent, when no process has it as parent, and `kwait` goes on to
return its pid and status. -/
theorem reap_step [DecidableEq L] (hs : Exclusive s) (hk : Kinship s) (he : Exits s)
    {i : Fin NPROC} (h : Step client s (.reap p i pid status) t) :
    (s.proc i).state = .zombie ∧ (s.proc i).parent = some p ∧ (s.proc i).pid = pid ∧
      (s.proc i).xstate = status ∧ (∀ j, (s.proc j).parent ≠ some i) ∧ (t.proc i).state = .unused ∧
      ∃ c k, s.running c = some p ∧ t.here c = .waitUnlock i (some (pid, status)) k := by
  generalize hevent : Event.reap p i pid status = e at h
  cases hs.acts h with
  | code c instr next hcode hready hnext hgoes hproc hlock hdata =>
    obtain ⟨hrun, k, hhere⟩ := here_of_reap hevent.symm
    have hinstr : instr = .write i (fun proc => freed (proc i)) (.waitUnlock i (some (pid, status)) k) := by
      rw [hrun, hhere] at hcode
      exact (Option.some.inj hcode).symm
    have hzombie := hs.sees c i .zombie (by rw [hhere]; rfl)
    obtain ⟨hpid, hxstate⟩ := he.found c i pid status (by rw [hhere]; rfl)
    refine ⟨hzombie, ?_, hpid, hxstate, ?_, ?_, c, k, hrun, ?_⟩
    · rw [(hk.child c i (by rw [hhere]; rfl)).2, hrun]
    · intro j hj
      have hlive := hk.alive j i hj
      rw [hzombie] at hlive
      cases hlive
    · rw [hproc, hinstr]
      change (update s.proc i _ i).state = .unused
      rw [update_self]
      rfl
    · rw [hinstr] at hnext
      rw [hgoes.here_self, hnext]
  | call c p' op k next hrun hpc hnext hcall hgoes hproc hlock hdata => cases op <;> cases hevent
  | context | resume | suspend | clientAcquire | clientRelease | access | wakeup | own | interrupt | iret =>
    cases hevent

omit [DecidableEq C] in
/-- An assignment leaves a zombie as it is, or reaps it. -/
theorem zombie_write (hs : Exclusive s) (he : Exits s) {i : Fin NPROC} {f : (Fin NPROC → Proc) → Proc}
    (hwrites : ExitWrites (s.running c) (s.here c) i f next) (hzombie : (s.proc i).state = .zombie) :
    (f s.proc).state = .zombie ∧ (f s.proc).pid = (s.proc i).pid ∧
        (f s.proc).xstate = (s.proc i).xstate ∨
      ∃ p, (s.here c).event (s.running c) = .reap p i (s.proc i).pid (s.proc i).xstate := by
  cases hwrites with
  | keep hevent hexiting hfound hpid hxstate hstate =>
    refine .inl ⟨?_, hpid _, hxstate _⟩
    obtain hsame | ⟨hold, -⟩ := hstate
    · obtain hsame | ⟨hsleep, -⟩ := hsame s.proc
      · rw [hsame, hzombie]
      · rw [hzombie] at hsleep
        cases hsleep
    · obtain ⟨hme, hown⟩ | hsees | ⟨b, hkin⟩ := hold
      · rw [hs.state_of_running hme, hown] at hzombie
        cases hzombie
      · rw [hs.sees c i _ hsees] at hzombie
        cases hzombie
      · rw [hs.used_of_kin hkin] at hzombie
        cases hzombie
  | exit status hevent hme hslot hexiting =>
    rw [Exclusive.here_of_running hme] at hexiting
    have hlive := he.exiting i status hexiting
    rw [hzombie] at hlive
    cases hlive
  | abandon hevent hslot hkin =>
    obtain ⟨b, hkin⟩ := hkin
    rw [hs.used_of_kin hkin] at hzombie
    cases hzombie
  | reap parent pid status hme hevent hfound =>
    obtain ⟨hpid, hxstate⟩ := he.found c i pid status hfound
    exact .inr ⟨parent, by rw [hevent, hpid, hxstate]⟩

/-- A zombie stays as it is until it is reaped. -/
theorem zombie_step [DecidableEq L] (hs : Exclusive s) (he : Exits s) {i : Fin NPROC}
    (h : Step client s e t) (hzombie : (s.proc i).state = .zombie) :
    (t.proc i).state = .zombie ∧ (t.proc i).pid = (s.proc i).pid ∧ (t.proc i).xstate = (s.proc i).xstate ∨
      ∃ p, e = .reap p i (s.proc i).pid (s.proc i).xstate := by
  -- Most steps do not change the slot.
  have hkeep : t.proc i = s.proc i → (t.proc i).state = .zombie ∧ (t.proc i).pid = (s.proc i).pid ∧
      (t.proc i).xstate = (s.proc i).xstate := by
    intro hsame
    rw [hsame]
    exact ⟨hzombie, rfl, rfl⟩
  cases hs.acts h with
  | code c instr next hcode hready hnext hgoes hproc hlock hdata =>
    cases instr with
    | write j f =>
      cases hnext
      by_cases hij : i = j
      · subst hij
        have hself : t.proc i = f s.proc := by
          rw [hproc]
          exact update_self ..
        rw [hself]
        exact zombie_write hs he (code_exit (hs.here_wf c) hcode) hzombie
      · exact .inl (hkeep (by rw [hproc]; exact update_of_ne hij ..))
    | allocpid j =>
      have hij : i ≠ j := by
        rintro rfl
        rw [hs.sees c i _ (code_typed (hs.here_wf c) hcode).1] at hzombie
        cases hzombie
      exact .inl (hkeep (by rw [hproc]; exact update_of_ne hij ..))
    | goto | acquire | release | read | any | setCurrent | context | swtch | sched =>
      exact .inl (hkeep (by rw [hproc]; rfl))
  | context c j next hcode hgoes hproc hlock hdata =>
    have hij : i ≠ j := by
      rintro rfl
      rw [hs.used_of_creating (code_typed (hs.here_wf c) hcode).1] at hzombie
      cases hzombie
    exact .inl (hkeep (by rw [hproc]; exact update_of_ne hij ..))
  | own c p op k k' hrun hpc hnext hgoes hproc hlock hdata =>
    have hip : i ≠ p := by
      rintro rfl
      rw [hs.state_of_running hrun, hpc] at hzombie
      cases hzombie
    exact .inl (hkeep (by rw [hproc]; exact update_of_ne hip ..))
  | resume c q next hcode hrun ht | suspend c p next hcode hrun honly ht =>
    exact .inl (hkeep (by rw [ht]; rfl))
  | clientAcquire c back l k k' hop hlock hgoes hproc | clientRelease c back l k k' hop hlock hgoes hproc
  | access c back d k k' hop hgoes hproc | wakeup c back chan k k' hop hgoes hproc
  | call c p op k next hrun hpc hnext hcall hgoes hproc | interrupt c next hfree hnext hgoes hproc
  | iret c k back hpc hend hgoes hproc =>
    exact .inl (hkeep (by rw [hproc]))

/-- What holds along every run: the invariants, and the events fit the exits that are not taken. -/
theorem invariants_of_run [DecidableEq L] {init : Machine C L D K} {events : List Event}
    (hinit : Initial client init) (hrun : Run (Step client) init events s) :
    (Exclusive s ∧ Kinship s ∧ Exits s ∧ Awaits events s) ∧ ∀ i, pendingExit i events = some (s.leaving i) := by
  refine hrun.history (fun events s => (Exclusive s ∧ Kinship s ∧ Exits s ∧ Awaits events s) ∧
    ∀ i, pendingExit i events = some (s.leaving i)) ?_ ?_
  · obtain ⟨hexits, hnone⟩ := Exits.initial hinit
    refine ⟨⟨.initial hinit, .initial hinit, hexits, .initial hinit⟩, fun i => ?_⟩
    rw [hnone]
    rfl
  · intro events s e t ⟨⟨hs, hk, he, hw⟩, hpending⟩ hstep
    obtain ⟨he', hfits⟩ := he.step hs hstep
    refine ⟨⟨hs.step hstep, hk.step hs hstep, he', hw.step hs hstep⟩, fun i => ?_⟩
    have happend : pendingExit i (events ++ [e]) = (pendingExit i events).bind fun pending => exitStep i pending e := by
      simp only [pendingExit, List.foldlM_append]
      cases List.foldlM (exitStep i) none events with
      | none => rfl
      | some pending => simp [List.foldlM]
    rw [happend, hpending i]
    exact hfits i

/-- In every run: a process that is in use and whose creation is over has a parent that is neither
`UNUSED` nor `ZOMBIE`, `initproc` apart; a slot is freed by `kwait` only when no process has it as parent,
for its current parent, and goes on to return its pid and status; what `kwait` hands to its caller is the pid
and the status that this very call has reaped, nothing if it has reaped none; the exits and reaps of every slot
fit together, so that each exit is taken at most once and with the status passed to `kexit`; and a zombie
stays as it is until then, whatever else `kwait` does. -/
theorem exit_wait [DecidableEq L] (client : Client L D K) (init s : Machine C L D K) (events : List Event)
    (hinit : Initial client init) (hrun : Run (Step client) init events s) :
    (∀ i, i ≠ initproc → (s.proc i).state ≠ .unused → (s.proc i).state ≠ .used →
      ∃ j, (s.proc i).parent = some j ∧ (s.proc j).state ≠ .unused ∧ (s.proc j).state ≠ .zombie) ∧
    (∀ p i pid status t, Step client s (.reap p i pid status) t →
      (s.proc i).state = .zombie ∧ (s.proc i).parent = some p ∧ (s.proc i).pid = pid ∧
        (s.proc i).xstate = status ∧ (∀ j, (s.proc j).parent ≠ some i) ∧ (t.proc i).state = .unused ∧
        ∃ c k, s.running c = some p ∧ t.here c = .waitUnlock i (some (pid, status)) k) ∧
    (∀ p k result r e t, (s.pc p).waits = some (k, result) → Step client s e t → t.pc p = .client r →
      r = k (lastReap p events)) ∧
    (∀ i, ∃ pending, pendingExit i events = some pending ∧
      ((s.proc i).state = .zombie → pending = some ((s.proc i).pid, (s.proc i).xstate))) ∧
    ∀ i e t, Step client s e t → (s.proc i).state = .zombie →
      (t.proc i).state = .zombie ∧ (t.proc i).pid = (s.proc i).pid ∧
          (t.proc i).xstate = (s.proc i).xstate ∨
        ∃ p, e = .reap p i (s.proc i).pid (s.proc i).xstate := by
  obtain ⟨⟨hs, hk, he, hw⟩, hpending⟩ := invariants_of_run hinit hrun
  refine ⟨?_, fun p i pid status t h => reap_step hs hk he h,
    fun p k result r e t hp h hr => hw.returned hs h hp hr, ?_, fun i e t h hz => zombie_step hs he h hz⟩
  · intro i hi hunused hused
    obtain ⟨j, hj⟩ := Option.ne_none_iff_exists'.1 (hk.born i hi hunused hused)
    have hlive := hk.alive i j hj
    refine ⟨j, hj, ?_, ?_⟩
    · intro hj
      rw [hj] at hlive
      cases hlive
    · intro hj
      rw [hj] at hlive
      cases hlive
  · intro i
    refine ⟨_, hpending i, fun hz => ?_⟩
    have hdead : ¬Live (s.proc i).state := by
      rw [hz]
      exact id
    simp only [leaving, he.exiting_none hdead, hz, if_true]

/-- A child has exited with status 7. Its parent reaps it in `kwait`, and gets its pid and its status. -/
theorem exit_wait_child :
    (∃ events s t, Run (Step family) familyBoot events s ∧ Step family s (.reap initproc child 2 7) t ∧
      (s.proc child).state = .zombie ∧ (s.proc child).xstate = 7 ∧ (t.proc child).state = .unused ∧
      pendingExit child events = some (some (2, 7))) ∧
    ∃ events s e t k result, Run (Step family) familyBoot events s ∧ (s.pc initproc).waits = some (k, result) ∧
      Step family s e t ∧ t.pc initproc = .client (some (2, 7)) ∧ some (2, 7) = k (lastReap initproc events) := by
  constructor
  · obtain ⟨events, s, hinit, hrun, hevent⟩ := exists_family childFound
      (fun s => (s.here .zero).event (s.running .zero) = .reap initproc child 2 7) (by decide +kernel)
    obtain ⟨hparent, k, hhere⟩ := here_of_reap hevent
    obtain ⟨t, hstep⟩ : ∃ t, Step family s (.reap initproc child 2 7) t := by
      rw [← hevent]
      refine ⟨_, .write s .zero child (fun proc => freed (proc child)) (.waitUnlock child (some (2, 7)) k) ?_⟩
      rw [hparent, hhere]
      rfl
    obtain ⟨-, hreap, -, hpending, -⟩ := exit_wait family familyBoot s events hinit hrun
    obtain ⟨hzombie, -, hpid, hxstate, -, hunused, -⟩ := hreap initproc child 2 7 t hstep
    refine ⟨events, s, t, hrun, hstep, hzombie, hxstate, hunused, ?_⟩
    obtain ⟨pending, hevents, hfits⟩ := hpending child
    rw [hevents, hfits hzombie, hpid, hxstate]
  · obtain ⟨events, s, hinit, hrun, hwaits, hnext⟩ := exists_family (childFound ++ .replicate 2 (.zero, 1))
      (fun s => (s.pc initproc).waits.map Prod.snd = some (some (2, 7)) ∧
        (s.exec familyScript (.zero, 1)).bind (fun t => (t.pc initproc).user) = some (some (2, 7))) (by decide +kernel)
    obtain ⟨t, hexec, huser⟩ := Option.bind_eq_some_iff.1 hnext
    obtain ⟨e, hstep⟩ := exec_step family_follows hexec
    obtain ⟨⟨k, result⟩, hwaits, -⟩ := Option.map_eq_some_iff.1 hwaits
    have hr := Pc.eq_of_user huser
    exact ⟨events, s, e, t, k, result, hrun, hwaits, hstep, hr,
      (exit_wait family familyBoot s events hinit hrun).2.2.1 initproc k result _ e t hwaits hstep hr⟩

end Machine

end Xv6.Sched
