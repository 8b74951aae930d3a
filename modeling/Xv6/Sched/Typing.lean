import Xv6.Sched.Machine

/-!
# What a program point says about locks and slots

A program point determines which slot lock the thread holds and whether it holds `wait_lock`, in which
state the slot of the executing process is, and which slot the thread relies on to be in which state.
The instructions keep these annotations: this is checked once for every point of the code, and all that
the machine does is derived from it.
-/

namespace Xv6.Sched

variable {L K : Type} {next : Pc L K}

namespace Pc

/-- The slot whose lock the thread holds. -/
def slotLock (me : Option (Fin NPROC)) : Pc L K → Option (Fin NPROC)
  | .forkret _ | .yieldState _ | .yieldSched _ | .yieldRelease _ => me
  | .sleepRelease _ _ _ | .sleepState _ _ _ | .sleepSched _ _ | .sleepTidy _ _ | .sleepUnlock _ _ => me
  | .wakeupTest _ q _ _ | .wakeupRelease _ q _ _ => some q
  | .killedRead _ | .killedRelease _ _ | .setkilledState _ | .setkilledRelease _ => me
  | .killTest _ q _ _ | .killState q _ | .killRelease q _ | .killSkip _ q _ _ => some q
  | .forkTest q _ _ | .forkSkip q _ _ | .forkPid q _ | .forkTrapframe q _ | .forkSetTrapframe q _ _ => some q
  | .forkPagetable q _ | .forkSetPagetable q _ _ | .forkContext q _ | .forkCopy q _ => some q
  | .forkInherit q _ | .forkPidRead q _ | .forkUnlock q _ _ => some q
  | .forkShare q _ _ | .forkShareMap q _ _ | .forkShareChild q _ _ | .forkShareParent q _ _ => some q
  | .forkShareFlag q _ _ | .forkState q _ _ | .forkRelease q _ _ | .forkFree q _ | .forkAbort q _ => some q
  | .exitState _ | .exitRelease | .exitSched | .dead => me
  | .waitTest q _ _ | .waitSkip q _ _ | .waitPid q _ | .waitCopyout q _ _ _ => some q
  | .waitFree q _ _ _ | .waitUnlock q _ _ => some q
  | .waitKilledRead _ | .waitKilledRelease _ _ => me
  | .schedTest q _ | .schedState q _ | .schedCurrent q _ | .schedSwtch q _ | .schedBack q _ => some q
  | .schedRelease q _ => some q
  | _ => none

/-- Whether the thread holds `wait_lock`. -/
def holdsWait : Pc L K → Bool
  | .sleepAcquire _ .wait _ | .sleepRelease _ .wait _ => true
  | .wakeup _ _ k | .wakeupTest _ _ _ k | .wakeupRelease _ _ _ k => k.holdsWait
  | .forkParent _ _ _ | .forkWaitRelease _ _ _ => true
  | .reparent _ _ | .reparentAssign _ _ _ | .exitWakeup _ | .exitAcquire _ | .exitState _ => true
  | .exitRelease => true
  | .waitScan _ _ _ | .waitLock _ _ _ | .waitTest _ _ _ | .waitSkip _ _ _ | .waitPid _ _ => true
  | .waitCopyout _ _ _ _ | .waitFree _ _ _ _ | .waitUnlock _ _ _ | .waitReturn _ _ => true
  | .waitKilled _ | .waitKilledRead _ | .waitKilledRelease _ _ => true
  | _ => false

/-- The state of the slot of the process that executes at this point. -/
def ownState : Pc L K → ProcState
  | .yieldSched _ => .runnable
  | .sleepSched _ _ => .sleeping
  | .exitRelease | .exitSched | .dead => .zombie
  | _ => .running

/-- The locked slot whose state the thread has tested, with that state. -/
def sees : Pc L K → Option (Fin NPROC × ProcState)
  | .forkPid q _ => some (q, .unused)
  | .waitPid q _ | .waitCopyout q _ _ _ | .waitFree q _ _ _ => some (q, .zombie)
  | .schedState q _ => some (q, .runnable)
  | .schedCurrent q _ | .schedSwtch q _ => some (q, .running)
  | _ => none

/-- The slot of the process that the thread creates, and whether its context is set up. -/
def creating : Pc L K → Option (Fin NPROC × Bool)
  | .yieldAcquire k | .yieldState k | .yieldSched k | .yieldRelease k => k.creating
  | .sleepAcquire _ _ k | .sleepRelease _ _ k | .sleepState _ _ k => k.creating
  | .sleepSched _ k | .sleepTidy _ k | .sleepUnlock _ k | .sleepReacquire _ k => k.creating
  | .wakeup _ _ k | .wakeupTest _ _ _ k | .wakeupRelease _ _ _ k | .handler _ k => k.creating
  | .forkTrapframe q _ | .forkSetTrapframe q _ _ | .forkPagetable q _ => some (q, false)
  | .forkSetPagetable q _ _ | .forkContext q _ | .forkFree q _ => some (q, false)
  | .forkCopy q _ | .forkInherit q _ | .forkPidRead q _ | .forkUnlock q _ _ => some (q, true)
  | .forkWait q _ _ | .forkParent q _ _ | .forkWaitRelease q _ _ | .forkRelock q _ _ => some (q, true)
  | .forkShare q _ _ | .forkShareMap q _ _ | .forkShareChild q _ _ => some (q, true)
  | .forkShareParent q _ _ | .forkShareFlag q _ _ | .forkState q _ _ => some (q, true)
  | _ => none

/-- The process that the scheduler is about to resume. -/
def target : Pc L K → Option (Fin NPROC)
  | .schedCurrent q _ | .schedSwtch q _ => some q
  | _ => none

/-- The value of `c->proc` while the scheduler executes. -/
def current : Pc L K → Option (Fin NPROC)
  | .schedSwtch q _ | .schedBack q _ => some q
  | _ => none

/-- The points at which a process that does not run can be resumed. -/
def Resumable : Pc L K → Prop
  | .forkret _ | .yieldRelease _ | .sleepTidy _ _ => True
  | _ => False

/-- The calls of `sleep`: by the client with one of its locks, and by `kwait` with `wait_lock`. -/
def SleepCall (lk : Lock L) (k : Pc L K) : Prop :=
  (∃ l k', lk = .client l ∧ k = .client k') ∨ ∃ k', lk = .wait ∧ k = .waitScan table false k'

/-- A function returns to a point at which the locks are as it leaves them. -/
def WF (me : Option (Fin NPROC)) : Pc L K → Prop
  | .yieldAcquire k | .yieldState k | .yieldSched k | .yieldRelease k =>
    k.WF me ∧ k.slotLock me = none ∧ k.holdsWait = false
  | .sleepAcquire _ lk k | .sleepRelease _ lk k | .sleepState _ lk k => SleepCall lk k
  | .sleepSched lk k | .sleepTidy lk k | .sleepUnlock lk k | .sleepReacquire lk k => SleepCall lk k
  | .wakeup _ _ k | .wakeupTest _ _ _ k | .wakeupRelease _ _ _ k =>
    k.WF me ∧ k.slotLock me = none ∧ k.ownState = .running
  | .handler _ k => k.WF me ∧ k.slotLock me = none ∧ k.holdsWait = false ∧ k.ownState = .running
  | _ => True

section Annotations

variable {me : Option (Fin NPROC)} {pc : Pc L K}

/-- A thread without the lock of its slot runs. -/
theorem ownState_of_slotLock (h : pc.slotLock me ≠ me) : pc.ownState = .running := by
  cases pc <;> first | rfl | exact absurd rfl h

/-- The state of a slot under creation is not that of a process. -/
theorem ownState_ne_used : pc.ownState ≠ .used := by
  cases pc <;> exact nofun

variable {q : Fin NPROC} {st : ProcState}

/-- A slot whose state was tested is still locked. -/
theorem slotLock_of_sees (h : pc.sees = some (q, st)) : pc.slotLock me = some q := by
  cases pc <;> (cases h <;> rfl)

/-- A process that has tested a slot runs. -/
theorem ownState_of_sees (h : pc.sees = some (q, st)) : pc.ownState = .running := by
  cases pc <;> (cases h <;> rfl)

/-- The scheduler locks the slot of the process that it is about to resume. -/
theorem slotLock_of_target (h : pc.target = some q) : pc.slotLock me = some q := by
  cases pc <;> (cases h <;> rfl)

/-- The scheduler locks the slot of the process that it switches to or from. -/
theorem slotLock_of_current (h : pc.current = some q) : pc.slotLock me = some q := by
  cases pc <;> (cases h <;> rfl)

/-- A process is resumed with its slot locked, and it relies on nothing else. -/
theorem Resumable.annotations (h : pc.Resumable) (me : Option (Fin NPROC)) :
    pc.slotLock me = me ∧ pc.holdsWait = false ∧ pc.ownState = .running ∧ pc.sees = none ∧
      pc.target = none ∧ pc.current = none := by
  cases pc <;> first | exact ⟨rfl, rfl, rfl, rfl, rfl, rfl⟩ | cases h

/-- A thread without a slot lock has no tested slot. -/
theorem sees_of_slotLock (h : pc.slotLock me = none) : pc.sees = none := by
  cases hsees : pc.sees with
  | none => rfl
  | some seen => exact absurd (slotLock_of_sees hsees) (by rw [h]; exact nofun)

/-- A thread without a slot lock is not about to resume a process. -/
theorem target_of_slotLock (h : pc.slotLock me = none) : pc.target = none := by
  cases htarget : pc.target with
  | none => rfl
  | some q => exact absurd (slotLock_of_target htarget) (by rw [h]; exact nofun)

/-- A thread without a slot lock has not just switched. -/
theorem current_of_slotLock (h : pc.slotLock me = none) : pc.current = none := by
  cases hcurrent : pc.current with
  | none => rfl
  | some q => exact absurd (slotLock_of_current hcurrent) (by rw [h]; exact nofun)

end Annotations

/-- The thread goes on at a point that says the same about the slots, or less. -/
structure Moves (me : Option (Fin NPROC)) (pc next : Pc L K) : Prop where
  wf : next.WF me
  ownState : next.ownState = pc.ownState
  target : next.target = pc.target
  creating : ∀ q r, next.creating = some (q, r) →
    ∃ ready, pc.creating = some (q, ready) ∧ (r = true → ready = true)

/-- The thread goes on at a point that says the same about the slots. -/
theorem Moves.of_eq {me : Option (Fin NPROC)} {pc : Pc L K} (hwf : next.WF me) (hown : next.ownState = pc.ownState)
    (htarget : next.target = pc.target) (hcreating : next.creating = pc.creating) : pc.Moves me next :=
  ⟨hwf, hown, htarget, fun _ r h => ⟨r, hcreating.symm.trans h, id⟩⟩

/-- The thread holds the same slot lock, and `wait_lock` if it did. -/
def SameLocks (me : Option (Fin NPROC)) (pc next : Pc L K) : Prop :=
  next.slotLock me = pc.slotLock me ∧ next.holdsWait = pc.holdsWait

/-- How taking a lock changes the locks that a point stands for. -/
def Takes (me : Option (Fin NPROC)) (pc next : Pc L K) : Lock L → Prop
  | .proc i => pc.slotLock me = none ∧ next.slotLock me = some i ∧ next.holdsWait = pc.holdsWait
  | .wait => pc.holdsWait = false ∧ next.holdsWait = true ∧ next.slotLock me = pc.slotLock me
  | .client _ => pc.SameLocks me next

end Pc

/-- What an assignment does to the state of a slot. -/
inductive Assigns (me : Option (Fin NPROC)) (pc : Pc L K) (i : Fin NPROC)
    (f : (Fin NPROC → Proc) → Proc) (next : Pc L K) : Prop
  /-- Nothing, except that a sleeping process is woken up. -/
  | quiet (hmoves : pc.Moves me next)
      (hstate : ∀ proc, (f proc).state = (proc i).state ∨ pc.slotLock me = some i ∧
        pc.ownState = .running ∧ (proc i).state = .sleeping ∧ (f proc).state = .runnable)
  /-- The process leaves the state `RUNNING`. -/
  | leave (hme : me = some i) (hslot : pc.slotLock me = some i) (hrun : pc.ownState = .running)
      (hstate : ∀ proc, (f proc).state = next.ownState) (hnext : next.ownState ≠ .running)
      (htarget : next.target = pc.target) (hcreating : next.creating = pc.creating)
  /-- The creation of a process ends. -/
  | create (ready : Bool) (hcreating : pc.creating = some (i, ready)) (hslot : pc.slotLock me = some i)
      (hown : next.ownState = pc.ownState) (hnext : next.creating = none)
      (htarget : next.target = pc.target)
      (hstate : (∀ proc, (f proc).state = .runnable) ∧ ready = true ∨ ∀ proc, (f proc).state = .unused)
  /-- A zombie is freed. -/
  | free (hsees : pc.sees = some (i, .zombie)) (hstate : ∀ proc, (f proc).state = .unused)
      (hmoves : pc.Moves me next)
  /-- The scheduler chooses a process. -/
  | choose (hme : me = none) (hsees : pc.sees = some (i, .runnable))
      (hstate : ∀ proc, (f proc).state = .running) (hcreating : next.creating = none)
      (hown : next.ownState = pc.ownState) (htarget : pc.target = none) (hnext : next.target = some i)

/-- What an instruction does to the locks and to the states of slots. -/
def Instr.Typed (me : Option (Fin NPROC)) (pc : Pc L K) : Instr L K → Prop
  | .goto next => pc.Moves me next ∧ pc.SameLocks me next ∧ next.sees = none ∧ next.current = pc.current
  | .acquire l next => pc.Moves me next ∧ pc.Takes me next l ∧ next.sees = none ∧ next.current = pc.current
  | .release l next => pc.Moves me next ∧ next.Takes me pc l ∧ next.sees = none ∧ next.current = pc.current
  | .read i next => ∀ p, pc.Moves me (next p) ∧ pc.SameLocks me (next p) ∧
      (∀ q st, (next p).sees = some (q, st) → q = i ∧ st = p.state ∨ pc.sees = some (q, st)) ∧
      (next p).current = pc.current
  | .any next => ∀ v, pc.Moves me (next v) ∧ pc.SameLocks me (next v) ∧
      (∀ q st, (next v).sees = some (q, st) → pc.sees = some (q, st)) ∧ (next v).current = pc.current
  | .write i f next => Assigns me pc i f next ∧ next.WF me ∧ pc.SameLocks me next ∧
      (∀ q st, next.sees = some (q, st) → q = i ∧ ∀ proc, (f proc).state = st) ∧
      next.current = none ∧ pc.current = none
  | .allocpid i next => pc.sees = some (i, .unused) ∧ pc.creating = none ∧
      next.creating = some (i, false) ∧ next.WF me ∧ pc.SameLocks me next ∧ next.sees = none ∧
      next.ownState = pc.ownState ∧ next.target = pc.target ∧ next.current = none ∧ pc.current = none
  | .context i next => pc.creating = some (i, false) ∧ next.creating = some (i, true) ∧
      pc.slotLock me = some i ∧ next.WF me ∧ pc.SameLocks me next ∧ next.sees = none ∧
      next.ownState = pc.ownState ∧ next.target = pc.target ∧ next.current = pc.current
  | .setCurrent p next => me = none ∧ pc.Moves me next ∧ pc.SameLocks me next ∧
      (∀ q st, next.sees = some (q, st) → pc.sees = some (q, st)) ∧ next.current = p ∧
      (next.target = none → p = none)
  | .swtch q next => me = none ∧ pc.target = some q ∧ pc.current = some q ∧ pc.sees = some (q, .running) ∧
      pc.holdsWait = false ∧ next.WF me ∧ next.creating = none ∧ ∃ rest, next = .schedBack q rest
  | .sched next => pc.slotLock me = me ∧ pc.holdsWait = false ∧ next.WF me ∧
      next.creating = pc.creating ∧ pc.ownState ≠ .running ∧ (pc.ownState = .zombie ∨ next.Resumable)

variable {instr : Instr L K}

/-- The common part of the code keeps the annotations. -/
theorem commonCode_typed {me : Option (Fin NPROC)} {pc : Pc L K} (hwf : pc.WF me)
    (hcode : commonCode me pc = some instr) : instr.Typed me pc := by
  cases pc with
  | wakeup chan rest k =>
    cases rest with
    | nil =>
      cases hcode
      obtain ⟨hk, hslot, hown⟩ := hwf
      exact ⟨.of_eq hk hown (Pc.target_of_slotLock hslot) rfl, ⟨hslot, rfl⟩,
        Pc.sees_of_slotLock hslot, Pc.current_of_slotLock hslot⟩
    | cons q rest =>
      cases hcode
      by_cases hme : me = some q
      · rw [if_pos hme]
        exact ⟨.of_eq hwf rfl rfl rfl, ⟨rfl, rfl⟩, rfl, rfl⟩
      · rw [if_neg hme]
        exact ⟨.of_eq hwf rfl rfl rfl, ⟨rfl, rfl, rfl⟩, rfl, rfl⟩
  | wakeupTest chan q rest k =>
    cases hcode
    refine ⟨.quiet (.of_eq hwf rfl rfl rfl) ?_, hwf, ⟨rfl, rfl⟩, nofun, rfl, rfl⟩
    exact fun proc => (awakened_state chan (proc q)).imp_right fun h => ⟨rfl, rfl, h⟩
  | wakeupRelease chan q rest k =>
    cases hcode
    exact ⟨.of_eq hwf rfl rfl rfl, ⟨rfl, rfl, rfl⟩, rfl, rfl⟩
  | _ => cases hcode

/-- Scheduler code keeps the annotations. -/
theorem schedCode_typed {pc : Pc L K} (hwf : pc.WF none)
    (hcode : schedCode pc = some instr) : instr.Typed none pc := by
  cases pc with
  | schedIdle =>
    cases hcode
    exact ⟨.of_eq trivial rfl rfl rfl, ⟨rfl, rfl⟩, rfl, rfl⟩
  | schedScan rest =>
    cases rest <;> cases hcode
    · exact ⟨.of_eq trivial rfl rfl rfl, ⟨rfl, rfl⟩, rfl, rfl⟩
    · exact ⟨.of_eq trivial rfl rfl rfl, ⟨rfl, rfl, rfl⟩, rfl, rfl⟩
  | schedTest q rest =>
    cases hcode
    intro p
    beta_reduce
    by_cases hstate : p.state = .runnable
    · rw [if_pos hstate]
      refine ⟨.of_eq trivial rfl rfl rfl, ⟨rfl, rfl⟩, ?_, rfl⟩
      intro i st h
      cases h
      exact .inl ⟨rfl, hstate.symm⟩
    · rw [if_neg hstate]
      exact ⟨.of_eq trivial rfl rfl rfl, ⟨rfl, rfl⟩, nofun, rfl⟩
  | schedState q rest =>
    cases hcode
    refine ⟨.choose rfl rfl (fun _ => rfl) rfl rfl rfl rfl, trivial, ⟨rfl, rfl⟩, ?_, rfl, rfl⟩
    intro i st h
    cases h
    exact ⟨rfl, fun _ => rfl⟩
  | schedCurrent q rest =>
    cases hcode
    exact ⟨rfl, .of_eq trivial rfl rfl rfl, ⟨rfl, rfl⟩, fun _ _ h => h, rfl, nofun⟩
  | schedSwtch q rest =>
    cases hcode
    exact ⟨rfl, rfl, rfl, rfl, rfl, trivial, rfl, rest, rfl⟩
  | schedBack q rest =>
    cases hcode
    exact ⟨rfl, .of_eq trivial rfl rfl rfl, ⟨rfl, rfl⟩, nofun, rfl, fun _ => rfl⟩
  | schedRelease q rest =>
    cases hcode
    exact ⟨.of_eq trivial rfl rfl rfl, ⟨rfl, rfl, rfl⟩, rfl, rfl⟩
  | _ => exact commonCode_typed hwf hcode

/-- The code of a process keeps the annotations. -/
theorem procCode_typed {me : Fin NPROC} {pc : Pc L K} (hwf : pc.WF (some me))
    (hcode : procCode me pc = some instr) : instr.Typed (some me) pc := by
  cases pc with
  -- Locks taken and released.
  | forkret | killedRelease | setkilledRelease | killRelease | killSkip | forkSkip | forkUnlock
  | forkWaitRelease | forkRelease | forkAbort | exitRelease | waitSkip | waitUnlock | waitReturn
  | yieldAcquire | sleepUnlock | killedAcquire | setkilledAcquire | forkWait | forkRelock
  | exitAcquire | waitAcquire | waitLock | waitKilled =>
    cases hcode
    exact ⟨.of_eq hwf rfl rfl rfl, ⟨rfl, rfl, rfl⟩, rfl, rfl⟩
  | sleepAcquire chan lk k =>
    cases hcode
    cases lk <;> exact ⟨.of_eq hwf rfl rfl rfl, ⟨rfl, rfl, rfl⟩, rfl, rfl⟩
  | yieldRelease k =>
    cases hcode
    obtain ⟨hk, hslot, hwait⟩ := hwf
    exact ⟨.of_eq hk (Pc.ownState_of_slotLock (by rw [hslot]; exact nofun))
        (Pc.target_of_slotLock hslot) rfl,
      ⟨hslot, rfl, hwait.symm⟩, Pc.sees_of_slotLock hslot, Pc.current_of_slotLock hslot⟩
  | sleepRelease chan lk k =>
    cases hcode
    obtain ⟨l, k', rfl, rfl⟩ | ⟨k', rfl, rfl⟩ := id hwf
    · exact ⟨.of_eq hwf rfl rfl rfl, ⟨rfl, rfl⟩, rfl, rfl⟩
    · exact ⟨.of_eq hwf rfl rfl rfl, ⟨rfl, rfl, rfl⟩, rfl, rfl⟩
  | sleepReacquire lk k =>
    cases hcode
    obtain ⟨l, k', rfl, rfl⟩ | ⟨k', rfl, rfl⟩ := hwf
    · exact ⟨.of_eq trivial rfl rfl rfl, ⟨rfl, rfl⟩, rfl, rfl⟩
    · exact ⟨.of_eq trivial rfl rfl rfl, ⟨rfl, rfl, rfl⟩, rfl, rfl⟩
  | waitKilledRelease killed k =>
    cases hcode
    cases killed
    · exact ⟨.of_eq (.inr ⟨k, rfl, rfl⟩) rfl rfl rfl, ⟨rfl, rfl, rfl⟩, rfl, rfl⟩
    · exact ⟨.of_eq trivial rfl rfl rfl, ⟨rfl, rfl, rfl⟩, rfl, rfl⟩
  | exitWait status =>
    obtain ⟨-, rfl⟩ := procCode_exitWait hcode
    exact ⟨.of_eq trivial rfl rfl rfl, ⟨rfl, rfl, rfl⟩, rfl, rfl⟩
  -- Loops.
  | kill pid rest k | forkScan rest k =>
    cases rest <;> cases hcode
    · exact ⟨.of_eq trivial rfl rfl rfl, ⟨rfl, rfl⟩, rfl, rfl⟩
    · exact ⟨.of_eq trivial rfl rfl rfl, ⟨rfl, rfl, rfl⟩, rfl, rfl⟩
  | reparent rest status =>
    cases rest <;> cases hcode
    · exact ⟨.of_eq trivial rfl rfl rfl, ⟨rfl, rfl⟩, rfl, rfl⟩
    · intro p
      beta_reduce
      split <;> exact ⟨.of_eq trivial rfl rfl rfl, ⟨rfl, rfl⟩, nofun, rfl⟩
  | waitScan rest havekids k =>
    cases rest <;> cases hcode
    · cases havekids <;> exact ⟨.of_eq trivial rfl rfl rfl, ⟨rfl, rfl⟩, rfl, rfl⟩
    · intro p
      beta_reduce
      split <;> exact ⟨.of_eq trivial rfl rfl rfl, ⟨rfl, rfl⟩, nofun, rfl⟩
  -- Fields read.
  | killedRead | forkPidRead | waitKilledRead =>
    cases hcode
    exact fun p => ⟨.of_eq trivial rfl rfl rfl, ⟨rfl, rfl⟩, nofun, rfl⟩
  | exitWakeup =>
    cases hcode
    exact fun p => ⟨.of_eq ⟨trivial, rfl, rfl⟩ rfl rfl rfl, ⟨rfl, rfl⟩, nofun, rfl⟩
  | waitPid =>
    cases hcode
    exact fun p => ⟨.of_eq trivial rfl rfl rfl, ⟨rfl, rfl⟩, fun _ _ h => .inr h, rfl⟩
  | killTest | forkShare =>
    cases hcode
    intro p
    beta_reduce
    split <;> exact ⟨.of_eq trivial rfl rfl rfl, ⟨rfl, rfl⟩, nofun, rfl⟩
  | forkTest | waitTest =>
    cases hcode
    intro p
    beta_reduce
    split
    · rename_i hstate
      refine ⟨.of_eq trivial rfl rfl rfl, ⟨rfl, rfl⟩, ?_, rfl⟩
      intro i st h
      cases h
      exact .inl ⟨rfl, hstate.symm⟩
    · exact ⟨.of_eq trivial rfl rfl rfl, ⟨rfl, rfl⟩, nofun, rfl⟩
  -- Values of the memory below.
  | forkTrapframe | forkPagetable =>
    cases hcode
    exact fun v => ⟨.of_eq trivial rfl rfl rfl, ⟨rfl, rfl⟩, nofun, rfl⟩
  | forkShareMap =>
    cases hcode
    intro v
    beta_reduce
    split <;> exact ⟨.of_eq trivial rfl rfl rfl, ⟨rfl, rfl⟩, nofun, rfl⟩
  | forkCopy q k =>
    cases hcode
    intro v
    beta_reduce
    split
    · refine ⟨⟨trivial, rfl, rfl, ?_⟩, ⟨rfl, rfl⟩, nofun, rfl⟩
      intro i r h
      cases h
      exact ⟨true, rfl, nofun⟩
    · exact ⟨.of_eq trivial rfl rfl rfl, ⟨rfl, rfl⟩, nofun, rfl⟩
  | waitCopyout =>
    cases hcode
    intro v
    beta_reduce
    split
    · exact ⟨.of_eq trivial rfl rfl rfl, ⟨rfl, rfl⟩, nofun, rfl⟩
    · exact ⟨.of_eq trivial rfl rfl rfl, ⟨rfl, rfl⟩, fun _ _ h => h, rfl⟩
  -- Fields written.
  | sleepTidy | setkilledState | forkInherit | forkParent | forkShareChild | forkShareParent
  | forkShareFlag =>
    cases hcode
    exact ⟨.quiet (.of_eq hwf rfl rfl rfl) (fun _ => .inl rfl), hwf, ⟨rfl, rfl⟩, nofun, rfl, rfl⟩
  | killState q k =>
    cases hcode
    refine ⟨.quiet (.of_eq trivial rfl rfl rfl) ?_, trivial, ⟨rfl, rfl⟩, nofun, rfl, rfl⟩
    exact fun proc => (slain_state (proc q)).imp_right fun h => ⟨rfl, rfl, h⟩
  | forkSetTrapframe | forkSetPagetable =>
    cases hcode
    split <;> exact ⟨.quiet (.of_eq trivial rfl rfl rfl) (fun _ => .inl rfl), trivial, ⟨rfl, rfl⟩, nofun, rfl, rfl⟩
  | reparentAssign =>
    cases hcode
    exact ⟨.quiet (.of_eq ⟨trivial, rfl, rfl⟩ rfl rfl rfl) (fun _ => .inl rfl), ⟨trivial, rfl, rfl⟩,
      ⟨rfl, rfl⟩, nofun, rfl, rfl⟩
  | yieldState | sleepState | exitState =>
    cases hcode
    exact ⟨.leave rfl rfl rfl (fun _ => rfl) nofun rfl rfl, hwf, ⟨rfl, rfl⟩, nofun, rfl, rfl⟩
  | forkState =>
    cases hcode
    exact ⟨.create true rfl rfl rfl rfl rfl (.inl ⟨fun _ => rfl, rfl⟩), trivial, ⟨rfl, rfl⟩, nofun, rfl, rfl⟩
  | forkFree =>
    cases hcode
    exact ⟨.create false rfl rfl rfl rfl rfl (.inr fun _ => rfl), trivial, ⟨rfl, rfl⟩, nofun, rfl, rfl⟩
  | waitFree =>
    cases hcode
    exact ⟨.free rfl (fun _ => rfl) (.of_eq trivial rfl rfl rfl), trivial, ⟨rfl, rfl⟩, nofun, rfl, rfl⟩
  | forkPid =>
    cases hcode
    exact ⟨rfl, rfl, rfl, trivial, ⟨rfl, rfl⟩, rfl, rfl, rfl, rfl, rfl⟩
  | forkContext =>
    cases hcode
    exact ⟨rfl, rfl, rfl, trivial, ⟨rfl, rfl⟩, rfl, rfl, rfl, rfl⟩
  -- Switches to the scheduler.
  | yieldSched | sleepSched =>
    cases hcode
    exact ⟨rfl, rfl, hwf, rfl, nofun, .inr trivial⟩
  | exitSched =>
    cases hcode
    exact ⟨rfl, rfl, trivial, rfl, nofun, .inl rfl⟩
  | _ => exact commonCode_typed hwf hcode

/-- The code keeps the annotations. -/
theorem code_typed {me : Option (Fin NPROC)} {pc : Pc L K} (hwf : pc.WF me)
    (hcode : code me pc = some instr) : instr.Typed me pc := by
  cases me with
  | none => exact schedCode_typed hwf hcode
  | some p => exact procCode_typed hwf hcode

/-- The code of the client says nothing about slots, and a handler what the interrupted point says. -/
theorem Pc.frame_typed {me : Option (Fin NPROC)} {back : Option (Pc L K)} {k : K} (k' : K)
    (hwf : (Pc.frame back k).WF me) :
    (Pc.frame back k).Moves me (.frame back k') ∧ (Pc.frame back k).SameLocks me (.frame back k') := by
  cases back with
  | none => exact ⟨.of_eq trivial rfl rfl rfl, rfl, rfl⟩
  | some back => exact ⟨.of_eq hwf rfl rfl rfl, rfl, rfl⟩

/-- The code of the client holds no locks of `proc.c` and knows no slots. -/
theorem Pc.frame_annotations (me : Option (Fin NPROC)) (back : Option (Pc L K)) (k : K) :
    (Pc.frame back k).slotLock me = none ∧ (Pc.frame back k).holdsWait = false ∧
      (Pc.frame back k).ownState = .running ∧ (Pc.frame back k).sees = none ∧
      (Pc.frame back k).target = none ∧ (Pc.frame back k).current = none := by
  cases back <;> exact ⟨rfl, rfl, rfl, rfl, rfl, rfl⟩

/-- A called function starts with the locks of the caller. -/
theorem Op.call_typed {D : Type} (me : Option (Fin NPROC)) {op : Op L D K} (k : K) (hcall : op.call = some next) :
    (Pc.client k).Moves me next ∧ (Pc.client k : Pc L K).SameLocks me next ∧ next.sees = none ∧
      next.current = none := by
  cases op with
  | sleep chan l k' =>
    cases hcall
    exact ⟨.of_eq (.inl ⟨l, k', rfl, rfl⟩) rfl rfl rfl, ⟨rfl, rfl⟩, rfl, rfl⟩
  | killed | setkilled | kill | fork | exit | wait =>
    cases hcall
    exact ⟨.of_eq trivial rfl rfl rfl, ⟨rfl, rfl⟩, rfl, rfl⟩
  | acquire | release | access | own | wakeup => cases hcall

end Xv6.Sched
