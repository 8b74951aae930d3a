import Xv6.Sched.Exclusion

/-!
# Sleeping with a lock of the client

What a point has to do with `sleep` and `wakeup` in the name of the client: to which points of the client
the thread returns, with which lock it sleeps and whether `sleep` has given that lock back, on which channel
it goes to sleep, and which slots `wakeup` has still to look at. The code is checked against this once.
-/

namespace Xv6.Sched

open Library

variable {C L D K : Type} {me : Option (Fin NPROC)} {pc next : Pc L K} {chan : ℕ} {q : Fin NPROC}

namespace Pc

/-- The points of the client to which the thread may return, or its handler. -/
def Returns : Pc L K → K → Prop
  | .client k | .handler k _ | .forkret k => fun r => r = k
  | .setkilledAcquire k | .setkilledState k | .setkilledRelease k => fun r => r = k
  | .yieldAcquire k | .yieldState k | .yieldSched k | .yieldRelease k => k.Returns
  | .sleepAcquire _ _ k | .sleepRelease _ _ k | .sleepState _ _ k => k.Returns
  | .sleepSched _ k | .sleepTidy _ k | .sleepUnlock _ k | .sleepReacquire _ k => k.Returns
  | .wakeup _ _ k | .wakeupTest _ _ _ k | .wakeupRelease _ _ _ k => k.Returns
  | .killedAcquire k | .killedRead k | .killedRelease _ k => fun r => ∃ result, r = k result
  | .kill _ _ k | .killTest _ _ _ k | .killState _ k | .killRelease _ k | .killSkip _ _ _ k =>
    fun r => ∃ result, r = k result
  | .forkScan _ k | .forkTest _ _ k | .forkSkip _ _ k | .forkPid _ k => fun r => ∃ result, r = k result
  | .forkTrapframe _ k | .forkSetTrapframe _ _ k | .forkPagetable _ k => fun r => ∃ result, r = k result
  | .forkSetPagetable _ _ k | .forkContext _ k | .forkCopy _ k => fun r => ∃ result, r = k result
  | .forkInherit _ k | .forkPidRead _ k | .forkUnlock _ _ k | .forkWait _ _ k | .forkParent _ _ k =>
    fun r => ∃ result, r = k result
  | .forkWaitRelease _ _ k | .forkRelock _ _ k | .forkShare _ _ k | .forkShareMap _ _ k =>
    fun r => ∃ result, r = k result
  | .forkShareChild _ _ k | .forkShareParent _ _ k | .forkShareFlag _ _ k | .forkState _ _ k =>
    fun r => ∃ result, r = k result
  | .forkRelease _ _ k | .forkFree _ k | .forkAbort _ k => fun r => ∃ result, r = k result
  | .waitAcquire k | .waitScan _ _ k | .waitLock _ _ k | .waitTest _ _ k | .waitSkip _ _ k =>
    fun r => ∃ result, r = k result
  | .waitPid _ k | .waitCopyout _ _ _ k | .waitFree _ _ _ k | .waitUnlock _ _ k | .waitReturn _ k =>
    fun r => ∃ result, r = k result
  | .waitKilled k | .waitKilledRead k | .waitKilledRelease _ k => fun r => ∃ result, r = k result
  | _ => fun _ => False

/-- The lock with which the thread sleeps, in `sleep` or in `kwait`. -/
def sleepLock : Pc L K → Option (Lock L)
  | .yieldAcquire k | .yieldState k | .yieldSched k | .yieldRelease k => k.sleepLock
  | .wakeup _ _ k | .wakeupTest _ _ _ k | .wakeupRelease _ _ _ k => k.sleepLock
  | .sleepAcquire _ lk _ | .sleepRelease _ lk _ | .sleepState _ lk _ => some lk
  | .sleepSched lk _ | .sleepTidy lk _ | .sleepUnlock lk _ | .sleepReacquire lk _ => some lk
  | .waitAcquire _ | .waitScan _ _ _ | .waitLock _ _ _ | .waitTest _ _ _ | .waitSkip _ _ _ => some .wait
  | .waitPid _ _ | .waitCopyout _ _ _ _ | .waitFree _ _ _ _ | .waitUnlock _ _ _ => some .wait
  | .waitReturn _ _ | .waitKilled _ | .waitKilledRead _ | .waitKilledRelease _ _ => some .wait
  | _ => none

/-- The lock that `sleep` has given back and will take again. -/
def released : Pc L K → Option (Lock L)
  | .yieldAcquire k | .yieldState k | .yieldSched k | .yieldRelease k => k.released
  | .wakeup _ _ k | .wakeupTest _ _ _ k | .wakeupRelease _ _ _ k => k.released
  | .sleepState _ lk _ | .sleepSched lk _ | .sleepTidy lk _ | .sleepUnlock lk _ => some lk
  | .sleepReacquire lk _ => some lk
  | _ => none

/-- The channel and the lock of a `sleep` that has not given the lock back. -/
def sleeps : Pc L K → Option (ℕ × Lock L)
  | .yieldAcquire k | .yieldState k | .yieldSched k | .yieldRelease k => k.sleeps
  | .wakeup _ _ k | .wakeupTest _ _ _ k | .wakeupRelease _ _ _ k => k.sleeps
  | .sleepAcquire chan lk _ | .sleepRelease chan lk _ => some (chan, lk)
  | _ => none

/-- The channel and the lock of a `sleep` that is about to set the state. -/
def nods : Pc L K → Option (ℕ × Lock L)
  | .sleepState chan lk _ => some (chan, lk)
  | _ => none

/-- The lock of a `sleep` that has set the state. -/
def dozes : Pc L K → Option (Lock L)
  | .sleepSched lk _ | .sleepTidy lk _ => some lk
  | _ => none

/-- A slot that `wakeup` on the channel has still to look at. -/
def Visits (chan : ℕ) (p : Fin NPROC) : Pc L K → Prop
  | .wakeup chan' rest _ | .wakeupRelease chan' _ rest _ => chan' = chan ∧ p ∈ rest
  | .wakeupTest chan' q rest _ => chan' = chan ∧ p ∈ q :: rest
  | _ => False

/-- The locked slot that `wakeup` is about to look at, with the channel. -/
def tests : Pc L K → Option (ℕ × Fin NPROC)
  | .wakeupTest chan q _ _ => some (chan, q)
  | _ => none

/-- The points at which handlers have interrupted the thread. -/
def interrupted : Pc L K → List (Pc L K)
  | .yieldAcquire k | .yieldState k | .yieldSched k | .yieldRelease k => k.interrupted
  | .wakeup _ _ k | .wakeupTest _ _ _ k | .wakeupRelease _ _ _ k => k.interrupted
  | .handler _ back => back :: back.interrupted
  | _ => []

/-- A process without its slot lock is not in the middle of going to sleep. -/
theorem awake_of_slotLock (h : pc.slotLock me = none) : ∀ p, me = some p → pc.nods = none ∧ pc.dozes = none := by
  rintro p rfl
  cases pc <;> first | exact ⟨rfl, rfl⟩ | cases h

/-- A slot that `wakeup` looks at is locked. -/
theorem slotLock_of_tests (h : pc.tests = some (chan, q)) : pc.slotLock me = some q := by
  cases pc <;> (cases h <;> rfl)

variable {lk : Lock L}

/-- A process that is about to set its state has its slot locked. -/
theorem slotLock_of_nods (h : pc.nods = some (chan, lk)) : pc.slotLock me = me := by
  cases pc <;> (cases h <;> rfl)

/-- Who has set its state has given the lock back before. -/
theorem released_of_nods (h : pc.nods = some (chan, lk)) : pc.released = some lk := by
  cases pc <;> (cases h <;> rfl)

theorem tests_of_nods (h : pc.nods = some (chan, lk)) : pc.tests = none := by
  cases pc <;> (cases h <;> rfl)

/-- The thread goes on in the same function, or returns from it. -/
structure Follows (me : Option (Fin NPROC)) (pc next : Pc L K) : Prop where
  returns : ∀ r, next.Returns r → pc.Returns r
  live : (∃ r, pc.Returns r) → ∃ r, next.Returns r
  sleepLock : next.sleepLock = pc.sleepLock ∨ next.sleepLock = none
  sleeps : next.sleeps = pc.sleeps ∨
    (∃ chan lk, pc.sleeps = some (chan, lk) ∧ next.sleeps = none ∧ next.released = some lk) ∨
    pc.sleepLock = some .wait
  visits : ∀ chan p, pc.Visits chan p → next.Visits chan p ∨ me = some p ∨ pc.tests = some (chan, p)
  interrupted : ∀ back ∈ next.interrupted, back ∈ pc.interrupted

/-- The process is not in the middle of going to sleep. -/
def Awake (me : Option (Fin NPROC)) (next : Pc L K) : Prop :=
  ∀ p, me = some p → next.nods = none ∧ next.dozes = none

/-- The thread goes on in the same function. -/
theorem Follows.of_eq (hreturns : next.Returns = pc.Returns) (hsleepLock : next.sleepLock = pc.sleepLock)
    (hsleeps : next.sleeps = pc.sleeps) (hinterrupted : next.interrupted = pc.interrupted)
    (hvisits : ∀ chan p, ¬pc.Visits chan p) : pc.Follows me next :=
  ⟨fun _ h => hreturns ▸ h, fun h => hreturns ▸ h, .inl hsleepLock, .inl hsleeps,
    fun chan p h => absurd h (hvisits chan p), fun _ h => hinterrupted ▸ h⟩

/-- The thread returns to the client. -/
theorem Follows.of_return {k : K} (hreturns : pc.Returns k)
    (hsleeps : pc.sleeps = none) (hvisits : ∀ chan p, ¬pc.Visits chan p) : pc.Follows me (.client k) where
  returns := by
    intro r hr
    have hr : r = k := hr
    rw [hr]
    exact hreturns
  live := fun _ => ⟨k, rfl⟩
  sleepLock := .inr rfl
  sleeps := .inl hsleeps.symm
  visits := fun chan p h => absurd h (hvisits chan p)
  interrupted := fun _ h => absurd h List.not_mem_nil

end Pc

/-- What an assignment has to do with sleeping processes. -/
inductive DozeWrites (me : Option (Fin NPROC)) (pc : Pc L K) (i : Fin NPROC)
    (f : (Fin NPROC → Proc) → Proc) (next : Pc L K) : Prop
  /-- Nobody else falls asleep, and who is tested wakes up. -/
  | awake (hnext : next.dozes = none)
      (hsleep : ∀ proc, (f proc).state = .sleeping → me ≠ some i →
        (proc i).state = .sleeping ∧ (f proc).chan = (proc i).chan ∧
          ∀ chan, pc.tests = some (chan, i) → (proc i).chan ≠ chan)
  /-- The process falls asleep. -/
  | doze (hme : me = some i) (chan : ℕ) (lk : Lock L) (hpc : pc.nods = some (chan, lk))
      (hnext : next.dozes = some lk) (hchan : ∀ proc, (f proc).chan = chan)

/-- What an instruction has to do with the locks of the client and with sleeping processes. -/
def Instr.Monitored (me : Option (Fin NPROC)) (pc : Pc L K) : Instr L K → Prop
  | .goto next | .setCurrent _ next | .allocpid _ next | .context _ next =>
    pc.Follows me next ∧ next.released = pc.released ∧ next.Awake me
  | .read _ next => ∀ p, pc.Follows me (next p) ∧ (next p).released = pc.released ∧ (next p).Awake me
  | .any next => ∀ v, pc.Follows me (next v) ∧ (next v).released = pc.released ∧ (next v).Awake me
  | .acquire lk next => pc.Follows me next ∧ next.Awake me ∧
      (pc.released = some lk ∧ pc.sleepLock = some lk ∧ next.released = none ∧ next.sleeps = none ∧
          (∃ r, next.Returns r) ∨
        (∀ l, lk ≠ .client l) ∧ next.released = pc.released)
  | .release lk next => pc.Follows me next ∧ next.dozes = none ∧
      ((∃ chan, pc.sleeps = some (chan, lk) ∧ next.nods = some (chan, lk)) ∧ pc.sleepLock = some lk ∧
          (∀ chan p, ¬pc.Visits chan p) ∧ pc.released = none ∧ next.released = some lk ∨
        (∀ l, lk ≠ .client l) ∧ next.released = pc.released ∧ next.Awake me)
  | .write i f next => pc.Follows me next ∧ next.released = pc.released ∧
      (∀ p, me = some p → next.nods = none) ∧ DozeWrites me pc i f next
  | .swtch _ next => ∀ r, ¬next.Returns r
  | .sched next => pc.Follows me next ∧ next.released = pc.released ∧ next.dozes = pc.dozes

variable {instr : Instr L K}

/-- The common part of the code and the locks of the client. -/
theorem commonCode_monitored (hwf : pc.WF me) (hcode : commonCode me pc = some instr) : instr.Monitored me pc := by
  cases pc with
  | wakeup chan rest k =>
    cases rest with
    | nil =>
      cases hcode
      exact ⟨⟨fun _ h => h, fun h => h, .inl rfl, .inl rfl, fun _ _ h => absurd h.2 List.not_mem_nil,
          fun _ h => h⟩, rfl, Pc.awake_of_slotLock hwf.2.1⟩
    | cons q rest =>
      cases hcode
      by_cases hme : me = some q
      · rw [if_pos hme]
        refine ⟨⟨fun _ h => h, fun h => h, .inl rfl, .inl rfl, ?_, fun _ h => h⟩, rfl, fun _ _ => ⟨rfl, rfl⟩⟩
        intro chan' p ⟨hchan, hp⟩
        obtain rfl | hp := List.mem_cons.1 hp
        · exact .inr (.inl hme)
        · exact .inl ⟨hchan, hp⟩
      · rw [if_neg hme]
        exact ⟨⟨fun _ h => h, fun h => h, .inl rfl, .inl rfl, fun _ _ h => .inl h, fun _ h => h⟩,
          fun _ _ => ⟨rfl, rfl⟩, .inr ⟨nofun, rfl⟩⟩
  | wakeupTest chan q rest k =>
    cases hcode
    refine ⟨⟨fun _ h => h, fun h => h, .inl rfl, .inl rfl, ?_, fun _ h => h⟩, rfl, fun _ _ => rfl, .awake rfl ?_⟩
    · intro chan' p ⟨hchan, hp⟩
      obtain rfl | hp := List.mem_cons.1 hp
      · exact .inr (.inr (by rw [← hchan]; rfl))
      · exact .inl ⟨hchan, hp⟩
    · intro proc hsleep _
      rw [awakened] at hsleep ⊢
      split at hsleep
      · cases hsleep
      · rename_i hnot
        rw [if_neg hnot]
        refine ⟨hsleep, rfl, ?_⟩
        intro chan' htests hchan
        cases htests
        exact hnot ⟨hsleep, hchan⟩
  | wakeupRelease chan q rest k =>
    cases hcode
    exact ⟨⟨fun _ h => h, fun h => h, .inl rfl, .inl rfl, fun _ _ h => .inl h, fun _ h => h⟩, rfl,
      .inr ⟨nofun, rfl, fun _ _ => ⟨rfl, rfl⟩⟩⟩
  | _ => cases hcode

/-- Scheduler code and the locks of the client. -/
theorem schedCode_monitored (hwf : pc.WF none) (hcode : schedCode pc = some instr) : instr.Monitored none pc := by
  cases pc with
  | schedIdle | schedCurrent | schedBack =>
    cases hcode
    exact ⟨.of_eq rfl rfl rfl rfl (fun _ _ h => h), rfl, nofun⟩
  | schedScan rest =>
    cases rest <;> cases hcode
    · exact ⟨.of_eq rfl rfl rfl rfl (fun _ _ h => h), rfl, nofun⟩
    · exact ⟨.of_eq rfl rfl rfl rfl (fun _ _ h => h), nofun, .inr ⟨nofun, rfl⟩⟩
  | schedTest q rest =>
    cases hcode
    intro p
    beta_reduce
    split <;> exact ⟨.of_eq rfl rfl rfl rfl (fun _ _ h => h), rfl, nofun⟩
  | schedState q rest =>
    cases hcode
    exact ⟨.of_eq rfl rfl rfl rfl (fun _ _ h => h), rfl, nofun, .awake rfl nofun⟩
  | schedSwtch q rest =>
    cases hcode
    exact fun _ h => h
  | schedRelease q rest =>
    cases hcode
    exact ⟨.of_eq rfl rfl rfl rfl (fun _ _ h => h), rfl, .inr ⟨nofun, rfl, nofun⟩⟩
  | _ => exact commonCode_monitored hwf hcode

/-- Process code and the locks of the client. -/
theorem procCode_monitored {me : Fin NPROC} (hwf : pc.WF (some me))
    (hcode : procCode me pc = some instr) : instr.Monitored (some me) pc := by
  cases pc with
  -- Locks of `proc.c` taken and released.
  | yieldAcquire | sleepAcquire | killedAcquire | setkilledAcquire | forkWait | forkRelock | exitAcquire
  | waitAcquire | waitLock | waitKilled =>
    cases hcode
    exact ⟨.of_eq rfl rfl rfl rfl (fun _ _ h => h), (fun _ _ => ⟨rfl, rfl⟩), .inr ⟨nofun, rfl⟩⟩
  | exitWait status =>
    obtain ⟨-, rfl⟩ := procCode_exitWait hcode
    exact ⟨.of_eq rfl rfl rfl rfl (fun _ _ h => h), (fun _ _ => ⟨rfl, rfl⟩), .inr ⟨nofun, rfl⟩⟩
  | killSkip | forkSkip | forkUnlock | forkWaitRelease | exitRelease | waitSkip | waitUnlock | sleepUnlock =>
    cases hcode
    exact ⟨.of_eq rfl rfl rfl rfl (fun _ _ h => h), rfl, .inr ⟨nofun, rfl, fun _ _ => ⟨rfl, rfl⟩⟩⟩
  | forkret =>
    cases hcode
    exact ⟨.of_eq rfl rfl rfl rfl (fun _ _ h => h), rfl, .inr ⟨nofun, rfl, fun _ _ => ⟨rfl, rfl⟩⟩⟩
  | setkilledRelease =>
    cases hcode
    exact ⟨.of_return rfl rfl (fun _ _ h => h), rfl, .inr ⟨nofun, rfl, fun _ _ => ⟨rfl, rfl⟩⟩⟩
  | killedRelease | killRelease | forkRelease | forkAbort | waitReturn =>
    cases hcode
    exact ⟨.of_return ⟨_, rfl⟩ rfl (fun _ _ h => h), rfl, .inr ⟨nofun, rfl, fun _ _ => ⟨rfl, rfl⟩⟩⟩
  | yieldRelease k =>
    cases hcode
    exact ⟨.of_eq rfl rfl rfl rfl (fun _ _ h => h), (Pc.awake_of_slotLock hwf.2.1 me rfl).2,
      .inr ⟨nofun, rfl, Pc.awake_of_slotLock hwf.2.1⟩⟩
  | waitKilledRelease killed k =>
    cases hcode
    refine ⟨⟨?_, ?_, .inl ?_, .inr (.inr rfl), fun _ _ h => absurd h id, ?_⟩, ?_, .inr ⟨nofun, ?_, ?_⟩⟩
    all_goals cases killed
    all_goals first | exact fun _ h => h | exact fun h => h | rfl | exact fun _ _ => ⟨rfl, rfl⟩
  -- The locks with which processes sleep.
  | sleepRelease chan lk k =>
    cases hcode
    exact ⟨⟨fun _ h => h, fun h => h, .inl rfl, .inr (.inl ⟨chan, lk, rfl, rfl, rfl⟩), fun _ _ h => absurd h id,
        fun _ h => h⟩, rfl, .inl ⟨⟨chan, rfl, rfl⟩, rfl, (fun _ _ h => h), rfl, rfl⟩⟩
  | sleepReacquire lk k =>
    cases hcode
    obtain ⟨l, k', rfl, rfl⟩ | ⟨k', rfl, rfl⟩ := hwf
    · exact ⟨⟨fun _ h => h, fun h => h, .inr rfl, .inl rfl, fun _ _ h => absurd h id, fun _ h => h⟩,
        (fun _ _ => ⟨rfl, rfl⟩), .inl ⟨rfl, rfl, rfl, rfl, k', rfl⟩⟩
    · exact ⟨⟨fun _ h => h, fun h => h, .inl rfl, .inl rfl, fun _ _ h => absurd h id, fun _ h => h⟩,
        (fun _ _ => ⟨rfl, rfl⟩), .inl ⟨rfl, rfl, rfl, rfl, k' none, none, rfl⟩⟩
  -- Loops.
  | kill pid rest k | forkScan rest k =>
    cases rest <;> cases hcode
    · exact ⟨.of_return ⟨_, rfl⟩ rfl (fun _ _ h => h), rfl, fun _ _ => ⟨rfl, rfl⟩⟩
    · exact ⟨.of_eq rfl rfl rfl rfl (fun _ _ h => h), (fun _ _ => ⟨rfl, rfl⟩), .inr ⟨nofun, rfl⟩⟩
  | reparent rest status =>
    cases rest <;> cases hcode
    · exact ⟨.of_eq rfl rfl rfl rfl (fun _ _ h => h), rfl, fun _ _ => ⟨rfl, rfl⟩⟩
    · intro p
      beta_reduce
      split <;> exact ⟨.of_eq rfl rfl rfl rfl (fun _ _ h => h), rfl, fun _ _ => ⟨rfl, rfl⟩⟩
  | waitScan rest havekids k =>
    cases rest <;> cases hcode
    · cases havekids <;> exact ⟨.of_eq rfl rfl rfl rfl (fun _ _ h => h), rfl, fun _ _ => ⟨rfl, rfl⟩⟩
    · intro p
      beta_reduce
      split <;> exact ⟨.of_eq rfl rfl rfl rfl (fun _ _ h => h), rfl, fun _ _ => ⟨rfl, rfl⟩⟩
  -- Fields read, and values of the memory below.
  | killedRead | forkPidRead | waitKilledRead | exitWakeup | waitPid | forkTrapframe | forkPagetable =>
    cases hcode
    exact fun _ => ⟨.of_eq rfl rfl rfl rfl (fun _ _ h => h), rfl, fun _ _ => ⟨rfl, rfl⟩⟩
  | killTest | forkShare | forkTest | waitTest | forkShareMap | forkCopy | waitCopyout =>
    cases hcode
    intro v
    beta_reduce
    split <;> exact ⟨.of_eq rfl rfl rfl rfl (fun _ _ h => h), rfl, fun _ _ => ⟨rfl, rfl⟩⟩
  -- Fields written.
  | sleepTidy | setkilledState | forkShareParent =>
    cases hcode
    exact ⟨.of_eq rfl rfl rfl rfl (fun _ _ h => h), rfl, (fun _ _ => rfl), .awake rfl fun _ _ h => absurd rfl h⟩
  | forkInherit | forkParent | forkShareChild | forkShareFlag | reparentAssign =>
    cases hcode
    exact ⟨.of_eq rfl rfl rfl rfl (fun _ _ h => h), rfl, (fun _ _ => rfl), .awake rfl fun _ h _ => ⟨h, rfl, nofun⟩⟩
  | forkSetTrapframe | forkSetPagetable =>
    cases hcode
    split <;> exact ⟨.of_eq rfl rfl rfl rfl (fun _ _ h => h), rfl, (fun _ _ => rfl),
      .awake rfl fun _ h _ => ⟨h, rfl, nofun⟩⟩
  | killState q k =>
    cases hcode
    refine ⟨.of_eq rfl rfl rfl rfl (fun _ _ h => h), rfl, (fun _ _ => rfl), .awake rfl ?_⟩
    intro proc hsleep _
    obtain hsame | ⟨-, hnew⟩ := slain_state (proc q)
    · exact ⟨hsame.symm.trans hsleep, rfl, nofun⟩
    · rw [hnew] at hsleep
      cases hsleep
  | yieldState | exitState | forkState | forkFree | waitFree =>
    cases hcode
    exact ⟨.of_eq rfl rfl rfl rfl (fun _ _ h => h), rfl, (fun _ _ => rfl), .awake rfl nofun⟩
  | sleepState chan lk k =>
    cases hcode
    exact ⟨.of_eq rfl rfl rfl rfl (fun _ _ h => h), rfl, (fun _ _ => rfl), .doze rfl chan lk rfl rfl fun _ => rfl⟩
  | forkPid | forkContext =>
    cases hcode
    exact ⟨.of_eq rfl rfl rfl rfl (fun _ _ h => h), rfl, fun _ _ => ⟨rfl, rfl⟩⟩
  -- Switches to the scheduler.
  | yieldSched | sleepSched | exitSched =>
    cases hcode
    exact ⟨.of_eq rfl rfl rfl rfl (fun _ _ h => h), rfl, rfl⟩
  | _ => exact commonCode_monitored hwf hcode

/-- The code and the locks of the client. -/
theorem code_monitored (hwf : pc.WF me) (hcode : code me pc = some instr) : instr.Monitored me pc := by
  cases me with
  | none => exact schedCode_monitored hwf hcode
  | some p => exact procCode_monitored hwf hcode

/-- The instruction that looks at a slot is an assignment. -/
theorem write_of_tests
    (hcode : code me pc = some instr) (htests : pc.tests = some (chan, q)) : ∃ f next, instr = .write q f next := by
  cases pc with
  | wakeupTest chan q rest k =>
    cases htests
    cases me <;> (cases hcode; exact ⟨_, _, rfl⟩)
  | _ => cases htests

/-- The points of the client at which a process may go on after an operation. -/
def Op.Returns : Op L D K → K → Prop
  | .acquire _ k | .release _ k | .access _ k | .own _ k => fun r => r = k
  | .sleep _ _ k | .wakeup _ k | .setkilled k => fun r => r = k
  | .killed k | .kill _ k => fun r => ∃ result, r = k result
  | .fork k => fun r => ∃ result, r = k result
  | .wait k => fun r => ∃ result, r = k result
  | .exit _ => fun _ => False

/-- A called function returns to the points that the operation names, and is awake at its start. -/
theorem Op.call_returns {op : Op L D K} (hcall : op.call = some next) :
    next.Returns = op.Returns ∧ next.released = none ∧ next.nods = none ∧ next.dozes = none := by
  cases op with
  | sleep | killed | setkilled | kill | fork | exit | wait =>
    cases hcall
    exact ⟨rfl, rfl, rfl, rfl⟩
  | acquire | release | access | own | wakeup => cases hcall

/-- The code of the client is not in `sleep`. -/
theorem Pc.frame_awake (back : Option (Pc L K)) (k : K) : (frame back k).Awake me := by
  intro p _
  cases back <;> exact ⟨rfl, rfl⟩

end Xv6.Sched
