import Xv6.Sched.Exclusion

/-!
# Parents and children

`wait_lock` protects the parents of processes: a parent is assigned when a process is created, when the
children of an exiting process are given to `initproc`, and when a slot is freed. Only the failing paths
of `kfork` free a slot without `wait_lock`, and such a slot has no parent yet.
-/

namespace Xv6.Sched

open Library

variable {C L D K : Type} [DecidableEq C] {b : Bool}

namespace Pc

/-- The slot of the process that the thread creates, and whether its parent is assigned. -/
def kin : Pc L K → Option (Fin NPROC × Bool)
  | .yieldAcquire k | .yieldState k | .yieldSched k | .yieldRelease k => k.kin
  | .sleepAcquire _ _ k | .sleepRelease _ _ k | .sleepState _ _ k => k.kin
  | .sleepSched _ k | .sleepTidy _ k | .sleepUnlock _ k | .sleepReacquire _ k => k.kin
  | .wakeup _ _ k | .wakeupTest _ _ _ k | .wakeupRelease _ _ _ k | .handler _ k => k.kin
  | .forkTrapframe q _ | .forkSetTrapframe q _ _ | .forkPagetable q _ => some (q, false)
  | .forkSetPagetable q _ _ | .forkContext q _ | .forkFree q _ | .forkCopy q _ => some (q, false)
  | .forkInherit q _ | .forkPidRead q _ | .forkUnlock q _ _ | .forkWait q _ _ => some (q, false)
  | .forkParent q _ _ => some (q, false)
  | .forkWaitRelease q _ _ | .forkRelock q _ _ | .forkShare q _ _ | .forkShareMap q _ _ => some (q, true)
  | .forkShareChild q _ _ | .forkShareParent q _ _ | .forkShareFlag q _ _ => some (q, true)
  | .forkState q _ _ => some (q, true)
  | _ => none

/-- The slot that the thread has found to be a child of its process. -/
def child : Pc L K → Option (Fin NPROC)
  | .wakeup _ _ k | .wakeupTest _ _ _ k | .wakeupRelease _ _ _ k => k.child
  | .reparentAssign q _ _ | .waitLock q _ _ | .waitTest q _ _ | .waitPid q _ => some q
  | .waitCopyout q _ _ _ | .waitFree q _ _ _ => some q
  | _ => none

/-- The slots among which an exiting process may still have children. -/
def unvisited : Pc L K → Option (List (Fin NPROC))
  | .wakeup _ _ k | .wakeupTest _ _ _ k | .wakeupRelease _ _ _ k => k.unvisited
  | .reparent rest _ => some rest
  | .reparentAssign q rest _ => some (q :: rest)
  | .exitWakeup _ | .exitAcquire _ | .exitState _ => some []
  | _ => none

section Annotations

variable {pc : Pc L K} {q : Fin NPROC}

/-- A process whose parent is still to be assigned is under creation. -/
theorem creating_of_kin (h : pc.kin = some (q, b)) : ∃ r, pc.creating = some (q, r) := by
  induction pc with
  | yieldAcquire k ih | yieldState k ih | yieldSched k ih | yieldRelease k ih => exact ih h
  | sleepAcquire _ _ k ih | sleepRelease _ _ k ih | sleepState _ _ k ih => exact ih h
  | sleepSched _ k ih | sleepTidy _ k ih | sleepUnlock _ k ih | sleepReacquire _ k ih => exact ih h
  | wakeup _ _ k ih | wakeupTest _ _ _ k ih | wakeupRelease _ _ _ k ih | handler _ k ih => exact ih h
  | _ => cases h <;> exact ⟨_, rfl⟩

/-- Children are found under `wait_lock`. -/
theorem holdsWait_of_child (h : pc.child = some q) : pc.holdsWait = true := by
  induction pc with
  | wakeup _ _ k ih | wakeupTest _ _ _ k ih | wakeupRelease _ _ _ k ih => exact ih h
  | _ => cases h <;> rfl

/-- An exiting process gives its children away under `wait_lock`. -/
theorem holdsWait_of_unvisited {rest : List (Fin NPROC)} (h : pc.unvisited = some rest) : pc.holdsWait = true := by
  induction pc with
  | wakeup _ _ k ih | wakeupTest _ _ _ k ih | wakeupRelease _ _ _ k ih => exact ih h
  | _ => cases h <;> rfl

/-- Without `wait_lock` no child is found. -/
theorem child_of_holdsWait (h : pc.holdsWait = false) : pc.child = none := by
  cases hchild : pc.child with
  | none => rfl
  | some q => rw [holdsWait_of_child hchild] at h; cases h

/-- Without `wait_lock` a process gives no children away. -/
theorem unvisited_of_holdsWait (h : pc.holdsWait = false) : pc.unvisited = none := by
  cases hrest : pc.unvisited with
  | none => rfl
  | some rest => rw [holdsWait_of_unvisited hrest] at h; cases h

/-- A process that can be resumed has found no child. -/
theorem Resumable.kinship (h : pc.Resumable) : pc.child = none ∧ pc.unvisited = none := by
  cases pc <;> first | exact ⟨rfl, rfl⟩ | cases h

/-- The code of the client knows no children. -/
theorem frame_kin (back : Option (Pc L K)) (k k' : K) : (frame back k').kin = (frame back k).kin ∧
    (frame back k').child = none ∧ (frame back k').unvisited = none := by
  cases back <;> exact ⟨rfl, rfl, rfl⟩

end Annotations

end Pc

/-- What an instruction that assigns nothing says about parents. -/
structure KinNext (me : Option (Fin NPROC)) (proc : Fin NPROC → Proc) (pc next : Pc L K) : Prop where
  kin : next.kin = pc.kin
  child : ∀ q, next.child = some q → pc.child = some q ∨ me ≠ none ∧ (proc q).parent = me
  unvisited : ∀ rest, next.unvisited = some rest →
    (∃ old, pc.unvisited = some old ∧ ∀ i ∈ old, i ∈ rest ∨ (proc i).parent ≠ me) ∨
    me ≠ none ∧ me ≠ some initproc ∧ ∀ i, i ∈ rest

/-- What an assignment does to the parent of a slot. -/
inductive KinWrites (me : Option (Fin NPROC)) (pc : Pc L K) (i : Fin NPROC)
    (f : (Fin NPROC → Proc) → Proc) (next : Pc L K) : Prop
  /-- Nothing, and the process is alive after it if it was before. -/
  | keep (hparent : ∀ proc, (f proc).parent = (proc i).parent) (hkin : next.kin = pc.kin)
      (hchild : next.child = pc.child) (hrest : next.unvisited = pc.unvisited)
      (hstate : (∀ proc, (f proc).state = (proc i).state ∨
          (proc i).state = .sleeping ∧ (f proc).state = .runnable) ∨
        (me = some i ∧ pc.ownState = .running ∨ pc.sees = some (i, .runnable)) ∧
          ∀ proc, (f proc).state = .runnable ∨ (f proc).state = .sleeping ∨ (f proc).state = .running)
  /-- A process without children becomes a zombie. -/
  | exit (hme : me = some i) (hrest : pc.unvisited = some []) (hown : pc.ownState = .running)
      (hkin : next.kin = none) (hchild : next.child = none) (hnone : next.unvisited = none)
      (hparent : ∀ proc, (f proc).parent = (proc i).parent) (hstate : ∀ proc, (f proc).state = .zombie)
  /-- A new process is ready to run. -/
  | start (hme : me ≠ none) (hkin : pc.kin = some (i, true)) (hnext : next.kin = none) (hchild : next.child = none)
      (hrest : next.unvisited = none) (hparent : ∀ proc, (f proc).parent = (proc i).parent)
      (hstate : ∀ proc, (f proc).state = .runnable)
  /-- A new process gets its parent. -/
  | beget (hme : me ≠ none) (hown : pc.ownState = .running) (hwait : pc.holdsWait = true)
      (hkin : pc.kin = some (i, false)) (hnext : next.kin = some (i, true)) (hchild : next.child = none)
      (hrest : next.unvisited = none) (hparent : ∀ proc, (f proc).parent = me)
      (hstate : ∀ proc, (f proc).state = (proc i).state)
  /-- The child of an exiting process is given to `initproc`. -/
  | orphan (rest : List (Fin NPROC)) (hchild : pc.child = some i) (hrest : pc.unvisited = some (i :: rest))
      (hpc : pc.kin = none) (hkin : next.kin = none) (hnone : next.child = none)
      (hnext : next.unvisited = some rest) (hparent : ∀ proc, (f proc).parent = some initproc)
      (hstate : ∀ proc, (f proc).state = (proc i).state)
  /-- The creation of a process fails. -/
  | abandon (hkin : pc.kin = some (i, false)) (hnext : next.kin = none) (hchild : next.child = none)
      (hrest : next.unvisited = none) (hparent : ∀ proc, (f proc).parent = none)
      (hstate : ∀ proc, (f proc).state = .unused)
  /-- A zombie is freed for its parent. -/
  | reap (hchild : pc.child = some i) (hsees : pc.sees = some (i, .zombie)) (hpc : pc.kin = none)
      (hkin : next.kin = none) (hnone : next.child = none) (hrest : next.unvisited = none)
      (hparent : ∀ proc, (f proc).parent = none) (hstate : ∀ proc, (f proc).state = .unused)

/-- What an instruction has to do with parents. -/
def Instr.Kin (me : Option (Fin NPROC)) (pc : Pc L K) : Instr L K → Prop
  | .goto next | .acquire _ next | .release _ next | .setCurrent _ next =>
    ∀ proc, KinNext me proc pc next
  | .read i next => ∀ proc, KinNext me proc pc (next (proc i))
  | .any next => ∀ value proc, KinNext me proc pc (next value)
  | .write i f next => KinWrites me pc i f next
  | .allocpid i next => pc.kin = none ∧ next.kin = some (i, false) ∧ next.child = none ∧ next.unvisited = none
  | .context i next => pc.kin = some (i, false) ∧ next.kin = pc.kin ∧ next.child = none ∧
      next.unvisited = none
  | .swtch _ next => next.kin = none
  | .sched next => next.kin = pc.kin

variable {me : Option (Fin NPROC)}

/-- An instruction that leaves the children of the process alone. -/
theorem KinNext.same {proc : Fin NPROC → Proc} {pc next : Pc L K}
    (hkin : next.kin = pc.kin) (hchild : next.child = pc.child ∨ next.child = none)
    (hrest : next.unvisited = pc.unvisited ∨ next.unvisited = none) : KinNext me proc pc next where
  kin := hkin
  child := by
    intro q hq
    obtain hsame | hnone := hchild
    · exact .inl (hsame ▸ hq)
    · exact none_elim hnone hq
  unvisited := by
    intro rest hq
    obtain hsame | hnone := hrest
    · exact .inl ⟨rest, hsame ▸ hq, fun i hi => .inl hi⟩
    · exact none_elim hnone hq

variable {instr : Instr L K}

/-- The common part of the code and parents. -/
theorem commonCode_kin {pc : Pc L K} (hcode : commonCode me pc = some instr) : instr.Kin me pc := by
  cases pc with
  | wakeup chan rest k =>
    cases rest with
    | nil =>
      cases hcode
      exact fun _ => .same rfl (.inl rfl) (.inl rfl)
    | cons q rest =>
      cases hcode
      split <;> exact fun _ => .same rfl (.inl rfl) (.inl rfl)
  | wakeupTest chan q rest k =>
    cases hcode
    exact .keep (fun _ => (awakened_fields ..).1) rfl rfl rfl (.inl fun _ => awakened_state ..)
  | wakeupRelease chan q rest k =>
    cases hcode
    exact fun _ => .same rfl (.inl rfl) (.inl rfl)
  | _ => cases hcode

/-- The code of the scheduler and parents. -/
theorem schedCode_kin {pc : Pc L K} (hcode : schedCode pc = some instr) : instr.Kin none pc := by
  cases pc with
  | schedIdle | schedCurrent | schedBack | schedRelease =>
    cases hcode
    exact fun _ => .same rfl (.inl rfl) (.inl rfl)
  | schedScan rest => cases rest <;> (cases hcode; exact fun _ => .same rfl (.inl rfl) (.inl rfl))
  | schedTest q rest =>
    cases hcode
    intro proc
    beta_reduce
    split <;> exact .same rfl (.inl rfl) (.inl rfl)
  | schedState q rest =>
    cases hcode
    exact .keep (fun _ => rfl) rfl rfl rfl (.inr ⟨.inr rfl, fun _ => .inr (.inr rfl)⟩)
  | schedSwtch q rest =>
    cases hcode
    exact rfl
  | _ => exact commonCode_kin hcode

/-- The code of a process and parents. -/
theorem procCode_kin {me : Fin NPROC} {pc : Pc L K} (hwf : pc.WF (some me))
    (hcode : procCode me pc = some instr) : instr.Kin (some me) pc := by
  cases pc with
  -- Locks taken and released.
  | forkret | yieldAcquire | sleepAcquire | sleepRelease | sleepUnlock
  | killedAcquire | killedRelease | setkilledAcquire | setkilledRelease | killRelease | killSkip
  | forkSkip | forkUnlock | forkWait | forkWaitRelease | forkRelock | forkRelease | forkAbort
  | exitAcquire | exitRelease | waitAcquire | waitLock | waitSkip | waitUnlock | waitReturn | waitKilled =>
    cases hcode
    exact fun _ => .same rfl (.inl rfl) (.inl rfl)
  | yieldRelease k =>
    cases hcode
    exact fun _ => .same rfl (.inr (Pc.child_of_holdsWait hwf.2.2)) (.inr (Pc.unvisited_of_holdsWait hwf.2.2))
  | sleepReacquire lk k =>
    cases hcode
    obtain ⟨l, k', rfl, rfl⟩ | ⟨k', rfl, rfl⟩ := hwf <;> exact fun _ => .same rfl (.inl rfl) (.inl rfl)
  | waitKilledRelease killed k =>
    cases hcode
    cases killed <;> exact fun _ => .same rfl (.inl rfl) (.inl rfl)
  | exitWait status =>
    obtain ⟨hinit, rfl⟩ := procCode_exitWait hcode
    refine fun _ => ⟨rfl, nofun, ?_⟩
    intro rest hrest
    cases hrest
    exact .inr ⟨nofun, fun h => hinit (Option.some.inj h), List.mem_finRange⟩
  -- Loops.
  | kill pid rest k | forkScan rest k =>
    cases rest <;> (cases hcode; exact fun _ => .same rfl (.inl rfl) (.inl rfl))
  | reparent rest status =>
    cases rest with
    | nil =>
      cases hcode
      exact fun _ => .same rfl (.inl rfl) (.inl rfl)
    | cons q rest =>
      cases hcode
      intro proc
      beta_reduce
      split
      · rename_i hparent
        refine ⟨rfl, ?_, fun rest' h => .inl ⟨_, h, fun i hi => .inl hi⟩⟩
        intro q' hq
        cases hq
        exact .inr ⟨nofun, hparent⟩
      · rename_i hparent
        refine ⟨rfl, nofun, ?_⟩
        intro rest' hrest
        cases hrest
        refine .inl ⟨_, rfl, fun i hi => ?_⟩
        obtain rfl | hi := List.mem_cons.1 hi
        · exact .inr hparent
        · exact .inl hi
  | waitScan rest havekids k =>
    cases rest with
    | nil =>
      cases hcode
      cases havekids <;> exact fun _ => .same rfl (.inl rfl) (.inl rfl)
    | cons q rest =>
      cases hcode
      intro proc
      beta_reduce
      split
      · rename_i hparent
        refine ⟨rfl, ?_, nofun⟩
        intro q' hq
        cases hq
        exact .inr ⟨nofun, hparent⟩
      · exact .same rfl (.inl rfl) (.inl rfl)
  -- Fields read.
  | killedRead | forkPidRead | exitWakeup | waitPid | waitKilledRead =>
    cases hcode
    exact fun _ => .same rfl (.inl rfl) (.inl rfl)
  | killTest | forkTest | forkShare =>
    cases hcode
    intro proc
    beta_reduce
    split <;> exact .same rfl (.inl rfl) (.inl rfl)
  | waitTest =>
    cases hcode
    intro proc
    beta_reduce
    split
    · exact .same rfl (.inl rfl) (.inl rfl)
    · exact .same rfl (.inr rfl) (.inl rfl)
  -- Values of the memory below.
  | forkTrapframe | forkPagetable =>
    cases hcode
    exact fun _ _ => .same rfl (.inl rfl) (.inl rfl)
  | forkShareMap | forkCopy =>
    cases hcode
    intro value proc
    beta_reduce
    split <;> exact .same rfl (.inl rfl) (.inl rfl)
  | waitCopyout =>
    cases hcode
    intro value proc
    beta_reduce
    split
    · exact .same rfl (.inr rfl) (.inl rfl)
    · exact .same rfl (.inl rfl) (.inl rfl)
  -- Fields written.
  | sleepTidy | setkilledState | forkInherit | forkShareChild | forkShareParent | forkShareFlag =>
    cases hcode
    exact .keep (fun _ => rfl) rfl rfl rfl (.inl fun _ => .inl rfl)
  | forkSetTrapframe | forkSetPagetable =>
    cases hcode
    split <;> exact .keep (fun _ => rfl) rfl rfl rfl (.inl fun _ => .inl rfl)
  | killState q k =>
    cases hcode
    exact .keep (fun _ => rfl) rfl rfl rfl (.inl fun _ => slain_state _)
  | yieldState | sleepState =>
    cases hcode
    exact .keep (fun _ => rfl) rfl rfl rfl (.inr ⟨.inl ⟨rfl, rfl⟩, fun _ => by simp⟩)
  | exitState =>
    cases hcode
    exact .exit rfl rfl rfl rfl rfl rfl (fun _ => rfl) (fun _ => rfl)
  | forkState =>
    cases hcode
    exact .start nofun rfl rfl rfl rfl (fun _ => rfl) (fun _ => rfl)
  | forkParent =>
    cases hcode
    exact .beget nofun rfl rfl rfl rfl rfl rfl (fun _ => rfl) (fun _ => rfl)
  | reparentAssign q rest status =>
    cases hcode
    exact .orphan rest rfl rfl rfl rfl rfl rfl (fun _ => rfl) (fun _ => rfl)
  | forkFree =>
    cases hcode
    exact .abandon rfl rfl rfl rfl (fun _ => rfl) (fun _ => rfl)
  | waitFree =>
    cases hcode
    exact .reap rfl rfl rfl rfl rfl rfl (fun _ => rfl) (fun _ => rfl)
  | forkPid =>
    cases hcode
    exact ⟨rfl, rfl, rfl, rfl⟩
  | forkContext =>
    cases hcode
    exact ⟨rfl, rfl, rfl, rfl⟩
  -- Switches to the scheduler.
  | yieldSched | sleepSched | exitSched =>
    cases hcode
    exact rfl
  | _ => exact commonCode_kin hcode

/-- The code and parents. -/
theorem code_kin {pc : Pc L K} (hwf : pc.WF me) (hcode : code me pc = some instr) : instr.Kin me pc := by
  cases me with
  | none => exact schedCode_kin hcode
  | some p => exact procCode_kin hwf hcode

namespace Machine

/-- What holds between the parents of slots, their states and the points of threads. -/
structure Kinship (s : Machine C L D K) : Prop where
  unused : ∀ i, (s.proc i).state = .unused → (s.proc i).parent = none
  kin : ∀ t q b, (s.point t).kin = some (q, b) → (s.proc q).parent = if b then t.me else none
  child : ∀ c q, (s.here c).child = some q → s.running c ≠ none ∧ (s.proc q).parent = s.running c
  unvisited : ∀ c rest, (s.here c).unvisited = some rest → s.running c ≠ none ∧
    s.running c ≠ some initproc ∧ ∀ i, (s.proc i).parent = s.running c → i ∈ rest
  alive : ∀ i j, (s.proc i).parent = some j → Live (s.proc j).state
  born : ∀ i, i ≠ initproc → (s.proc i).state ≠ .unused → (s.proc i).state ≠ .used →
    (s.proc i).parent ≠ none
  first : Live (s.proc initproc).state

/-- What the parents and states of slots have to do with the points when a CPU moves. -/
structure KinLegal (s : Machine C L D K) (c : C) (next : Pc L K) (s' : Machine C L D K) : Prop where
  unused : ∀ i, (s'.proc i).state = .unused → (s'.proc i).parent = none
  kin : ∀ q b, next.kin = some (q, b) → (s'.proc q).parent = if b then s.running c else none
  child : ∀ q, next.child = some q → s.running c ≠ none ∧ (s'.proc q).parent = s.running c
  unvisited : ∀ rest, next.unvisited = some rest → s.running c ≠ none ∧
    s.running c ≠ some initproc ∧ ∀ i, (s'.proc i).parent = s.running c → i ∈ rest
  /-- Parents change under `wait_lock`, and not those of slots that others create. -/
  change : ∀ i, (s'.proc i).parent = (s.proc i).parent ∨ (s.here c).holdsWait = true ∧
    ∀ t b, (s.point t).kin = some (i, b) → t = s.thread c
  alive : ∀ i j, (s'.proc i).parent = some j → Live (s'.proc j).state
  born : ∀ i, i ≠ initproc → (s'.proc i).state ≠ .unused → (s'.proc i).state ≠ .used →
    (s'.proc i).parent ≠ none
  first : Live (s'.proc initproc).state

variable {s s' t : Machine C L D K} {c d : C} {next : Pc L K}

omit [DecidableEq C] in
/-- No two CPUs hold `wait_lock`. -/
theorem Exclusive.holdsWait_unique (hs : Exclusive s) (hc : (s.here c).holdsWait = true)
    (hd : (s.here d).holdsWait = true) : c = d := by
  have hlock := (hs.wait c).2 hc
  rw [(hs.wait d).2 hd] at hlock
  cases hlock
  rfl

/-- A legal move keeps the invariant. -/
theorem Kinship.of_goes (hk : Kinship s) (hs : Exclusive s) (h : Goes s c next s')
    (hlegal : KinLegal s c next s') : Kinship s' := by
  -- What another CPU knows under `wait_lock` is not changed.
  have hsame : ∀ d, d ≠ c → (s.here d).holdsWait = true → ∀ i, (s'.proc i).parent = (s.proc i).parent := by
    intro d hd hwait i
    obtain hsame | ⟨hc, -⟩ := hlegal.change i
    · exact hsame
    · exact absurd (hs.holdsWait_unique hwait hc) hd
  exact {
    unused := hlegal.unused
    kin := by
      intro t q b ht
      rw [h.point] at ht
      split at ht
      · rename_i htc
        rw [htc, me_thread]
        exact hlegal.kin q b ht
      · rename_i htc
        obtain hsame | ⟨-, honly⟩ := hlegal.change q
        · rw [hsame]
          exact hk.kin t q b ht
        · exact absurd (honly t b ht) htc
    child := by
      intro d q hq
      rw [h.running]
      by_cases hd : d = c
      · rw [hd, h.here_self] at hq
        rw [hd]
        exact hlegal.child q hq
      · rw [h.here_ne hs.thread hd] at hq
        rw [hsame d hd (Pc.holdsWait_of_child hq)]
        exact hk.child d q hq
    unvisited := by
      intro d rest hrest
      rw [h.running]
      by_cases hd : d = c
      · rw [hd, h.here_self] at hrest
        rw [hd]
        exact hlegal.unvisited rest hrest
      · rw [h.here_ne hs.thread hd] at hrest
        obtain ⟨hrun, hinit, hmem⟩ := hk.unvisited d rest hrest
        refine ⟨hrun, hinit, fun i hi => hmem i ?_⟩
        rwa [hsame d hd (Pc.holdsWait_of_unvisited hrest)] at hi
    alive := hlegal.alive
    born := hlegal.born
    first := hlegal.first }

omit [DecidableEq C] in
/-- The parent of a slot under creation. -/
theorem Kinship.kin_here (hk : Kinship s) {q : Fin NPROC} (hc : (s.here c).kin = some (q, b)) :
    (s.proc q).parent = if b then s.running c else none := by
  rw [here_eq] at hc
  rw [hk.kin _ q b hc, me_thread]

/-- A state that is as before, or of a live process as before. -/
def Alike (old new : ProcState) : Prop :=
  new = old ∨ Live old ∧ Live new

omit [DecidableEq C] in
/-- A move that changes no parent, and only states of live processes. -/
theorem KinLegal.of_alike (hk : Kinship s) (hparent : ∀ i, (s'.proc i).parent = (s.proc i).parent)
    (hstate : ∀ i, Alike (s.proc i).state (s'.proc i).state)
    (hkin : next.kin = (s.here c).kin)
    (hchild : ∀ q, next.child = some q → s.running c ≠ none ∧ (s.proc q).parent = s.running c)
    (hrest : ∀ rest, next.unvisited = some rest → s.running c ≠ none ∧
      s.running c ≠ some initproc ∧ ∀ i, (s.proc i).parent = s.running c → i ∈ rest) :
    KinLegal s c next s' where
  unused := by
    intro i hi
    rw [hparent]
    obtain hsame | ⟨-, hlive⟩ := hstate i
    · exact hk.unused i (hsame ▸ hi)
    · rw [hi] at hlive
      cases hlive
  kin := by
    intro q b hq
    rw [hparent]
    exact hk.kin_here (hkin ▸ hq)
  child := by
    intro q hq
    rw [hparent]
    exact hchild q hq
  unvisited := by
    intro rest hq
    obtain ⟨hrun, hinit, hmem⟩ := hrest rest hq
    exact ⟨hrun, hinit, fun i hi => hmem i (hparent i ▸ hi)⟩
  change := fun i => .inl (hparent i)
  alive := by
    intro i j hij
    rw [hparent] at hij
    obtain hsame | ⟨-, hlive⟩ := hstate j
    · rw [hsame]
      exact hk.alive i j hij
    · exact hlive
  born := by
    intro i hi hunused hused
    rw [hparent]
    obtain hsame | ⟨hlive, -⟩ := hstate i
    · rw [hsame] at hunused hused
      exact hk.born i hi hunused hused
    · apply hk.born i hi
      · intro heq
        rw [heq] at hlive
        cases hlive
      · intro heq
        rw [heq] at hlive
        cases hlive
  first := by
    obtain hsame | ⟨-, hlive⟩ := hstate initproc
    · rw [hsame]
      exact hk.first
    · exact hlive

omit [DecidableEq C] in
/-- An instruction that assigns nothing. -/
theorem KinLegal.of_next (hk : Kinship s) (hproc : s'.proc = s.proc)
    (hnext : KinNext (s.running c) s.proc (s.here c) next) : KinLegal s c next s' := by
  refine .of_alike hk (fun i => by rw [hproc]) (fun i => .inl (by rw [hproc])) hnext.kin ?_ ?_
  · intro q hq
    obtain hold | hnew := hnext.child q hq
    · exact hk.child c q hold
    · exact hnew
  · intro rest hrest
    obtain ⟨old, hold, hmem⟩ | ⟨hrun, hinit, hall⟩ := hnext.unvisited rest hrest
    · obtain ⟨hrun, hinit, hin⟩ := hk.unvisited c old hold
      refine ⟨hrun, hinit, fun i hi => ?_⟩
      exact (hmem i (hin i hi)).resolve_right fun hne => hne hi
    · exact ⟨hrun, hinit, fun i _ => hall i⟩

variable {u : Thread C}

omit [DecidableEq C] in
/-- The parent of a slot under creation belongs to its creator. -/
theorem Exclusive.kin_unique (hs : Exclusive s) {q : Fin NPROC} {b' : Bool}
    (hc : (s.here c).kin = some (q, b)) (hu : (s.point u).kin = some (q, b')) : u = s.thread c := by
  obtain ⟨r, hr⟩ := Pc.creating_of_kin hc
  obtain ⟨r', hr'⟩ := Pc.creating_of_kin hu
  rw [here_eq] at hr
  exact hs.creator u _ q r' r hr' hr

omit [DecidableEq C] in
/-- A slot under creation is `USED`. -/
theorem Exclusive.used_of_point (hs : Exclusive s) {q : Fin NPROC}
    (hu : (s.point u).kin = some (q, b)) : (s.proc q).state = .used := by
  obtain ⟨r, hr⟩ := Pc.creating_of_kin hu
  exact (hs.creating u q r hr).1

omit [DecidableEq C] in
theorem Exclusive.used_of_kin (hs : Exclusive s) {q : Fin NPROC}
    (hc : (s.here c).kin = some (q, b)) : (s.proc q).state = .used :=
  hs.used_of_point (here_eq s c ▸ hc)

section Writes

variable {i : Fin NPROC} {f : (Fin NPROC → Proc) → Proc}

section

variable (hk : Kinship s) (hother : ∀ j, j ≠ i → s'.proc j = s.proc j) (hself : s'.proc i = f s.proc)

omit [DecidableEq C]

include hk hother hself

/-- A slot changes its state and keeps its parent. -/
theorem KinLegal.of_state (hparent : (f s.proc).parent = (s.proc i).parent) (hunused : (f s.proc).state ≠ .unused)
    (hlive : Live (f s.proc).state ∨ i ≠ initproc ∧ ∀ j, (s.proc j).parent ≠ some i)
    (hborn : i ≠ initproc → (f s.proc).state ≠ .used → (s.proc i).parent ≠ none)
    (hkin : ∀ q b, next.kin = some (q, b) → (s.proc q).parent = if b then s.running c else none)
    (hchild : next.child = none) (hnone : next.unvisited = none) : KinLegal s c next s' := by
  have hsame : ∀ j, (s'.proc j).parent = (s.proc j).parent := by
    intro j
    by_cases hji : j = i
    · rw [hji, hself, hparent]
    · rw [hother j hji]
  exact {
    unused := by
      intro j hj
      rw [hsame]
      by_cases hji : j = i
      · rw [hji, hself] at hj
        exact absurd hj hunused
      · rw [hother j hji] at hj
        exact hk.unused j hj
    kin := fun q b hq => by rw [hsame]; exact hkin q b hq
    child := fun _ => none_elim hchild
    unvisited := fun _ => none_elim hnone
    change := fun j => .inl (hsame j)
    alive := by
      intro j k hjk
      rw [hsame] at hjk
      by_cases hki : k = i
      · rw [hki, hself]
        exact hlive.resolve_right fun h => h.2 j (hki ▸ hjk)
      · rw [hother k hki]
        exact hk.alive j k hjk
    born := by
      intro j hj hunused hused
      rw [hsame]
      by_cases hji : j = i
      · rw [hji] at hj hused ⊢
        exact hborn hj (hself ▸ hused)
      · rw [hother j hji] at hunused hused
        exact hk.born j hj hunused hused
    first := by
      by_cases hinit : initproc = i
      · rw [hinit, hself]
        exact hlive.resolve_right fun h => h.1 hinit.symm
      · rw [hother initproc hinit]
        exact hk.first }

/-- A slot gets another parent. -/
theorem KinLegal.of_parent {p : Fin NPROC} (hparent : (f s.proc).parent = some p)
    (hstate : (f s.proc).state = (s.proc i).state) (hlive : Live (s.proc p).state)
    (hused : (s.proc i).state ≠ .unused) (hwait : (s.here c).holdsWait = true)
    (honly : ∀ t b, (s.point t).kin = some (i, b) → t = s.thread c)
    (hkin : ∀ q b, next.kin = some (q, b) → q = i ∧ b = true ∧ s.running c = some p)
    (hchild : next.child = none)
    (hrest : ∀ rest, next.unvisited = some rest → s.running c ≠ none ∧
      s.running c ≠ some initproc ∧ s.running c ≠ some p ∧
        ∀ j, j ≠ i → (s.proc j).parent = s.running c → j ∈ rest) : KinLegal s c next s' := by
  have hi : (s'.proc i).parent = some p := by rw [hself, hparent]
  have hsame : ∀ j, (s'.proc j).state = (s.proc j).state := by
    intro j
    by_cases hji : j = i
    · rw [hji, hself, hstate]
    · rw [hother j hji]
  exact {
    unused := by
      intro j hj
      rw [hsame] at hj
      by_cases hji : j = i
      · rw [hji] at hj
        exact absurd hj hused
      · rw [hother j hji]
        exact hk.unused j hj
    kin := by
      intro q b hq
      obtain ⟨rfl, rfl, hrun⟩ := hkin q b hq
      rw [hi, hrun]
      rfl
    child := fun _ => none_elim hchild
    unvisited := by
      intro rest hq
      obtain ⟨hrun, hinit, hp, hmem⟩ := hrest rest hq
      refine ⟨hrun, hinit, fun j hj => ?_⟩
      by_cases hji : j = i
      · rw [hji, hi] at hj
        exact absurd hj.symm hp
      · rw [hother j hji] at hj
        exact hmem j hji hj
    change := by
      intro j
      by_cases hji : j = i
      · rw [hji]
        exact .inr ⟨hwait, honly⟩
      · exact .inl (by rw [hother j hji])
    alive := by
      intro j k hjk
      rw [hsame]
      by_cases hji : j = i
      · rw [hji, hi] at hjk
        cases hjk
        exact hlive
      · rw [hother j hji] at hjk
        exact hk.alive j k hjk
    born := by
      intro j hj hunused hused'
      rw [hsame] at hunused hused'
      by_cases hji : j = i
      · rw [hji, hi]
        exact nofun
      · rw [hother j hji]
        exact hk.born j hj hunused hused'
    first := by
      rw [hsame]
      exact hk.first }

/-- A slot that is not alive is freed. -/
theorem KinLegal.of_free (hparent : (f s.proc).parent = none)
    (hstate : (f s.proc).state = .unused) (hdead : ¬Live (s.proc i).state)
    (hchange : (s.proc i).parent = none ∨ (s.here c).holdsWait = true ∧
      ∀ t b, (s.point t).kin = some (i, b) → t = s.thread c)
    (hkin : next.kin = none) (hchild : next.child = none) (hnone : next.unvisited = none) :
    KinLegal s c next s' where
  unused := by
    intro j hj
    by_cases hji : j = i
    · rw [hji, hself, hparent]
    · rw [hother j hji] at hj ⊢
      exact hk.unused j hj
  kin := fun _ _ => none_elim hkin
  child := fun _ => none_elim hchild
  unvisited := fun _ => none_elim hnone
  change := by
    intro j
    by_cases hji : j = i
    · rw [hji, hself, hparent]
      exact hchange.imp_left Eq.symm
    · exact .inl (by rw [hother j hji])
  alive := by
    intro j k hjk
    have hji : j ≠ i := by
      rintro rfl
      rw [hself, hparent] at hjk
      cases hjk
    rw [hother j hji] at hjk
    have hki : k ≠ i := by
      rintro rfl
      exact hdead (hk.alive j k hjk)
    rw [hother k hki]
    exact hk.alive j k hjk
  born := by
    intro j hj hunused hused
    have hji : j ≠ i := by
      rintro rfl
      rw [hself] at hunused
      exact hunused hstate
    rw [hother j hji] at hunused hused ⊢
    exact hk.born j hj hunused hused
  first := by
    have hi : initproc ≠ i := by
      intro hi
      exact hdead (hi ▸ hk.first)
    rw [hother initproc hi]
    exact hk.first

end

omit [DecidableEq C] in
/-- What an assignment to a slot does is legal. -/
theorem KinLegal.of_writes (hk : Kinship s) (hs : Exclusive s) (hother : ∀ j, j ≠ i → s'.proc j = s.proc j)
    (hself : s'.proc i = f s.proc) (hwrites : KinWrites (s.running c) (s.here c) i f next) :
    KinLegal s c next s' := by
  cases hwrites with
  | keep hparent hkin hchild hrest hstate =>
    refine .of_alike hk ?_ ?_ hkin (fun q hq => hk.child c q (hchild ▸ hq))
      (fun rest hq => hk.unvisited c rest (hrest ▸ hq))
    · intro j
      by_cases hji : j = i
      · rw [hji, hself, hparent]
      · rw [hother j hji]
    · intro j
      by_cases hji : j = i
      · rw [hji, hself]
        obtain hsame | ⟨hold, hnew⟩ := hstate
        · obtain hsame | ⟨hsleep, hnew⟩ := hsame s.proc
          · exact .inl hsame
          · exact .inr ⟨by rw [hsleep]; trivial, by rw [hnew]; trivial⟩
        · refine .inr ⟨?_, ?_⟩
          · obtain ⟨hme, hown⟩ | hsees := hold
            · rw [hs.state_of_running hme, hown]
              trivial
            · rw [hs.sees c i _ hsees]
              trivial
          · obtain hnew | hnew | hnew := hnew s.proc <;> (rw [hnew]; trivial)
      · exact .inl (by rw [hother j hji])
  | exit hme hrest hown hkin hchild hnone hparent hstate =>
    obtain ⟨-, hinit, hmem⟩ := hk.unvisited c [] hrest
    refine .of_state hk hother hself (hparent _) (by rw [hstate]; exact nofun) (.inr ⟨?_, ?_⟩)
      ?_ (fun _ _ => none_elim hkin) hchild hnone
    · rintro rfl
      exact hinit hme
    · intro j hj
      rw [← hme] at hj
      exact absurd (hmem j hj) List.not_mem_nil
    · intro hi _
      have hrunning : (s.proc i).state = .running := by rw [hs.state_of_running hme, hown]
      apply hk.born i hi <;> (rw [hrunning]; exact nofun)
  | start hme hkin hnext hchild hrest hparent hstate =>
    refine .of_state hk hother hself (hparent _) (by rw [hstate]; exact nofun)
      (.inl (by rw [hstate]; trivial)) (fun _ _ => ?_) (fun _ _ => none_elim hnext) hchild hrest
    rw [hk.kin_here hkin]
    exact hme
  | beget hme hown hwait hkin hnext hchild hrest hparent hstate =>
    obtain ⟨p, hp⟩ := Option.ne_none_iff_exists'.1 hme
    have hused := hs.used_of_kin hkin
    refine .of_parent hk hother hself ((hparent _).trans hp) (hstate _) ?_ ?_ hwait
      (fun t b ht => hs.kin_unique hkin ht) ?_ hchild (fun _ => none_elim hrest)
    · rw [hs.state_of_running hp, hown]
      trivial
    · rw [hused]
      exact nofun
    · intro q b hq
      rw [hnext] at hq
      cases hq
      exact ⟨rfl, rfl, hp⟩
  | orphan rest hchild hrest hpc hkin hnone hnext hparent hstate =>
    obtain ⟨hme, hpi⟩ := hk.child c i hchild
    obtain ⟨-, hinit, hmem⟩ := hk.unvisited c _ hrest
    refine .of_parent hk hother hself (hparent _) (hstate _) hk.first ?_ (Pc.holdsWait_of_child hchild)
      ?_ (fun _ _ => none_elim hkin) hnone ?_
    · intro hunused
      rw [hk.unused i hunused] at hpi
      exact hme hpi.symm
    · -- The creator of the child would be the process itself, which exits.
      intro t b ht
      have hparent := hk.kin t i b ht
      rw [hpi] at hparent
      cases b with
      | false => exact absurd hparent hme
      | true =>
        obtain ⟨p, hp⟩ := Option.ne_none_iff_exists'.1 hme
        rw [s.thread_of_running c hp]
        cases t with
        | sched d =>
          exact none_elim hparent hp
        | proc q =>
          rw [hp] at hparent
          cases hparent
          rfl
    · intro rest' hq
      rw [hnext] at hq
      cases hq
      refine ⟨hme, hinit, hinit, fun j hji hj => ?_⟩
      exact (List.mem_cons.1 (hmem j hj)).resolve_left hji
  | abandon hkin hnext hchild hrest hparent hstate =>
    have hused := hs.used_of_kin hkin
    exact .of_free hk hother hself (hparent _) (hstate _) (by rw [hused]; exact id)
      (.inl (hk.kin_here hkin)) hnext hchild hrest
  | reap hchild hsees hpc hkin hnone hrest hparent hstate =>
    have hzombie := hs.sees c i _ hsees
    refine .of_free hk hother hself (hparent _) (hstate _) (by rw [hzombie]; exact id)
      (.inr ⟨Pc.holdsWait_of_child hchild, ?_⟩) hkin hnone hrest
    intro t b ht
    rw [hs.used_of_point ht] at hzombie
    cases hzombie

end Writes

omit [DecidableEq C] in
/-- Parents do not depend on where threads are, but for what their points say. -/
theorem Kinship.of_points (hk : Kinship s) (hproc : s'.proc = s.proc)
    (hkin : ∀ t q b, (s'.point t).kin = some (q, b) → (s.point t).kin = some (q, b))
    (hhere : ∀ d, s'.here d = s.here d ∧ s'.running d = s.running d ∨
      (s'.here d).child = none ∧ (s'.here d).unvisited = none) : Kinship s' where
  unused := by
    rw [hproc]
    exact hk.unused
  kin := by
    intro t q b ht
    rw [hproc]
    exact hk.kin t q b (hkin t q b ht)
  child := by
    intro d q hq
    rw [hproc]
    obtain ⟨hsame, hrun⟩ | ⟨hnone, -⟩ := hhere d
    · rw [hrun]
      exact hk.child d q (hsame ▸ hq)
    · exact none_elim hnone hq
  unvisited := by
    intro d rest hq
    rw [hproc]
    obtain ⟨hsame, hrun⟩ | ⟨-, hnone⟩ := hhere d
    · rw [hrun]
      exact hk.unvisited d rest (hsame ▸ hq)
    · exact none_elim hnone hq
  alive := by
    rw [hproc]
    exact hk.alive
  born := by
    rw [hproc]
    exact hk.born
  first := by
    rw [hproc]
    exact hk.first

/-- A called function knows no children. -/
theorem Op.call_kin {op : Op L D K} (hcall : op.call = some next) :
    next.kin = none ∧ next.child = none ∧ next.unvisited = none := by
  cases op <;> (cases hcall <;> exact ⟨rfl, rfl, rfl⟩)

end Machine

end Xv6.Sched
