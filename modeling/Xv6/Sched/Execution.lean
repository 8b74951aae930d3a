import Xv6.Sched.Machine

/-!
# Executing the machine

A schedule says which CPU executes next, and it numbers what is open: the value that the memory below
determines, and the operation that the client chooses. The state that a schedule leads to is computed,
so that a run is checked by evaluation.
-/

namespace Xv6.Sched

open Function Library Option

variable {C L D K : Type}

/-- How the client is executed: the operations of processes by number and those of handlers, where handlers
start and return, and all locks. -/
structure Script (L D K : Type) where
  entry : K
  choices : D → K → ℕ → Option (Op L D K)
  locks : List (Lock L)
  vector : ℕ → Option K := fun _ => none
  handles : D → K → Option (Op L D K) := fun _ _ => none
  iret : K → Bool := fun _ => false

/-- The client may do what the script does. -/
structure Client.Follows (client : Client L D K) (script : Script L D K) : Prop where
  entry : client.entry = script.entry
  choices : ∀ p d k i op, script.choices d k i = some op → client.next p d k op
  locks : ∀ l, l ∈ script.locks
  vector : ∀ i k, script.vector i = some k → client.vector k
  handles : ∀ d k op, script.handles d k = some op → client.handles d k op
  iret : ∀ k, script.iret k = true → client.iret k

/-- The point of the client at which a process is. -/
def Pc.user : Pc L K → Option K
  | .client k => some k
  | _ => none

theorem Pc.eq_of_user {pc : Pc L K} {k : K} (h : pc.user = some k) : pc = .client k := by
  cases pc with
  | client k' =>
    cases h
    rfl
  | _ => cases h

/-- The scheduler waits for a process to run. -/
def Pc.idle : Pc L K → Bool
  | .schedIdle => true
  | _ => false

theorem Pc.eq_of_idle {pc : Pc L K} (h : pc.idle = true) : pc = .schedIdle := by
  cases pc with
  | schedIdle => rfl
  | _ => cases h

/-- The locks of a machine whose client has one lock. -/
def allLocks : List (Lock Unit) := .wait :: .client () :: table.map .proc

theorem mem_allLocks (l : Lock Unit) : l ∈ allLocks := by
  cases l with
  | proc i => exact List.mem_cons_of_mem _ (List.mem_cons_of_mem _ (List.mem_map_of_mem (List.mem_finRange i)))
  | wait => exact List.mem_cons_self
  | client => exact List.mem_cons_of_mem _ List.mem_cons_self

namespace Machine

variable [DecidableEq C] [DecidableEq L]

/-- The machine after `userinit`. -/
def boot (client : Client L D K) (data : D) (trapframe pagetable : ℕ) : Machine C L D K where
  proc := fun i =>
    if i = initproc then { Proc.empty with pid := 1, state := .runnable, trapframe, pagetable }
    else Proc.empty
  nextpid := 2
  lock := fun _ => none
  current := fun _ => none
  running := fun _ => none
  sched := fun _ => .schedIdle
  pc := fun i => if i = initproc then .forkret client.entry else .dead
  data := data

omit [DecidableEq C] [DecidableEq L] in
/-- The booted machine is an initial one. -/
theorem boot_initial (client : Client L D K) (data : D) {trapframe pagetable : ℕ} (ht : trapframe ≠ 0)
    (hp : pagetable ≠ 0) : Initial client (boot client data trapframe pagetable : Machine C L D K) where
  first := ⟨trapframe, pagetable, ht, hp, rfl⟩
  others := fun _ hi => if_neg hi
  nextpid := rfl
  lock := fun _ => rfl
  current := fun _ => rfl
  running := fun _ => rfl
  sched := fun _ => rfl
  pc := fun _ => rfl

/-- The state after CPU `c` has executed an instruction, if it need not wait and does not panic. -/
def execInstr (script : Script L D K) (s : Machine C L D K) (c : C) (value : ℕ) :
    Instr L K → Option (Machine C L D K)
  | .goto next => some (s.moveTo c next)
  | .acquire l next =>
    if s.lock l = none then some ((s.setLock l (some c)).moveTo c next) else none
  | .release l next =>
    if s.lock l = some c then some ((s.setLock l none).moveTo c next) else none
  | .read i next => some (s.moveTo c (next (s.proc i)))
  | .write i f next => some ((s.setProc i (f s.proc)).moveTo c next)
  | .any next => some (s.moveTo c (next value))
  | .allocpid i next => some (({ s with nextpid := s.nextpid + 1 }.setProc i
      { s.proc i with pid := s.nextpid, state := .used }).moveTo c next)
  | .context i next => some (((s.setContext i script.entry).setProc i
      { s.proc i with pagefaultCount := 0, vr := ⟨0, 0, false⟩ }).moveTo c next)
  | .setCurrent p next => some ({ s with current := update s.current c p }.moveTo c next)
  | .swtch q next => some { s.moveTo c next with running := update s.running c (some q) }
  | .sched next =>
    match s.running c with
    | some p =>
      if s.lock (.proc p) = some c ∧ (∀ l ∈ script.locks, s.lock l = some c → l = .proc p) ∧
          (s.proc p).state ≠ .running then
        some { s.moveTo c next with running := update s.running c none }
      else none
    | none => none

/-- The state after CPU `c` has executed an operation of the client, in a process or in a handler. -/
def execOp (s : Machine C L D K) (c : C) : Option (Pc L K) → Op L D K → Option (Machine C L D K)
  | back, .acquire l k =>
    if s.lock (.client l) = none then some ((s.setLock (.client l) (some c)).moveTo c (.frame back k))
    else none
  | back, .release l k =>
    if s.lock (.client l) = some c then some ((s.setLock (.client l) none).moveTo c (.frame back k))
    else none
  | back, .access d k => some ({ s with data := d }.moveTo c (.frame back k))
  | back, .wakeup chan k => some (s.moveTo c (.wakeup chan table (.frame back k)))
  | none, .own op k => (s.running c).map fun p => (s.setProc p (op.apply (s.proc p))).moveTo c (.client k)
  | none, op => op.call.map (s.moveTo c)
  | some _, _ => none

/-- The state after CPU `c` has been interrupted, if it holds no lock. -/
def execInterrupt (script : Script L D K) (s : Machine C L D K) (c : C) (k : K) : Option (Machine C L D K) :=
  if (∀ l ∈ script.locks, s.lock l ≠ some c) ∧ (s.running c = none → (s.sched c).idle = true) then
    some (s.moveTo c (.handler k (s.here c)))
  else none

/-- The state after the next step of a CPU. -/
def exec (script : Script L D K) (s : Machine C L D K) (turn : C × ℕ) : Option (Machine C L D K) :=
  match script.vector turn.2, code (s.running turn.1) (s.here turn.1), s.running turn.1, s.here turn.1 with
  | some k, _, _, _ => s.execInterrupt script turn.1 k
  | none, some instr, _, _ => s.execInstr script turn.1 turn.2 instr
  | none, none, some _, .client k => (script.choices s.data k turn.2).bind (s.execOp turn.1 none)
  | none, none, _, .handler k back =>
    if script.iret k = true then some (s.moveTo turn.1 back)
    else (script.handles s.data k).bind (s.execOp turn.1 (some back))
  | none, none, _, _ => none

variable {client : Client L D K} {script : Script L D K} {s t : Machine C L D K} {c : C}

/-- An executed instruction is a step. -/
theorem execInstr_step {value : ℕ} {instr : Instr L K} (hfollows : client.Follows script)
    (hcode : code (s.running c) (s.here c) = some instr)
    (h : s.execInstr script c value instr = some t) : ∃ e, Step client s e t := by
  cases instr with
  | goto next =>
    cases h
    exact ⟨_, .goto s c next hcode⟩
  | acquire l next =>
    obtain ⟨hfree, ⟨⟩⟩ := ite_none_right_eq_some.1 h
    exact ⟨_, .acquire s c l next hcode hfree⟩
  | release l next =>
    obtain ⟨hheld, ⟨⟩⟩ := ite_none_right_eq_some.1 h
    exact ⟨_, .release s c l next hcode hheld⟩
  | read i next =>
    cases h
    exact ⟨_, .read s c i next hcode⟩
  | write i f next =>
    cases h
    exact ⟨_, .write s c i f next hcode⟩
  | any next =>
    cases h
    exact ⟨_, .any s c value next hcode⟩
  | allocpid i next =>
    cases h
    exact ⟨_, .allocpid s c i next hcode⟩
  | context i next =>
    cases h
    rw [← hfollows.entry]
    exact ⟨_, .context s c i next hcode⟩
  | setCurrent p next =>
    cases h
    exact ⟨_, .setCurrent s c p next hcode⟩
  | swtch q next =>
    cases h
    exact ⟨_, .swtch s c q next hcode⟩
  | sched next =>
    rw [execInstr] at h
    split at h
    · next p hrun =>
      obtain ⟨⟨hheld, honly, hstate⟩, ⟨⟩⟩ := ite_none_right_eq_some.1 h
      exact ⟨_, .sched s c p next hrun hcode hheld (fun l => honly l (hfollows.locks l)) hstate⟩
    · cases h

/-- An executed operation of the client is a step. -/
theorem execOp_step {back : Option (Pc L K)} {k : K} {op : Op L D K} (hop : Executes client s c back k op)
    (h : s.execOp c back op = some t) : ∃ e, Step client s e t := by
  cases op with
  | acquire l k' =>
    obtain ⟨hfree, ⟨⟩⟩ := ite_none_right_eq_some.1 h
    exact ⟨_, .clientAcquire s c back l k k' hop hfree⟩
  | release l k' =>
    obtain ⟨hheld, ⟨⟩⟩ := ite_none_right_eq_some.1 h
    exact ⟨_, .clientRelease s c back l k k' hop hheld⟩
  | access d k' =>
    cases h
    exact ⟨_, .access s c back d k k' hop⟩
  | wakeup chan k' =>
    cases h
    exact ⟨_, .wakeup s c back chan k k' hop⟩
  | own op k' =>
    cases hop with
    | proc p k op hrun hpc hnext =>
      rw [execOp, hrun] at h
      cases h
      exact ⟨_, .own s c p _ k k' hrun hpc hnext⟩
    | handler back k op hpc hnext => cases h
  | _ =>
    cases hop with
    | proc p k op hrun hpc hnext =>
      cases h
      exact ⟨_, .call s c p _ k _ hrun hpc hnext rfl⟩
    | handler back k op hpc hnext => cases h

/-- Every executed turn is a step, of a client that may do what the script does. -/
theorem exec_step {turn : C × ℕ} (hfollows : client.Follows script) (h : s.exec script turn = some t) :
    ∃ e, Step client s e t := by
  unfold exec at h
  split at h
  · next k hvector =>
    obtain ⟨⟨hfree, hidle⟩, ⟨⟩⟩ := ite_none_right_eq_some.1 h
    exact ⟨_, .interrupt s turn.1 _ (fun l => hfree l (hfollows.locks l))
      (fun hrun => .inl (Pc.eq_of_idle (hidle hrun))) (.handler k (hfollows.vector _ k hvector))⟩
  · next instr _ hcode => exact execInstr_step hfollows hcode h
  · next p k _ _ hrun hhere =>
    obtain ⟨op, hop, h⟩ := bind_eq_some_iff.1 h
    rw [here, hrun] at hhere
    exact execOp_step (.proc p k op hrun hhere (hfollows.choices p _ k _ op hop)) h
  · next k back _ _ hhere =>
    split at h
    · next hend =>
      cases h
      exact ⟨_, .iret s turn.1 k back hhere (hfollows.iret k hend)⟩
    · obtain ⟨op, hop, h⟩ := bind_eq_some_iff.1 h
      exact execOp_step (.handler back k op hhere (hfollows.handles _ k op hop)) h
  · cases h

/-- A schedule leads to a state as a run does, and what is checked there holds. -/
theorem exists_run {schedule : List (C × ℕ)} {check : Machine C L D K → Prop} [DecidablePred check]
    (hfollows : client.Follows script) (h : (schedule.foldlM (exec script) s).any (fun t => check t) = true) :
    ∃ events t, Run (Step client) s events t ∧ check t := by
  obtain ⟨t, hexec, ht⟩ := (any_eq_true _ _).1 h
  obtain ⟨events, hrun⟩ := Run.of_foldlM (fun _ _ _ => exec_step hfollows) hexec
  exact ⟨events, t, hrun, of_decide_eq_true ht⟩

end Machine

/-- Processes that fork, wait for their children and exit, and that keep what `wait` returns. -/
def family : Client Empty Unit (Option (ℕ × ℤ)) where
  next := fun _ _ _ op => op = .fork (fun _ => none) ∨ op = .wait id ∨ ∃ status, op = .exit status
  entry := none

/-- The operations of the family by number. -/
def familyScript : Script Empty Unit (Option (ℕ × ℤ)) where
  entry := none
  choices := fun _ _ i =>
    match i with
    | 0 => some (.fork fun _ => none)
    | 1 => some (.wait id)
    | status + 2 => some (.exit status)
  locks := .wait :: table.map .proc

theorem family_follows : family.Follows familyScript where
  entry := rfl
  choices := by
    intro p d k i op h
    match i with
    | 0 => exact .inl (Option.some.inj h).symm
    | 1 => exact .inr (.inl (Option.some.inj h).symm)
    | status + 2 => exact .inr (.inr ⟨status, (Option.some.inj h).symm⟩)
  locks := by
    intro l
    cases l with
    | proc i => exact List.mem_cons_of_mem _ (List.mem_map_of_mem (List.mem_finRange i))
    | wait => exact List.mem_cons_self
    | client l => cases l
  vector := fun _ _ h => nomatch h
  handles := fun _ _ _ h => nomatch h
  iret := fun _ h => nomatch h

/-- Three CPUs. -/
inductive Hart
  | zero
  | one
  | two
  deriving DecidableEq

/-- The booted machine with three CPUs. -/
def familyBoot : Machine Hart Empty Unit (Option (ℕ × ℤ)) := .boot family () 4096 8192

/-- The slot of the child. -/
abbrev child : Fin NPROC := ⟨1, by decide⟩

/-- The first process runs on the first CPU and forks, and the second CPU runs the child. -/
def childRuns : List (Hart × ℕ) := .replicate 8 (.zero, 0) ++ .replicate 22 (.zero, 1) ++ .replicate 10 (.one, 9)

/-- The child exits with status 7, and its CPU goes on in the scheduler. -/
def childExits : List (Hart × ℕ) := childRuns ++ .replicate 265 (.one, 9)

/-- The parent waits for the child and has found its exit. -/
def childFound : List (Hart × ℕ) := childExits ++ .replicate 8 (.zero, 1)

/-- What is checked of the state to which a schedule leads holds of a reachable state. -/
theorem exists_family (schedule : List (Hart × ℕ))
    (check : Machine Hart Empty Unit (Option (ℕ × ℤ)) → Prop) [DecidablePred check]
    (h : (schedule.foldlM (Machine.exec familyScript) familyBoot).any (fun s => check s) = true) :
    ∃ events s, Machine.Initial family familyBoot ∧ Run (Machine.Step family) familyBoot events s ∧ check s := by
  obtain ⟨events, s, hrun, hs⟩ := Machine.exists_run family_follows h
  exact ⟨events, s, Machine.boot_initial _ _ (by decide) (by decide), hrun, hs⟩

end Xv6.Sched
