import Xv6.Proc.Syscalls

/-!
# The code of `proc.c` as instructions

The functions of `proc.c` that lock slots of the process table, switch between processes, put
processes to sleep and wake them. The code of a function is cut into instructions: an instruction
takes or gives back one lock, or reads or writes one slot between two lock operations. A program point
names the instruction that a thread executes next, together with the local variables of the function
and the point to which the function returns.

The rest of the kernel and the user programs are clients of this code. The points of a client are of
type `K` and its spinlocks of type `L`.
-/

namespace Xv6.Sched

open Vm

/-- Spinlocks: one for each slot of the process table, `wait_lock`, and those of the client. -/
inductive Lock (L : Type)
  | proc (i : Fin NPROC)
  | wait
  | client (l : L)
  deriving DecidableEq

/-- The channel of a process, its address. -/
def procChan (i : Fin NPROC) : ℕ := i.val + 1

/-- The channel of an optional process; a null pointer is no channel. -/
def parentChan : Option (Fin NPROC) → ℕ
  | some i => procChan i
  | none => 0

/-- The order in which loops visit the process table. -/
def table : List (Fin NPROC) := List.finRange NPROC

/-- The first process. -/
def initproc : Fin NPROC := ⟨0, by decide⟩

/-- The slot that `freeproc` leaves. -/
def freed (p : Proc) : Proc :=
  { Proc.empty with mapRoVa := if p.pagetable ≠ 0 then 0 else p.mapRoVa }

/-- The slot that `wakeup` leaves. -/
def awakened (chan : ℕ) (p : Proc) : Proc :=
  if p.state = .sleeping ∧ p.chan = chan then { p with state := .runnable } else p

/-- The slot that `kkill` leaves. -/
def slain (p : Proc) : Proc :=
  { p with killed := true, state := if p.state = .sleeping then .runnable else p.state }

/-- Who is not woken up is as before. -/
theorem awakened_state (chan : ℕ) (p : Proc) : (awakened chan p).state = p.state ∨
    p.state = .sleeping ∧ (awakened chan p).state = .runnable := by
  unfold awakened
  split
  · rename_i hsleep
    exact .inr ⟨hsleep.1, rfl⟩
  · exact .inl rfl

theorem awakened_fields (chan : ℕ) (p : Proc) : (awakened chan p).parent = p.parent ∧
    (awakened chan p).pid = p.pid ∧ (awakened chan p).xstate = p.xstate ∧
      (awakened chan p).pagetable = p.pagetable := by
  unfold awakened
  split <;> exact ⟨rfl, rfl, rfl, rfl⟩

/-- Who does not sleep keeps its state. -/
theorem slain_state (p : Proc) : (slain p).state = p.state ∨
    p.state = .sleeping ∧ (slain p).state = .runnable := by
  by_cases hsleep : p.state = .sleeping
  · exact .inr ⟨hsleep, if_pos hsleep⟩
  · exact .inl (if_neg hsleep)

/-- Program points. -/
inductive Pc (L K : Type)
  /-- Code of the client. -/
  | client (k : K)
  /-- An interrupt handler of the client, which has interrupted the thread at another point. -/
  | handler (k : K) (back : Pc L K)
  /-- `forkret`, where a new process starts. -/
  | forkret (k : K)
  /-- `yield`, from `acquire(&p->lock)` on. -/
  | yieldAcquire (k : Pc L K)
  | yieldState (k : Pc L K)
  | yieldSched (k : Pc L K)
  | yieldRelease (k : Pc L K)
  /-- `sleep`, from `acquire(&p->lock)` on. -/
  | sleepAcquire (chan : ℕ) (lk : Lock L) (k : Pc L K)
  | sleepRelease (chan : ℕ) (lk : Lock L) (k : Pc L K)
  | sleepState (chan : ℕ) (lk : Lock L) (k : Pc L K)
  | sleepSched (lk : Lock L) (k : Pc L K)
  | sleepTidy (lk : Lock L) (k : Pc L K)
  | sleepUnlock (lk : Lock L) (k : Pc L K)
  | sleepReacquire (lk : Lock L) (k : Pc L K)
  /-- `wakeup`, with the slots that its loop has not visited. -/
  | wakeup (chan : ℕ) (rest : List (Fin NPROC)) (k : Pc L K)
  | wakeupTest (chan : ℕ) (q : Fin NPROC) (rest : List (Fin NPROC)) (k : Pc L K)
  | wakeupRelease (chan : ℕ) (q : Fin NPROC) (rest : List (Fin NPROC)) (k : Pc L K)
  /-- `killed` of the process itself. -/
  | killedAcquire (k : Bool → K)
  | killedRead (k : Bool → K)
  | killedRelease (killed : Bool) (k : Bool → K)
  /-- `setkilled` of the process itself. -/
  | setkilledAcquire (k : K)
  | setkilledState (k : K)
  | setkilledRelease (k : K)
  /-- `kkill`, with the slots that its loop has not visited. -/
  | kill (pid : ℤ) (rest : List (Fin NPROC)) (k : Bool → K)
  | killTest (pid : ℤ) (q : Fin NPROC) (rest : List (Fin NPROC)) (k : Bool → K)
  | killState (q : Fin NPROC) (k : Bool → K)
  | killRelease (q : Fin NPROC) (k : Bool → K)
  | killSkip (pid : ℤ) (q : Fin NPROC) (rest : List (Fin NPROC)) (k : Bool → K)
  /-- `kfork`: the loop of `allocproc`. -/
  | forkScan (rest : List (Fin NPROC)) (k : Option ℕ → K)
  | forkTest (q : Fin NPROC) (rest : List (Fin NPROC)) (k : Option ℕ → K)
  | forkSkip (q : Fin NPROC) (rest : List (Fin NPROC)) (k : Option ℕ → K)
  /-- `kfork`: the rest of `allocproc`. -/
  | forkPid (q : Fin NPROC) (k : Option ℕ → K)
  | forkTrapframe (q : Fin NPROC) (k : Option ℕ → K)
  | forkSetTrapframe (q : Fin NPROC) (trapframe : ℕ) (k : Option ℕ → K)
  | forkPagetable (q : Fin NPROC) (k : Option ℕ → K)
  | forkSetPagetable (q : Fin NPROC) (pagetable : ℕ) (k : Option ℕ → K)
  | forkContext (q : Fin NPROC) (k : Option ℕ → K)
  /-- `kfork` from `uvmcopy` on. -/
  | forkCopy (q : Fin NPROC) (k : Option ℕ → K)
  | forkInherit (q : Fin NPROC) (k : Option ℕ → K)
  | forkPidRead (q : Fin NPROC) (k : Option ℕ → K)
  | forkUnlock (q : Fin NPROC) (pid : ℕ) (k : Option ℕ → K)
  | forkWait (q : Fin NPROC) (pid : ℕ) (k : Option ℕ → K)
  | forkParent (q : Fin NPROC) (pid : ℕ) (k : Option ℕ → K)
  | forkWaitRelease (q : Fin NPROC) (pid : ℕ) (k : Option ℕ → K)
  | forkRelock (q : Fin NPROC) (pid : ℕ) (k : Option ℕ → K)
  | forkShare (q : Fin NPROC) (pid : ℕ) (k : Option ℕ → K)
  | forkShareMap (q : Fin NPROC) (pid : ℕ) (k : Option ℕ → K)
  | forkShareChild (q : Fin NPROC) (pid : ℕ) (k : Option ℕ → K)
  | forkShareParent (q : Fin NPROC) (pid : ℕ) (k : Option ℕ → K)
  | forkShareFlag (q : Fin NPROC) (pid : ℕ) (k : Option ℕ → K)
  | forkState (q : Fin NPROC) (pid : ℕ) (k : Option ℕ → K)
  | forkRelease (q : Fin NPROC) (pid : ℕ) (k : Option ℕ → K)
  /-- The failing paths of `allocproc` and `kfork`. -/
  | forkFree (q : Fin NPROC) (k : Option ℕ → K)
  | forkAbort (q : Fin NPROC) (k : Option ℕ → K)
  /-- `kexit`, from `acquire(&wait_lock)` on, with the loop of `reparent`. -/
  | exitWait (status : ℤ)
  | reparent (rest : List (Fin NPROC)) (status : ℤ)
  | reparentAssign (q : Fin NPROC) (rest : List (Fin NPROC)) (status : ℤ)
  | exitWakeup (status : ℤ)
  | exitAcquire (status : ℤ)
  | exitState (status : ℤ)
  | exitRelease
  | exitSched
  | dead
  /-- `kwait`, with the slots that its loop has not visited. -/
  | waitAcquire (k : Option (ℕ × ℤ) → K)
  | waitScan (rest : List (Fin NPROC)) (havekids : Bool) (k : Option (ℕ × ℤ) → K)
  | waitLock (q : Fin NPROC) (rest : List (Fin NPROC)) (k : Option (ℕ × ℤ) → K)
  | waitTest (q : Fin NPROC) (rest : List (Fin NPROC)) (k : Option (ℕ × ℤ) → K)
  | waitSkip (q : Fin NPROC) (rest : List (Fin NPROC)) (k : Option (ℕ × ℤ) → K)
  | waitPid (q : Fin NPROC) (k : Option (ℕ × ℤ) → K)
  | waitCopyout (q : Fin NPROC) (pid : ℕ) (status : ℤ) (k : Option (ℕ × ℤ) → K)
  | waitFree (q : Fin NPROC) (pid : ℕ) (status : ℤ) (k : Option (ℕ × ℤ) → K)
  | waitUnlock (q : Fin NPROC) (result : Option (ℕ × ℤ)) (k : Option (ℕ × ℤ) → K)
  | waitReturn (result : Option (ℕ × ℤ)) (k : Option (ℕ × ℤ) → K)
  | waitKilled (k : Option (ℕ × ℤ) → K)
  | waitKilledRead (k : Option (ℕ × ℤ) → K)
  | waitKilledRelease (killed : Bool) (k : Option (ℕ × ℤ) → K)
  /-- `scheduler`, with the slots that its loop has not visited. -/
  | schedIdle
  | schedScan (rest : List (Fin NPROC))
  | schedTest (q : Fin NPROC) (rest : List (Fin NPROC))
  | schedState (q : Fin NPROC) (rest : List (Fin NPROC))
  | schedCurrent (q : Fin NPROC) (rest : List (Fin NPROC))
  | schedSwtch (q : Fin NPROC) (rest : List (Fin NPROC))
  | schedBack (q : Fin NPROC) (rest : List (Fin NPROC))
  | schedRelease (q : Fin NPROC) (rest : List (Fin NPROC))

/-- A thread in the code of the client: a process in its own code, or a handler that has interrupted it. -/
def Pc.frame {L K : Type} : Option (Pc L K) → K → Pc L K
  | none, k => .client k
  | some back, k => .handler k back

/-- Instructions, with the point at which the thread goes on. -/
inductive Instr (L K : Type)
  | goto (next : Pc L K)
  | acquire (l : Lock L) (next : Pc L K)
  | release (l : Lock L) (next : Pc L K)
  /-- Read fields of a slot. -/
  | read (i : Fin NPROC) (next : Proc → Pc L K)
  /-- Assign fields of a slot, from the fields of slots. -/
  | write (i : Fin NPROC) (f : (Fin NPROC → Proc) → Proc) (next : Pc L K)
  /-- A value that the memory below determines, zero for a failure. -/
  | any (next : ℕ → Pc L K)
  /-- `p->pid = allocpid()` and `p->state = USED`. -/
  | allocpid (i : Fin NPROC) (next : Pc L K)
  /-- Set the context of a new process up, and clear its fault count and region. -/
  | context (i : Fin NPROC) (next : Pc L K)
  /-- `c->proc = p`. -/
  | setCurrent (p : Option (Fin NPROC)) (next : Pc L K)
  /-- `swtch` from the scheduler to a process. -/
  | swtch (q : Fin NPROC) (next : Pc L K)
  /-- `sched`: `swtch` from the process to the scheduler. -/
  | sched (next : Pc L K)

variable {L K : Type}

/-- The address at which a parent shares its page with a child. -/
def sharedVa (parent : Proc) : ℕ := PGROUNDUP parent.sz

/-- The part of the code that the scheduler and the processes execute, with `myproc()` for `me`. -/
def commonCode (me : Option (Fin NPROC)) : Pc L K → Option (Instr L K)
  | .wakeup _ [] k => some (.goto k)
  | .wakeup chan (q :: rest) k =>
    some (if me = some q then .goto (.wakeup chan rest k)
      else .acquire (.proc q) (.wakeupTest chan q rest k))
  | .wakeupTest chan q rest k =>
    some (.write q (fun proc => awakened chan (proc q)) (.wakeupRelease chan q rest k))
  | .wakeupRelease chan q rest k => some (.release (.proc q) (.wakeup chan rest k))
  | _ => none

/-- The code of the scheduler. -/
def schedCode : Pc L K → Option (Instr L K)
  | .schedIdle => some (.goto (.schedScan table))
  | .schedScan [] => some (.goto .schedIdle)
  | .schedScan (q :: rest) => some (.acquire (.proc q) (.schedTest q rest))
  | .schedTest q rest => some (.read q fun p =>
      if p.state = .runnable then .schedState q rest else .schedRelease q rest)
  | .schedState q rest => some (.write q (fun proc => { proc q with state := .running })
      (.schedCurrent q rest))
  | .schedCurrent q rest => some (.setCurrent (some q) (.schedSwtch q rest))
  | .schedSwtch q rest => some (.swtch q (.schedBack q rest))
  | .schedBack q rest => some (.setCurrent none (.schedRelease q rest))
  | .schedRelease q rest => some (.release (.proc q) (.schedScan rest))
  | pc => commonCode none pc

/-- The code that process `me` executes. -/
def procCode (me : Fin NPROC) : Pc L K → Option (Instr L K)
  | .forkret k => some (.release (.proc me) (.client k))
  -- yield
  | .yieldAcquire k => some (.acquire (.proc me) (.yieldState k))
  | .yieldState k => some (.write me (fun proc => { proc me with state := .runnable }) (.yieldSched k))
  | .yieldSched k => some (.sched (.yieldRelease k))
  | .yieldRelease k => some (.release (.proc me) k)
  -- sleep
  | .sleepAcquire chan lk k => some (.acquire (.proc me) (.sleepRelease chan lk k))
  | .sleepRelease chan lk k => some (.release lk (.sleepState chan lk k))
  | .sleepState chan lk k =>
    some (.write me (fun proc => { proc me with chan, state := .sleeping }) (.sleepSched lk k))
  | .sleepSched lk k => some (.sched (.sleepTidy lk k))
  | .sleepTidy lk k => some (.write me (fun proc => { proc me with chan := 0 }) (.sleepUnlock lk k))
  | .sleepUnlock lk k => some (.release (.proc me) (.sleepReacquire lk k))
  | .sleepReacquire lk k => some (.acquire lk k)
  -- killed and setkilled
  | .killedAcquire k => some (.acquire (.proc me) (.killedRead k))
  | .killedRead k => some (.read me fun p => .killedRelease p.killed k)
  | .killedRelease killed k => some (.release (.proc me) (.client (k killed)))
  | .setkilledAcquire k => some (.acquire (.proc me) (.setkilledState k))
  | .setkilledState k =>
    some (.write me (fun proc => { proc me with killed := true }) (.setkilledRelease k))
  | .setkilledRelease k => some (.release (.proc me) (.client k))
  -- kkill
  | .kill _ [] k => some (.goto (.client (k false)))
  | .kill pid (q :: rest) k => some (.acquire (.proc q) (.killTest pid q rest k))
  | .killTest pid q rest k => some (.read q fun p =>
      if (p.pid : ℤ) = pid then .killState q k else .killSkip pid q rest k)
  | .killState q k => some (.write q (fun proc => slain (proc q)) (.killRelease q k))
  | .killRelease q k => some (.release (.proc q) (.client (k true)))
  | .killSkip pid q rest k => some (.release (.proc q) (.kill pid rest k))
  -- allocproc
  | .forkScan [] k => some (.goto (.client (k none)))
  | .forkScan (q :: rest) k => some (.acquire (.proc q) (.forkTest q rest k))
  | .forkTest q rest k => some (.read q fun p =>
      if p.state = .unused then .forkPid q k else .forkSkip q rest k)
  | .forkSkip q rest k => some (.release (.proc q) (.forkScan rest k))
  | .forkPid q k => some (.allocpid q (.forkTrapframe q k))
  | .forkTrapframe q k => some (.any fun trapframe => .forkSetTrapframe q trapframe k)
  | .forkSetTrapframe q trapframe k => some (.write q (fun proc => { proc q with trapframe })
      (if trapframe = 0 then .forkFree q k else .forkPagetable q k))
  | .forkPagetable q k => some (.any fun pagetable => .forkSetPagetable q pagetable k)
  | .forkSetPagetable q pagetable k => some (.write q (fun proc => { proc q with pagetable })
      (if pagetable = 0 then .forkFree q k else .forkContext q k))
  | .forkContext q k => some (.context q (.forkCopy q k))
  -- kfork
  | .forkCopy q k => some (.any fun copied => if copied = 0 then .forkFree q k else .forkInherit q k)
  | .forkInherit q k => some (.write q (fun proc =>
      { proc q with
        sz := (proc me).sz, name := (proc me).name, traceMask := (proc me).traceMask })
      (.forkPidRead q k))
  | .forkPidRead q k => some (.read q fun p => .forkUnlock q p.pid k)
  | .forkUnlock q pid k => some (.release (.proc q) (.forkWait q pid k))
  | .forkWait q pid k => some (.acquire .wait (.forkParent q pid k))
  | .forkParent q pid k =>
    some (.write q (fun proc => { proc q with parent := some me }) (.forkWaitRelease q pid k))
  | .forkWaitRelease q pid k => some (.release .wait (.forkRelock q pid k))
  | .forkRelock q pid k => some (.acquire (.proc q) (.forkShare q pid k))
  | .forkShare q pid k => some (.read me fun p =>
      if p.usarMemoriaCompartida then .forkShareMap q pid k else .forkState q pid k)
  | .forkShareMap q pid k => some (.any fun mapped =>
      if mapped = 0 then .forkShareFlag q pid k else .forkShareChild q pid k)
  | .forkShareChild q pid k => some (.write q (fun proc =>
      { proc q with
        sz := sharedVa (proc me) + PGSIZE, shmVa := sharedVa (proc me), usarMemoriaCompartida := true })
      (.forkShareParent q pid k))
  | .forkShareParent q pid k => some (.write me (fun proc =>
      { proc me with
        sz := sharedVa (proc me) + PGSIZE, shmVa := sharedVa (proc me), usarMemoriaCompartida := true })
      (.forkShareFlag q pid k))
  | .forkShareFlag q pid k =>
    some (.write q (fun proc => { proc q with usarMemoriaCompartida := true }) (.forkState q pid k))
  | .forkState q pid k =>
    some (.write q (fun proc => { proc q with state := .runnable }) (.forkRelease q pid k))
  | .forkRelease q pid k => some (.release (.proc q) (.client (k (some pid))))
  | .forkFree q k => some (.write q (fun proc => freed (proc q)) (.forkAbort q k))
  | .forkAbort q k => some (.release (.proc q) (.client (k none)))
  -- kexit
  | .exitWait status => if me = initproc then none else some (.acquire .wait (.reparent table status))
  | .reparent [] status => some (.goto (.exitWakeup status))
  | .reparent (q :: rest) status => some (.read q fun p =>
      if p.parent = some me then .reparentAssign q rest status else .reparent rest status)
  | .reparentAssign q rest status =>
    some (.write q (fun proc => { proc q with parent := some initproc })
      (.wakeup (procChan initproc) table (.reparent rest status)))
  | .exitWakeup status => some (.read me fun p =>
      .wakeup (parentChan p.parent) table (.exitAcquire status))
  | .exitAcquire status => some (.acquire (.proc me) (.exitState status))
  | .exitState status =>
    some (.write me (fun proc => { proc me with xstate := status, state := .zombie }) .exitRelease)
  | .exitRelease => some (.release .wait .exitSched)
  | .exitSched => some (.sched .dead)
  -- kwait
  | .waitAcquire k => some (.acquire .wait (.waitScan table false k))
  | .waitScan [] havekids k =>
    some (.goto (if havekids then .waitKilled k else .waitReturn none k))
  | .waitScan (q :: rest) havekids k => some (.read q fun p =>
      if p.parent = some me then .waitLock q rest k else .waitScan rest havekids k)
  | .waitLock q rest k => some (.acquire (.proc q) (.waitTest q rest k))
  | .waitTest q rest k => some (.read q fun p =>
      if p.state = .zombie then .waitPid q k else .waitSkip q rest k)
  | .waitSkip q rest k => some (.release (.proc q) (.waitScan rest true k))
  | .waitPid q k => some (.read q fun p => .waitCopyout q p.pid p.xstate k)
  | .waitCopyout q pid status k => some (.any fun copied =>
      if copied = 0 then .waitUnlock q none k else .waitFree q pid status k)
  | .waitFree q pid status k =>
    some (.write q (fun proc => freed (proc q)) (.waitUnlock q (some (pid, status)) k))
  | .waitUnlock q result k => some (.release (.proc q) (.waitReturn result k))
  | .waitReturn result k => some (.release .wait (.client (k result)))
  | .waitKilled k => some (.acquire (.proc me) (.waitKilledRead k))
  | .waitKilledRead k => some (.read me fun p => .waitKilledRelease p.killed k)
  | .waitKilledRelease killed k => some (.release (.proc me)
      (if killed then .waitReturn none k
        else .sleepAcquire (procChan me) .wait (.waitScan table false k)))
  | pc => commonCode (some me) pc

/-- `kexit` takes `wait_lock`, unless the first process calls it. -/
theorem procCode_exitWait {me : Fin NPROC} {status : ℤ} {instr : Instr L K}
    (h : procCode me (.exitWait status) = some instr) :
    me ≠ initproc ∧ instr = .acquire .wait (.reparent table status) := by
  have h : (if me = initproc then none else some (.acquire .wait (.reparent table status))) = some instr := h
  split at h
  · cases h
  · rename_i hinit
    exact ⟨hinit, (Option.some.inj h).symm⟩

/-- The code that a CPU executes: that of its process, or that of the scheduler. -/
def code : Option (Fin NPROC) → Pc L K → Option (Instr L K)
  | some me => procCode me
  | none => schedCode

end Xv6.Sched
