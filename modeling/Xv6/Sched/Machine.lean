import Xv6.Library.Runs
import Xv6.Sched.Code

/-!
# CPUs, processes and their interleaving

Every CPU executes its scheduler or the process that the scheduler has switched to. `swtch` saves the
point of one of the two and resumes the other at the point saved for it. A lock belongs to the CPU that
took it, so it passes from the process to the scheduler and back when the CPU switches between them.

The client says what a process does when it is not inside the code of `proc.c`: it may take its own
locks, access the data it shares, change fields that are private to the process, and call functions of
`proc.c`. While its CPU holds no lock a process or the scheduler can be interrupted: a handler takes locks
of the client, accesses the data and wakes up processes, and the timer makes the process yield.
-/

namespace Xv6.Sched

open Function Library Vm

/-- Changes of fields of `struct proc` that are private to the process, when its call succeeds. -/
inductive PrivateOp
  | trace (mask : ℤ)
  | setshm
  | mapRo (va : ℕ)
  | mapzero (size : ℤ)
  | sbrk (sz : ℕ)
  | pageFault
  | exec (pagetable : { root : ℕ // root ≠ 0 }) (sz : ℕ) (name : List UInt8)

/-- The slot after a private change. -/
def PrivateOp.apply : PrivateOp → Proc → Proc
  | .trace mask, p => { p with traceMask := mask }
  | .setshm, p => sysSetshm p
  | .mapRo va, p => { p with mapRoVa := PGROUNDDOWN va }
  | .mapzero size, p => (sysMapzero p size).2
  | .sbrk sz, p => { p with sz }
  | .pageFault, p => { p with pagefaultCount := p.pagefaultCount + 1 }
  | .exec pagetable sz name, p => { p with pagetable := pagetable.val, sz, name }

/-- Private changes leave the fields alone that belong to the code of `proc.c`. -/
theorem PrivateOp.apply_fields (op : PrivateOp) (p : Proc) :
    (op.apply p).state = p.state ∧ (op.apply p).parent = p.parent ∧ (op.apply p).pid = p.pid ∧
      (op.apply p).xstate = p.xstate ∧ (op.apply p).chan = p.chan ∧ (op.apply p).killed = p.killed := by
  cases op with
  | mapzero size =>
    have happly : (PrivateOp.mapzero size).apply p = (sysMapzero p size).2 := rfl
    rw [happly, sysMapzero]
    split <;> exact ⟨rfl, rfl, rfl, rfl, rfl, rfl⟩
  | _ => exact ⟨rfl, rfl, rfl, rfl, rfl, rfl⟩

/-- What a process does next in the code of the client. -/
inductive Op (L D K : Type)
  | acquire (l : L) (k : K)
  | release (l : L) (k : K)
  /-- Assign the shared data. -/
  | access (d : D) (k : K)
  | own (op : PrivateOp) (k : K)
  | sleep (chan : ℕ) (l : L) (k : K)
  | wakeup (chan : ℕ) (k : K)
  | killed (k : Bool → K)
  | setkilled (k : K)
  | kill (pid : ℤ) (k : Bool → K)
  | fork (k : Option ℕ → K)
  | exit (status : ℤ)
  | wait (k : Option (ℕ × ℤ) → K)

/-- A client: what a process may do next, given the shared data, and where a new process starts. -/
structure Client (L D K : Type) where
  next : Fin NPROC → D → K → Op L D K → Prop
  entry : K
  /-- Where an interrupt handler starts. -/
  vector : K → Prop := fun _ => False
  /-- What an interrupt handler may do next, on any CPU: it uses locks and data, and it wakes up. -/
  handles : D → K → Op L D K → Prop := fun _ _ _ => False
  /-- Where an interrupt handler returns. -/
  iret : K → Prop := fun _ => False

variable {C L D K : Type}

/-- The point to which an interrupt takes a thread. -/
inductive Client.Interrupts (client : Client L D K) (here : Pc L K) : Pc L K → Prop
  | wakeup (chan : ℕ) : client.Interrupts here (.wakeup chan table here)
  | handler (k : K) (hstart : client.vector k) : client.Interrupts here (.handler k here)

/-- The point at which a function that only processes call starts. -/
def Op.call : Op L D K → Option (Pc L K)
  | .sleep chan l k => some (.sleepAcquire chan (.client l) (.client k))
  | .killed k => some (.killedAcquire k)
  | .setkilled k => some (.setkilledAcquire k)
  | .kill pid k => some (.kill pid table k)
  | .fork k => some (.forkScan table k)
  | .exit status => some (.exitWait status)
  | .wait k => some (.waitAcquire k)
  | _ => none

/-- The state of the machine. `pc` is the point of a process, saved or current; `sched` is the point
of the scheduler of a CPU, saved while a process runs on the CPU. -/
structure Machine (C L D K : Type) where
  proc : Fin NPROC → Proc
  nextpid : ℕ
  lock : Lock L → Option C
  /-- `c->proc`. -/
  current : C → Option (Fin NPROC)
  /-- The process that a CPU executes, `none` for the scheduler. -/
  running : C → Option (Fin NPROC)
  sched : C → Pc L K
  pc : Fin NPROC → Pc L K
  data : D

/-- What a step shows: a call of `kexit` with its status, a call of `kwait`, a zombie that `kwait` frees for
its parent, and a call of `kkill`. -/
inductive Event
  | exit (i : Fin NPROC) (pid : ℕ) (status : ℤ)
  | wait (i : Fin NPROC)
  | reap (parent i : Fin NPROC) (pid : ℕ) (status : ℤ)
  | kill (pid : ℤ)
  | silent
  deriving DecidableEq

/-- What an assignment of process `me` shows. -/
def Pc.event (me : Option (Fin NPROC)) : Pc L K → Event
  | .waitFree q pid status _ =>
    match me with
    | some p => .reap p q pid status
    | none => .silent
  | _ => .silent

/-- What a call by process `i` shows. -/
def Op.event (i : Fin NPROC) (pid : ℕ) : Op L D K → Event
  | .kill victim _ => .kill victim
  | .exit status => .exit i pid status
  | .wait _ => .wait i
  | _ => .silent

namespace Machine

variable [DecidableEq C]

/-- The point of a CPU: that of its process, or that of its scheduler. -/
def here (s : Machine C L D K) (c : C) : Pc L K :=
  match s.running c with
  | some p => s.pc p
  | none => s.sched c

/-- The CPU moves to another point. -/
def moveTo (s : Machine C L D K) (c : C) (next : Pc L K) : Machine C L D K :=
  match s.running c with
  | some p => { s with pc := update s.pc p next }
  | none => { s with sched := update s.sched c next }

/-- Assign a slot of the process table. -/
def setProc (s : Machine C L D K) (i : Fin NPROC) (p : Proc) : Machine C L D K :=
  { s with proc := update s.proc i p }

/-- Assign the holder of a lock. -/
def setLock [DecidableEq L] (s : Machine C L D K) (l : Lock L) (c : Option C) : Machine C L D K :=
  { s with lock := update s.lock l c }

/-- Set the context of a process up, so that it starts at `forkret`. -/
def setContext (s : Machine C L D K) (i : Fin NPROC) (entry : K) : Machine C L D K :=
  { s with pc := update s.pc i (.forkret entry) }

/-- The operations that a CPU may execute in the code of the client: those of its process, or those of the
handler that has interrupted its thread at `back`. -/
inductive Executes (client : Client L D K) (s : Machine C L D K) (c : C) : Option (Pc L K) → K → Op L D K → Prop
  | proc (p : Fin NPROC) (k : K) (op : Op L D K) (hrun : s.running c = some p) (hpc : s.pc p = .client k)
      (hnext : client.next p s.data k op) : Executes client s c none k op
  | handler (back : Pc L K) (k : K) (op : Op L D K) (hpc : s.here c = .handler k back)
      (hnext : client.handles s.data k op) : Executes client s c (some back) k op

/-- The steps of the CPUs, in any order. A CPU that waits for a lock, or that would panic, takes no
step. -/
inductive Step [DecidableEq L] (client : Client L D K) : Machine C L D K → Event → Machine C L D K → Prop
  | goto (s : Machine C L D K) (c : C) (next : Pc L K)
      (hcode : code (s.running c) (s.here c) = some (.goto next)) :
      Step client s .silent (s.moveTo c next)
  | acquire (s : Machine C L D K) (c : C) (l : Lock L) (next : Pc L K)
      (hcode : code (s.running c) (s.here c) = some (.acquire l next)) (hfree : s.lock l = none) :
      Step client s .silent ((s.setLock l (some c)).moveTo c next)
  | release (s : Machine C L D K) (c : C) (l : Lock L) (next : Pc L K)
      (hcode : code (s.running c) (s.here c) = some (.release l next)) (hheld : s.lock l = some c) :
      Step client s .silent ((s.setLock l none).moveTo c next)
  | read (s : Machine C L D K) (c : C) (i : Fin NPROC) (next : Proc → Pc L K)
      (hcode : code (s.running c) (s.here c) = some (.read i next)) :
      Step client s .silent (s.moveTo c (next (s.proc i)))
  | write (s : Machine C L D K) (c : C) (i : Fin NPROC) (f : (Fin NPROC → Proc) → Proc) (next : Pc L K)
      (hcode : code (s.running c) (s.here c) = some (.write i f next)) :
      Step client s ((s.here c).event (s.running c))
        ((s.setProc i (f s.proc)).moveTo c next)
  | any (s : Machine C L D K) (c : C) (value : ℕ) (next : ℕ → Pc L K)
      (hcode : code (s.running c) (s.here c) = some (.any next)) :
      Step client s .silent (s.moveTo c (next value))
  | allocpid (s : Machine C L D K) (c : C) (i : Fin NPROC) (next : Pc L K)
      (hcode : code (s.running c) (s.here c) = some (.allocpid i next)) :
      Step client s .silent
        (({ s with nextpid := s.nextpid + 1 }.setProc i
          { s.proc i with pid := s.nextpid, state := .used }).moveTo c next)
  | context (s : Machine C L D K) (c : C) (i : Fin NPROC) (next : Pc L K)
      (hcode : code (s.running c) (s.here c) = some (.context i next)) :
      Step client s .silent
        (((s.setContext i client.entry).setProc i
          { s.proc i with pagefaultCount := 0, vr := ⟨0, 0, false⟩ }).moveTo c next)
  | setCurrent (s : Machine C L D K) (c : C) (p : Option (Fin NPROC)) (next : Pc L K)
      (hcode : code (s.running c) (s.here c) = some (.setCurrent p next)) :
      Step client s .silent ({ s with current := update s.current c p }.moveTo c next)
  | swtch (s : Machine C L D K) (c : C) (q : Fin NPROC) (next : Pc L K)
      (hcode : code (s.running c) (s.here c) = some (.swtch q next)) :
      Step client s .silent
        { s.moveTo c next with running := update s.running c (some q) }
  | sched (s : Machine C L D K) (c : C) (p : Fin NPROC) (next : Pc L K) (hrun : s.running c = some p)
      (hcode : code (s.running c) (s.here c) = some (.sched next))
      (hheld : s.lock (.proc p) = some c) (honly : ∀ l, s.lock l = some c → l = .proc p)
      (hstate : (s.proc p).state ≠ .running) :
      Step client s .silent
        { s.moveTo c next with running := update s.running c none }
  | clientAcquire (s : Machine C L D K) (c : C) (back : Option (Pc L K)) (l : L) (k k' : K)
      (hop : Executes client s c back k (.acquire l k')) (hfree : s.lock (.client l) = none) :
      Step client s .silent ((s.setLock (.client l) (some c)).moveTo c (.frame back k'))
  | clientRelease (s : Machine C L D K) (c : C) (back : Option (Pc L K)) (l : L) (k k' : K)
      (hop : Executes client s c back k (.release l k')) (hheld : s.lock (.client l) = some c) :
      Step client s .silent ((s.setLock (.client l) none).moveTo c (.frame back k'))
  | access (s : Machine C L D K) (c : C) (back : Option (Pc L K)) (d : D) (k k' : K)
      (hop : Executes client s c back k (.access d k')) :
      Step client s .silent ({ s with data := d }.moveTo c (.frame back k'))
  | wakeup (s : Machine C L D K) (c : C) (back : Option (Pc L K)) (chan : ℕ) (k k' : K)
      (hop : Executes client s c back k (.wakeup chan k')) :
      Step client s .silent (s.moveTo c (.wakeup chan table (.frame back k')))
  | own (s : Machine C L D K) (c : C) (p : Fin NPROC) (op : PrivateOp) (k k' : K)
      (hrun : s.running c = some p) (hpc : s.pc p = .client k)
      (hnext : client.next p s.data k (.own op k')) :
      Step client s .silent ((s.setProc p (op.apply (s.proc p))).moveTo c (.client k'))
  | call (s : Machine C L D K) (c : C) (p : Fin NPROC) (op : Op L D K) (k : K) (next : Pc L K)
      (hrun : s.running c = some p) (hpc : s.pc p = .client k) (hnext : client.next p s.data k op)
      (hcall : op.call = some next) :
      Step client s (op.event p (s.proc p).pid) (s.moveTo c next)
  | timer (s : Machine C L D K) (c : C) (p : Fin NPROC) (hrun : s.running c = some p)
      (hfree : ∀ l, s.lock l ≠ some c) :
      Step client s .silent (s.moveTo c (.yieldAcquire (s.pc p)))
  -- Between the slots the scheduler may run with interrupts on, as the process left them.
  | interrupt (s : Machine C L D K) (c : C) (next : Pc L K) (hfree : ∀ l, s.lock l ≠ some c)
      (hidle : s.running c = none → s.sched c = .schedIdle ∨ ∃ rest, s.sched c = .schedScan rest)
      (hnext : client.Interrupts (s.here c) next) : Step client s .silent (s.moveTo c next)
  | iret (s : Machine C L D K) (c : C) (k : K) (back : Pc L K) (hpc : s.here c = .handler k back)
      (hend : client.iret k) : Step client s .silent (s.moveTo c back)

/-- The machine after `userinit`: the first process is ready to run, all other slots are empty, no
lock is taken, and every CPU is about to enter its scheduler. -/
structure Initial (client : Client L D K) (s : Machine C L D K) : Prop where
  first : ∃ trapframe pagetable, trapframe ≠ 0 ∧ pagetable ≠ 0 ∧
    s.proc initproc = { Proc.empty with pid := 1, state := .runnable, trapframe, pagetable }
  others : ∀ i, i ≠ initproc → s.proc i = Proc.empty
  nextpid : s.nextpid = 2
  lock : ∀ l, s.lock l = none
  current : ∀ c, s.current c = none
  running : ∀ c, s.running c = none
  sched : ∀ c, s.sched c = .schedIdle
  pc : ∀ i, s.pc i = if i = initproc then .forkret client.entry else .dead

/-- The two kinds of threads that a CPU executes. -/
inductive Thread (C : Type)
  | sched (c : C)
  | proc (p : Fin NPROC)
  deriving DecidableEq

/-- The process of a thread, `myproc()`. -/
def Thread.me : Thread C → Option (Fin NPROC)
  | .sched _ => none
  | .proc p => some p

/-- The point of a thread. -/
def point (s : Machine C L D K) : Thread C → Pc L K
  | .sched c => s.sched c
  | .proc p => s.pc p

/-- The thread that a CPU executes. -/
def thread (s : Machine C L D K) (c : C) : Thread C :=
  match s.running c with
  | some p => .proc p
  | none => .sched c

variable {p : Fin NPROC}

section Fields

variable (s : Machine C L D K) (c : C) (next : Pc L K)

omit [DecidableEq C] in
/-- The point of a CPU is that of its thread. -/
theorem here_eq : s.here c = s.point (s.thread c) := by
  unfold here thread
  cases s.running c <;> rfl

omit [DecidableEq C] in
/-- A CPU executes a process exactly if its thread is that of the process. -/
theorem me_thread : (s.thread c).me = s.running c := by
  unfold thread
  cases s.running c <;> rfl

omit [DecidableEq C] in
/-- The thread of a CPU that executes a process. -/
theorem thread_of_running (h : s.running c = some p) : s.thread c = .proc p := by
  unfold thread
  rw [h]

omit [DecidableEq C] in
/-- The thread of a CPU that executes its scheduler. -/
theorem thread_of_idle (h : s.running c = none) : s.thread c = .sched c := by
  unfold thread
  rw [h]

omit [DecidableEq C] in
/-- Who executes an operation of the client is in its code. -/
theorem Executes.here {client : Client L D K} {s : Machine C L D K} {c : C} {back : Option (Pc L K)} {k : K}
    {op : Op L D K} (h : Executes client s c back k op) : s.here c = .frame back k := by
  cases h with
  | proc p k op hrun hpc hnext =>
    rw [here_eq, s.thread_of_running c hrun]
    exact hpc
  | handler back k op hpc hnext => exact hpc

omit [DecidableEq C] in
/-- CPUs execute different threads if no two of them execute one process. -/
theorem thread_injective {s : Machine C L D K}
    (h : ∀ c d p, s.running c = some p → s.running d = some p → c = d) : Function.Injective s.thread := by
  intro c d hcd
  have hme : s.running c = s.running d := by rw [← me_thread, ← me_thread, hcd]
  cases hc : s.running c with
  | some p => exact h c d p hc (hme ▸ hc)
  | none =>
    rw [s.thread_of_idle c hc, s.thread_of_idle d (hme ▸ hc)] at hcd
    cases hcd
    rfl

omit [DecidableEq C] in
/-- Every CPU is in its scheduler after `userinit`. -/
theorem Initial.here {client : Client L D K} {s : Machine C L D K} (h : Initial client s) (c : C) :
    s.here c = .schedIdle := by
  rw [here_eq, s.thread_of_idle c (h.running c)]
  exact h.sched c

@[simp] theorem moveTo_proc : (s.moveTo c next).proc = s.proc := by
  unfold moveTo
  split <;> rfl

@[simp] theorem moveTo_lock : (s.moveTo c next).lock = s.lock := by
  unfold moveTo
  split <;> rfl

@[simp] theorem moveTo_current : (s.moveTo c next).current = s.current := by
  unfold moveTo
  split <;> rfl

@[simp] theorem moveTo_running : (s.moveTo c next).running = s.running := by
  unfold moveTo
  split <;> rfl

@[simp] theorem moveTo_data : (s.moveTo c next).data = s.data := by
  unfold moveTo
  split <;> rfl

/-- Only the thread of the CPU moves. -/
theorem moveTo_point (t : Thread C) : (s.moveTo c next).point t = if t = s.thread c then next else s.point t := by
  unfold moveTo thread
  cases s.running c with
  | some p =>
    cases t with
    | sched d => rfl
    | proc q => simp only [point, update_apply, Thread.proc.injEq]
  | none =>
    cases t with
    | sched d => simp only [point, update_apply, Thread.sched.injEq]
    | proc q => rfl

omit [DecidableEq C] in
theorem setProc_self (i : Fin NPROC) (p : Proc) : (s.setProc i p).proc i = p := update_self ..

omit [DecidableEq C] in
theorem setProc_ne {i j : Fin NPROC} (p : Proc) (h : j ≠ i) : (s.setProc i p).proc j = s.proc j := update_of_ne h ..

end Fields

/-- The thread of a CPU has moved to another point, and no CPU has switched. -/
structure Goes (s : Machine C L D K) (c : C) (next : Pc L K) (s' : Machine C L D K) : Prop where
  running : s'.running = s.running
  point : ∀ t, s'.point t = if t = s.thread c then next else s.point t

namespace Goes

variable {s s' s₁ : Machine C L D K} {c : C} {next : Pc L K}

/-- The machine moves one thread after other fields were changed. -/
theorem of_moveTo (hrunning : s₁.running = s.running) (hpc : s₁.pc = s.pc) (hsched : s₁.sched = s.sched) :
    Goes s c next (s₁.moveTo c next) where
  running := by rw [moveTo_running, hrunning]
  point := by
    intro t
    have hpoint : s₁.point t = s.point t := by
      cases t with
      | sched d => exact congrFun hsched d
      | proc p => exact congrFun hpc p
    have hthread : s₁.thread c = s.thread c := by
      unfold thread
      rw [hrunning]
    rw [moveTo_point, hpoint, hthread]

section

variable (h : Goes s c next s')

include h

/-- The threads of the CPUs are the same. -/
theorem thread_eq : s'.thread = s.thread := by
  funext d
  unfold thread
  rw [h.running]

/-- The CPU is at the new point. -/
theorem here_self : s'.here c = next := by
  rw [here_eq, h.thread_eq, h.point, if_pos rfl]

/-- Every other CPU is where it was. -/
theorem here_ne (hs : Function.Injective s.thread) {d : C} (hd : d ≠ c) : s'.here d = s.here d := by
  rw [here_eq, here_eq, h.thread_eq, h.point, if_neg fun heq => hd (hs heq)]

/-- A process that the CPU does not execute is where it was. -/
theorem pc_of_ne (hp : s.running c ≠ some p) : s'.pc p = s.pc p := by
  have hpoint := h.point (.proc p)
  rw [if_neg] at hpoint
  · exact hpoint
  · intro heq
    apply hp
    rw [← me_thread, ← heq]
    rfl

/-- A scheduler that a CPU does not execute is where it was. -/
theorem sched_of_running {d : C} (hd : s.running d = some p) : s'.sched d = s.sched d := by
  have hpoint := h.point (.sched d)
  rw [if_neg] at hpoint
  · exact hpoint
  · intro heq
    have hme := s.me_thread c
    rw [← heq] at hme
    have hc : s.thread c = .sched c := s.thread_of_idle c hme.symm
    rw [← heq] at hc
    cases hc
    rw [hd] at hme
    cases hme

end

end Goes

/-- The states that some interleaving reaches. -/
def Reachable [DecidableEq L] (client : Client L D K) (s : Machine C L D K) : Prop :=
  ∃ init events, Initial client init ∧ Run (Step client) init events s

end Machine

end Xv6.Sched
