import Xv6.Sched.Exclusive

/-!
# What a step does

The rules of the machine in few kinds: an instruction of `proc.c` moves one thread and changes slots and
locks; `swtch` changes what a CPU executes; a process makes a step in the code of the client or calls a
function of `proc.c`; an interrupt makes a thread call one.
-/

namespace Xv6.Sched

open Function

variable {C L D K : Type} [DecidableEq C] {i : Fin NPROC}

/-- An assignment to a slot leaves the fields alone that it does not assign. -/
theorem field_update {α : Type*} (field : Proc → α) {proc : Fin NPROC → Proc} {p : Proc}
    (h : field p = field (proc i)) (j : Fin NPROC) : field (update proc i p j) = field (proc j) := by
  by_cases hj : j = i
  · rw [hj, update_self, h]
  · rw [update_of_ne hj]

namespace Instr

/-- The points at which the thread may go on, for instructions that stay in the thread. -/
def Next (proc : Fin NPROC → Proc) : Instr L K → Pc L K → Prop
  | .goto next, pc | .acquire _ next, pc | .release _ next, pc => pc = next
  | .write _ _ next, pc | .allocpid _ next, pc | .setCurrent _ next, pc => pc = next
  | .read i next, pc => pc = next (proc i)
  | .any next, pc => ∃ value, pc = next value
  | .context _ _, _ | .swtch _ _, _ | .sched _, _ => False

/-- The slots after the instruction. -/
def effect (nextpid : ℕ) (proc : Fin NPROC → Proc) : Instr L K → Fin NPROC → Proc
  | .write i f _ => update proc i (f proc)
  | .allocpid i _ => update proc i { proc i with pid := nextpid, state := .used }
  | _ => proc

/-- The locks after the instruction. -/
def locks [DecidableEq L] (c : C) (lock : Lock L → Option C) : Instr L K → Lock L → Option C
  | .acquire l _ => update lock l (some c)
  | .release l _ => update lock l none
  | _ => lock

/-- The lock is free to take, or held to give back. -/
def Ready (c : C) (lock : Lock L → Option C) : Instr L K → Prop
  | .acquire l _ => lock l = none
  | .release l _ => lock l = some c
  | _ => True

/-- The lock that an instruction takes. -/
def takes : Instr L K → Option (Lock L)
  | .acquire l _ => some l
  | _ => none

end Instr

namespace Machine

variable {s t : Machine C L D K} {c : C} {next : Pc L K}

/-- The machine after the scheduler of a CPU has resumed a process. -/
def resume (s : Machine C L D K) (c : C) (q : Fin NPROC) (next : Pc L K) : Machine C L D K :=
  { s with sched := update s.sched c next, running := update s.running c (some q) }

/-- The machine after a process has switched to the scheduler of its CPU. -/
def suspend (s : Machine C L D K) (c : C) (p : Fin NPROC) (next : Pc L K) : Machine C L D K :=
  { s with pc := update s.pc p next, running := update s.running c none }

section Switches

variable {d : C} {p q : Fin NPROC}

theorem resume_running_self : (s.resume c q next).running c = some q := update_self ..

theorem resume_running_ne (h : d ≠ c) : (s.resume c q next).running d = s.running d := update_of_ne h ..

theorem resume_here_self : (s.resume c q next).here c = s.pc q := by
  rw [here, resume_running_self]
  rfl

theorem resume_here_ne (h : d ≠ c) : (s.resume c q next).here d = s.here d := by
  rw [here, here, resume_running_ne h]
  cases s.running d with
  | some p => rfl
  | none => exact update_of_ne h ..

theorem suspend_running_self : (s.suspend c p next).running c = none := update_self ..

theorem suspend_running_ne (h : d ≠ c) : (s.suspend c p next).running d = s.running d := update_of_ne h ..

theorem suspend_here_self : (s.suspend c p next).here c = s.sched c := by
  rw [here, suspend_running_self]
  rfl

theorem suspend_here_ne (h : d ≠ c) (hd : s.running d ≠ some p) : (s.suspend c p next).here d = s.here d := by
  rw [here, here, suspend_running_ne h]
  cases hr : s.running d with
  | some p' => exact update_of_ne (fun heq => hd (hr.trans (congrArg some heq))) ..
  | none => rfl

/-- Only the scheduler moves when it resumes a process. -/
theorem resume_point (t : Thread C) : (s.resume c q next).point t = if t = .sched c then next else s.point t := by
  cases t with
  | sched d => simp only [point, Machine.resume, update_apply, Thread.sched.injEq]
  | proc p => rfl

/-- Only the process moves when it switches to the scheduler. -/
theorem suspend_point (t : Thread C) : (s.suspend c p next).point t = if t = .proc p then next else s.point t := by
  cases t with
  | sched d => rfl
  | proc p => simp only [point, Machine.suspend, update_apply, Thread.proc.injEq]

end Switches

/-- Only the new process moves when its context is set up. -/
theorem setContext_point (i : Fin NPROC) (entry : K) (t : Thread C) :
    (s.setContext i entry).point t = if t = .proc i then .forkret entry else s.point t := by
  cases t with
  | sched d => rfl
  | proc p => simp only [point, setContext, update_apply, Thread.proc.injEq]

/-- Setting the context of a slot under creation up moves no CPU. -/
theorem Exclusive.here_setContext (hs : Exclusive s) (hused : (s.proc i).state = .used)
    (entry : K) (d : C) : (s.setContext i entry).here d = s.here d := by
  rw [here_eq, here_eq, setContext_point]
  refine if_neg fun hd => hs.running_ne_of_used hused d ?_
  rw [← me_thread]
  exact congrArg Thread.me hd

/-- The kinds of steps. -/
inductive Acts [DecidableEq L] (client : Client L D K) (s t : Machine C L D K) : Event → Prop
  | code (c : C) (instr : Instr L K) (next : Pc L K) (hcode : Sched.code (s.running c) (s.here c) = some instr)
      (hready : instr.Ready c s.lock) (hnext : instr.Next s.proc next) (hgoes : Goes s c next t)
      (hproc : t.proc = instr.effect s.nextpid s.proc) (hlock : t.lock = instr.locks c s.lock)
      (hdata : t.data = s.data) : Acts client s t ((s.here c).event (s.running c))
  | context (c : C) (i : Fin NPROC) (next : Pc L K)
      (hcode : Sched.code (s.running c) (s.here c) = some (.context i next))
      (hgoes : Goes (s.setContext i client.entry) c next t)
      (hproc : t.proc = update s.proc i { s.proc i with pagefaultCount := 0, vr := ⟨0, 0, false⟩ })
      (hlock : t.lock = s.lock) (hdata : t.data = s.data) : Acts client s t .silent
  | resume (c : C) (q : Fin NPROC) (next : Pc L K)
      (hcode : Sched.code (s.running c) (s.here c) = some (.swtch q next)) (hidle : s.running c = none)
      (ht : t = s.resume c q next) : Acts client s t .silent
  | suspend (c : C) (p : Fin NPROC) (next : Pc L K)
      (hcode : Sched.code (s.running c) (s.here c) = some (.sched next)) (hrun : s.running c = some p)
      (honly : ∀ l, s.lock l = some c → l = .proc p) (ht : t = s.suspend c p next) : Acts client s t .silent
  | clientAcquire (c : C) (back : Option (Pc L K)) (l : L) (k k' : K)
      (hop : Executes client s c back k (.acquire l k')) (hfree : s.lock (.client l) = none)
      (hgoes : Goes s c (.frame back k') t) (hproc : t.proc = s.proc)
      (hlock : t.lock = update s.lock (.client l) (some c)) (hdata : t.data = s.data) :
      Acts client s t .silent
  | clientRelease (c : C) (back : Option (Pc L K)) (l : L) (k k' : K)
      (hop : Executes client s c back k (.release l k')) (hheld : s.lock (.client l) = some c)
      (hgoes : Goes s c (.frame back k') t) (hproc : t.proc = s.proc)
      (hlock : t.lock = update s.lock (.client l) none) (hdata : t.data = s.data) :
      Acts client s t .silent
  | access (c : C) (back : Option (Pc L K)) (d : D) (k k' : K) (hop : Executes client s c back k (.access d k'))
      (hgoes : Goes s c (.frame back k') t) (hproc : t.proc = s.proc) (hlock : t.lock = s.lock)
      (hdata : t.data = d) : Acts client s t .silent
  | wakeup (c : C) (back : Option (Pc L K)) (chan : ℕ) (k k' : K)
      (hop : Executes client s c back k (.wakeup chan k'))
      (hgoes : Goes s c (.wakeup chan table (.frame back k')) t) (hproc : t.proc = s.proc)
      (hlock : t.lock = s.lock) (hdata : t.data = s.data) : Acts client s t .silent
  | own (c : C) (p : Fin NPROC) (op : PrivateOp) (k k' : K) (hrun : s.running c = some p)
      (hpc : s.here c = .client k) (hnext : client.next p s.data k (.own op k'))
      (hgoes : Goes s c (.client k') t)
      (hproc : t.proc = update s.proc p (op.apply (s.proc p))) (hlock : t.lock = s.lock)
      (hdata : t.data = s.data) : Acts client s t .silent
  | call (c : C) (p : Fin NPROC) (op : Op L D K) (k : K) (next : Pc L K) (hrun : s.running c = some p)
      (hpc : s.here c = .client k) (hnext : client.next p s.data k op) (hcall : op.call = some next)
      (hgoes : Goes s c next t) (hproc : t.proc = s.proc) (hlock : t.lock = s.lock)
      (hdata : t.data = s.data) : Acts client s t (op.event p (s.proc p).pid)
  | interrupt (c : C) (next : Pc L K) (hfree : ∀ l, s.lock l ≠ some c)
      (hnext : next = .yieldAcquire (s.here c) ∨ client.Interrupts (s.here c) next)
      (hgoes : Goes s c next t) (hproc : t.proc = s.proc) (hlock : t.lock = s.lock)
      (hdata : t.data = s.data) : Acts client s t .silent
  | iret (c : C) (k : K) (back : Pc L K) (hpc : s.here c = .handler k back) (hend : client.iret k)
      (hgoes : Goes s c back t) (hproc : t.proc = s.proc) (hlock : t.lock = s.lock)
      (hdata : t.data = s.data) : Acts client s t .silent

/-- Only the assignment that frees a zombie shows something. -/
theorem event_silent {me : Option (Fin NPROC)} {pc : Pc L K} {instr : Instr L K}
    (hcode : Sched.code me pc = some instr) (hwrite : ∀ i f next, instr ≠ .write i f next) :
    pc.event me = .silent := by
  cases pc with
  | waitFree q pid status k =>
    cases me with
    | none => rfl
    | some p =>
      cases hcode
      exact absurd rfl (hwrite _ _ _)
  | _ => rfl

/-- Every step is of one of the kinds. -/
theorem Exclusive.acts [DecidableEq L] (hs : Exclusive s) {client : Client L D K} {e : Event} (h : Step client s e t) :
    Acts client s t e := by
  cases h with
  | goto c next hcode | setCurrent c p next hcode | allocpid c i next hcode | read c i next hcode =>
    rw [← event_silent hcode nofun]
    exact .code c _ _ hcode trivial rfl (.of_moveTo rfl rfl rfl) (moveTo_proc ..) (moveTo_lock ..) (moveTo_data ..)
  | acquire c l next hcode hlock | release c l next hcode hlock =>
    rw [← event_silent hcode nofun]
    exact .code c _ next hcode hlock rfl (.of_moveTo rfl rfl rfl) (moveTo_proc ..) (moveTo_lock ..) (moveTo_data ..)
  | write c i f next hcode =>
    exact .code c _ next hcode trivial rfl (.of_moveTo rfl rfl rfl) (moveTo_proc ..) (moveTo_lock ..) (moveTo_data ..)
  | any c value next hcode =>
    rw [← event_silent hcode nofun]
    exact .code c _ _ hcode trivial ⟨value, rfl⟩ (.of_moveTo rfl rfl rfl) (moveTo_proc ..) (moveTo_lock ..)
      (moveTo_data ..)
  | context c i next hcode =>
    exact .context c i next hcode (.of_moveTo rfl rfl rfl) (moveTo_proc ..) (moveTo_lock ..) (moveTo_data ..)
  | swtch c q next hcode =>
    have hidle : s.running c = none := (code_typed (hs.here_wf c) hcode).1
    refine .resume c q next hcode hidle ?_
    unfold moveTo
    rw [hidle]
    rfl
  | sched c p next hrun hcode hheld honly hstate =>
    refine .suspend c p next hcode hrun honly ?_
    unfold moveTo
    rw [hrun]
    rfl
  | clientAcquire c back l k k' hop hfree =>
    exact .clientAcquire c back l k k' hop hfree (.of_moveTo rfl rfl rfl) (moveTo_proc ..) (moveTo_lock ..)
      (moveTo_data ..)
  | clientRelease c back l k k' hop hheld =>
    exact .clientRelease c back l k k' hop hheld (.of_moveTo rfl rfl rfl) (moveTo_proc ..) (moveTo_lock ..)
      (moveTo_data ..)
  | access c back d k k' hop =>
    exact .access c back d k k' hop (.of_moveTo rfl rfl rfl) (moveTo_proc ..) (moveTo_lock ..) (moveTo_data ..)
  | wakeup c back chan k k' hop =>
    exact .wakeup c back chan k k' hop (.of_moveTo rfl rfl rfl) (moveTo_proc ..) (moveTo_lock ..) (moveTo_data ..)
  | own c p op k k' hrun hpc hnext =>
    exact .own c p op k k' hrun ((here_of_running hrun).trans hpc) hnext (.of_moveTo rfl rfl rfl)
      (moveTo_proc ..) (moveTo_lock ..) (moveTo_data ..)
  | call c p op k next hrun hpc hnext hcall =>
    exact .call c p op k next hrun ((here_of_running hrun).trans hpc) hnext hcall (.of_moveTo rfl rfl rfl)
      (moveTo_proc ..) (moveTo_lock ..) (moveTo_data ..)
  | timer c p hrun hfree =>
    rw [← here_of_running hrun]
    exact .interrupt c _ hfree (.inl rfl) (.of_moveTo rfl rfl rfl) (moveTo_proc ..) (moveTo_lock ..)
      (moveTo_data ..)
  | interrupt c next hfree hidle hnext =>
    exact .interrupt c next hfree (.inr hnext) (.of_moveTo rfl rfl rfl) (moveTo_proc ..) (moveTo_lock ..)
      (moveTo_data ..)
  | iret c k back hpc hend =>
    exact .iret c k back hpc hend (.of_moveTo rfl rfl rfl) (moveTo_proc ..) (moveTo_lock ..) (moveTo_data ..)

end Machine

end Xv6.Sched
