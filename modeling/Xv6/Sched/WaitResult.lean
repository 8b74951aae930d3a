import Xv6.Sched.Exclusion

/-!
# What `kwait` returns

The events of a run say what the last call of `kwait` by a process has reaped. A process inside `kwait`
carries the result that the call is going to return, and it is what the call has reaped so far; so what the
caller gets is the pid and the status of the zombie that this call has freed, and nothing if it has freed none.
-/

namespace Xv6.Sched

open Function Library

variable {C L D K : Type} [DecidableEq C] {me : Option (Fin NPROC)} {pc next : Pc L K}
  {instr : Instr L K} {p : Fin NPROC}

/-- What the last call of `kwait` by process `p` has reaped, after another event. -/
def reapStep (p : Fin NPROC) (last : Option (ℕ × ℤ)) : Event → Option (ℕ × ℤ)
  | .wait q => if q = p then none else last
  | .reap q _ pid status => if q = p then some (pid, status) else last
  | _ => last

/-- The pid and the status that the last call of `kwait` by process `p` has reaped. -/
def lastReap (p : Fin NPROC) (events : List Event) : Option (ℕ × ℤ) := events.foldl (reapStep p) none

/-- The event leaves alone what the last `kwait` of process `p` has reaped. -/
def Event.Spares (p : Fin NPROC) (e : Event) : Prop := ∀ last, reapStep p last e = last

namespace Pc

/-- The `kwait` in which the thread is: where it returns, and what it is going to return so far. -/
def waits : Pc L K → Option ((Option (ℕ × ℤ) → K) × Option (ℕ × ℤ))
  | .yieldAcquire k | .yieldState k | .yieldSched k | .yieldRelease k => k.waits
  | .sleepAcquire _ _ k | .sleepRelease _ _ k | .sleepState _ _ k => k.waits
  | .sleepSched _ k | .sleepTidy _ k | .sleepUnlock _ k | .sleepReacquire _ k => k.waits
  | .wakeup _ _ k | .wakeupTest _ _ _ k | .wakeupRelease _ _ _ k | .handler _ k => k.waits
  | .waitAcquire k | .waitScan _ _ k | .waitLock _ _ k | .waitTest _ _ k | .waitSkip _ _ k => some (k, none)
  | .waitPid _ k | .waitCopyout _ _ _ k | .waitFree _ _ _ k => some (k, none)
  | .waitKilled k | .waitKilledRead k | .waitKilledRelease _ k => some (k, none)
  | .waitUnlock _ result k | .waitReturn result k => some (k, result)
  | _ => none

/-- The thread stays in its `kwait`, or returns from it with the result. -/
def Hands (pc next : Pc L K) : Prop :=
  next.waits = pc.waits ∨ ∃ r, next = .client r ∧ ∀ k result, pc.waits = some (k, result) → r = k result

/-- The code of the client is not in `kwait`, and a handler where the interrupted point is. -/
theorem frame_waits (back : Option (Pc L K)) (k k' : K) : (frame back k').waits = (frame back k).waits := by
  cases back <;> rfl

end Pc

/-- What an instruction has to do with `kwait`. -/
def Instr.Waits (me : Option (Fin NPROC)) (pc : Pc L K) : Instr L K → Prop
  | .goto next | .acquire _ next | .release _ next | .setCurrent _ next => pc.Hands next
  | .allocpid _ next | .context _ next => pc.Hands next
  | .read _ next => ∀ p, pc.Hands (next p)
  | .any next => ∀ value, pc.Hands (next value)
  | .write _ _ next => pc.Hands next ∧ pc.event me = .silent ∨ ∃ p i pid status k, me = some p ∧
      pc.event me = .reap p i pid status ∧ pc.waits = some (k, none) ∧ next.waits = some (k, some (pid, status))
  | .swtch _ _ => me = none
  | .sched next => next.waits = pc.waits

/-- The common part of the code and `kwait`. -/
theorem commonCode_waits (hcode : commonCode me pc = some instr) : instr.Waits me pc := by
  cases pc with
  | wakeup chan rest k =>
    cases rest with
    | nil =>
      cases hcode
      exact .inl rfl
    | cons q rest =>
      cases hcode
      split <;> exact .inl rfl
  | wakeupTest chan q rest k =>
    cases hcode
    exact .inl ⟨.inl rfl, rfl⟩
  | wakeupRelease chan q rest k =>
    cases hcode
    exact .inl rfl
  | _ => cases hcode

/-- The code of the scheduler and `kwait`. -/
theorem schedCode_waits (hcode : schedCode pc = some instr) : instr.Waits none pc := by
  cases pc with
  | schedIdle | schedCurrent | schedBack | schedRelease =>
    cases hcode
    exact .inl rfl
  | schedScan rest => cases rest <;> (cases hcode; exact .inl rfl)
  | schedTest q rest =>
    cases hcode
    intro p
    beta_reduce
    split <;> exact .inl rfl
  | schedState q rest =>
    cases hcode
    exact .inl ⟨.inl rfl, rfl⟩
  | schedSwtch q rest =>
    cases hcode
    exact rfl
  | _ => exact commonCode_waits hcode

/-- The code of a process and `kwait`. -/
theorem procCode_waits {me : Fin NPROC} (hcode : procCode me pc = some instr) : instr.Waits (some me) pc := by
  cases pc with
  -- Locks taken and released.
  | forkret | yieldAcquire | yieldRelease | sleepAcquire | sleepRelease | sleepUnlock | sleepReacquire
  | killedAcquire | killedRelease | setkilledAcquire | setkilledRelease | killRelease | killSkip
  | forkSkip | forkUnlock | forkWait | forkWaitRelease | forkRelock | forkRelease | forkAbort
  | exitAcquire | exitRelease | waitAcquire | waitLock | waitSkip | waitUnlock | waitKilled =>
    cases hcode
    exact .inl rfl
  | waitReturn result k =>
    cases hcode
    refine .inr ⟨k result, rfl, ?_⟩
    intro k' result' h
    cases h
    rfl
  | waitKilledRelease killed k =>
    cases hcode
    cases killed <;> exact .inl rfl
  | exitWait status =>
    obtain ⟨-, rfl⟩ := procCode_exitWait hcode
    exact .inl rfl
  -- Loops.
  | kill pid rest k | forkScan rest k => cases rest <;> (cases hcode; exact .inl rfl)
  | reparent rest status =>
    cases rest with
    | nil =>
      cases hcode
      exact .inl rfl
    | cons q rest =>
      cases hcode
      intro p
      beta_reduce
      split <;> exact .inl rfl
  | waitScan rest havekids k =>
    cases rest with
    | nil =>
      cases hcode
      cases havekids <;> exact .inl rfl
    | cons q rest =>
      cases hcode
      intro p
      beta_reduce
      split <;> exact .inl rfl
  -- Fields read, and values of the memory below.
  | killedRead | forkPidRead | exitWakeup | waitKilledRead | waitPid | forkTrapframe | forkPagetable =>
    cases hcode
    exact fun _ => .inl rfl
  | killTest | forkTest | forkShare | waitTest | forkShareMap | forkCopy | waitCopyout =>
    cases hcode
    intro value
    beta_reduce
    split <;> exact .inl rfl
  -- Fields written.
  | sleepTidy | setkilledState | forkInherit | forkParent | forkShareChild | forkShareParent | forkShareFlag
  | reparentAssign | killState | yieldState | sleepState | forkState | exitState | forkFree =>
    cases hcode
    exact .inl ⟨.inl rfl, rfl⟩
  | forkSetTrapframe | forkSetPagetable =>
    cases hcode
    split <;> exact .inl ⟨.inl rfl, rfl⟩
  | waitFree q pid status k =>
    cases hcode
    exact .inr ⟨me, q, pid, status, k, rfl, rfl, rfl, rfl⟩
  | forkPid | forkContext =>
    cases hcode
    exact .inl rfl
  -- Switches to the scheduler.
  | yieldSched | sleepSched | exitSched =>
    cases hcode
    exact rfl
  | _ => exact commonCode_waits hcode

/-- The code and `kwait`. -/
theorem code_waits (hcode : code me pc = some instr) : instr.Waits me pc := by
  cases me with
  | none => exact schedCode_waits hcode
  | some p => exact procCode_waits hcode

namespace Machine

variable {client : Client L D K} {s t : Machine C L D K} {e : Event} {c : C}

/-- What a step has to do with the `kwait` of process `p`. -/
inductive WaitStep (p : Fin NPROC) (s t : Machine C L D K) (e : Event) : Prop
  | hands (hpc : (s.pc p).Hands (t.pc p)) (hevent : e.Spares p)
  | call (k : Option (ℕ × ℤ) → K) (hnext : (t.pc p).waits = some (k, none)) (hevent : e = .wait p)
  | reap (i : Fin NPROC) (pid : ℕ) (status : ℤ) (k : Option (ℕ × ℤ) → K) (hpc : (s.pc p).waits = some (k, none))
      (hnext : (t.pc p).waits = some (k, some (pid, status))) (hevent : e = .reap p i pid status)
  /-- The context of a new process. -/
  | start (entry : K) (hnext : t.pc p = .forkret entry) (hevent : e.Spares p)

namespace WaitStep

/-- A move of a thread. -/
theorem of_goes (hgoes : Goes s c next t) (hpc : s.running c = some p → (s.here c).Hands next)
    (hevent : e.Spares p) : WaitStep p s t e := by
  by_cases hp : s.running c = some p
  · refine .hands ?_ hevent
    have hnext := hgoes.here_self
    rw [Exclusive.here_of_running (hgoes.running ▸ hp)] at hnext
    rw [hnext, ← Exclusive.here_of_running hp]
    exact hpc hp
  · exact .hands (.inl (by rw [hgoes.pc_of_ne hp])) hevent

/-- An instruction of `proc.c`. -/
theorem of_code (hcode : Sched.code (s.running c) (s.here c) = some instr) (hnext : instr.Next s.proc next)
    (hgoes : Goes s c next t) : WaitStep p s t ((s.here c).event (s.running c)) := by
  have hwaits := code_waits hcode
  -- All instructions but the assignments are silent.
  have hsilent : (∀ i f next, instr ≠ .write i f next) → ((s.here c).event (s.running c)).Spares p := by
    intro hwrite
    rw [event_silent hcode hwrite]
    exact fun _ => rfl
  cases instr with
  | goto | acquire | release | setCurrent | allocpid =>
    cases hnext
    exact .of_goes hgoes (fun _ => hwaits) (hsilent nofun)
  | read i =>
    cases hnext
    exact .of_goes hgoes (fun _ => hwaits _) (hsilent nofun)
  | any =>
    obtain ⟨value, rfl⟩ := hnext
    exact .of_goes hgoes (fun _ => hwaits value) (hsilent nofun)
  | write i f =>
    cases hnext
    obtain ⟨hhands, hevent⟩ | ⟨q, j, pid, status, k, hme, hevent, hold, hnew⟩ := hwaits
    · rw [hevent]
      exact .of_goes hgoes (fun _ => hhands) fun _ => rfl
    · rw [hevent]
      by_cases hqp : q = p
      · subst hqp
        refine .reap j pid status k ?_ ?_ rfl
        · rw [← Exclusive.here_of_running hme]
          exact hold
        · rw [← Exclusive.here_of_running (hgoes.running ▸ hme), hgoes.here_self]
          exact hnew
      · refine .of_goes hgoes (fun hp => ?_) fun _ => if_neg hqp
        rw [hme] at hp
        exact absurd (Option.some.inj hp) hqp
  | context | swtch | sched => cases hnext

variable {op : Op L D K} {q : Fin NPROC}

/-- A call of a function of `proc.c`. -/
theorem of_call {k : K} (hrun : s.running c = some q) (hpc : s.here c = .client k) (hcall : op.call = some next)
    (hgoes : Goes s c next t) : WaitStep p s t (op.event q (s.proc q).pid) := by
  cases op with
  | wait k' =>
    cases hcall
    by_cases hqp : q = p
    · subst hqp
      refine .call k' ?_ rfl
      rw [← Exclusive.here_of_running (hgoes.running ▸ hrun), hgoes.here_self]
      rfl
    · refine .of_goes hgoes (fun hp => ?_) fun _ => if_neg hqp
      rw [hrun] at hp
      exact absurd (Option.some.inj hp) hqp
  | sleep | killed | setkilled | kill | fork | exit =>
    cases hcall
    refine .of_goes hgoes (fun _ => .inl ?_) fun _ => rfl
    rw [hpc]
    rfl
  | acquire | release | access | own | wakeup => cases hcall

/-- The context of a new process. -/
theorem of_context (hs : Exclusive s) {i : Fin NPROC} {entry : K}
    (hcode : Sched.code (s.running c) (s.here c) = some (.context i next))
    (hgoes : Goes (s.setContext i entry) c next t) : WaitStep p s t .silent := by
  have hused := hs.used_of_creating (code_typed (hs.here_wf c) hcode).1
  by_cases hpi : p = i
  · subst hpi
    refine .start entry ?_ fun _ => rfl
    rw [hgoes.pc_of_ne (hs.running_ne_of_used hused c)]
    exact update_self ..
  · have hpc : (s.setContext i entry).pc p = s.pc p := update_of_ne hpi ..
    have hstep : WaitStep p (s.setContext i entry) t .silent := by
      refine .of_goes hgoes (fun _ => ?_) fun _ => rfl
      rw [hs.here_setContext hused]
      exact code_waits hcode
    cases hstep with
    | hands hhands hevent => exact .hands (hpc ▸ hhands) hevent
    | call k hnext hevent => cases hevent
    | reap j pid status k hold hnext hevent => cases hevent
    | start entry hnext hevent => exact .start entry hnext hevent

/-- Every step fits the calls of `kwait`. -/
theorem of_step [DecidableEq L] (hs : Exclusive s) (h : Step client s e t) (p : Fin NPROC) : WaitStep p s t e := by
  cases hs.acts h with
  | code c instr next hcode hready hnext hgoes hproc hlock hdata => exact of_code hcode hnext hgoes
  | context c i next hcode hgoes hproc hlock hdata => exact of_context hs hcode hgoes
  | resume c q next hcode hidle ht =>
    subst ht
    exact .hands (.inl rfl) fun _ => rfl
  | suspend c q next hcode hrun honly ht =>
    have hnext : next.waits = (s.here c).waits := code_waits hcode
    subst ht
    refine .hands (.inl ?_) fun _ => rfl
    change (update s.pc q next p).waits = (s.pc p).waits
    by_cases hpq : p = q
    · rw [hpq, update_self, hnext, Exclusive.here_of_running hrun]
    · rw [update_of_ne hpq]
  | clientAcquire c back l k k' hop hlock hgoes hproc | clientRelease c back l k k' hop hlock hgoes hproc
  | access c back d k k' hop hgoes hproc | wakeup c back chan k k' hop hgoes hproc =>
    refine .of_goes hgoes (fun _ => .inl ?_) fun _ => rfl
    rw [hop.here]
    exact Pc.frame_waits back k k'
  | own c q op k k' hrun hpc hnext hgoes hproc hlock hdata =>
    refine .of_goes hgoes (fun _ => .inl ?_) fun _ => rfl
    rw [hpc]
    rfl
  | call c q op k next hrun hpc hnext hcall hgoes hproc hlock hdata => exact of_call hrun hpc hcall hgoes
  | interrupt c next hfree hnext hgoes hproc hlock hdata =>
    refine .of_goes hgoes (fun _ => .inl ?_) fun _ => rfl
    obtain rfl | ⟨chan⟩ | ⟨k, hstart⟩ := hnext <;> rfl
  | iret c k back hpc hend hgoes hproc hlock hdata =>
    refine .of_goes hgoes (fun _ => .inl ?_) fun _ => rfl
    rw [hpc]
    rfl

end WaitStep

/-- What a process in `kwait` is going to return is what the call has reaped. -/
def Awaits (events : List Event) (s : Machine C L D K) : Prop :=
  ∀ p k result, (s.pc p).waits = some (k, result) → result = lastReap p events

/-- Every step keeps what the calls of `kwait` are going to return. -/
theorem Awaits.step [DecidableEq L] {events : List Event} (h : Awaits events s) (hs : Exclusive s)
    (hstep : Step client s e t) :
    Awaits (events ++ [e]) t := by
  intro p k result hp
  have hlast : lastReap p (events ++ [e]) = reapStep p (lastReap p events) e := by
    simp only [lastReap, List.foldl_append, List.foldl_cons, List.foldl_nil]
  rw [hlast]
  cases WaitStep.of_step hs hstep p with
  | hands hpc hevent =>
    rw [hevent]
    obtain hsame | ⟨r, hr, -⟩ := hpc
    · exact h p k result (hsame ▸ hp)
    · rw [hr] at hp
      cases hp
  | call k' hnext hevent =>
    rw [hnext] at hp
    cases hp
    rw [hevent]
    exact (if_pos rfl).symm
  | reap i pid status k' hold hnext hevent =>
    rw [hnext] at hp
    cases hp
    rw [hevent]
    exact (if_pos rfl).symm
  | start entry hnext hevent =>
    rw [hnext] at hp
    cases hp

omit [DecidableEq C] in
/-- Nobody is in `kwait` after `userinit`. -/
theorem Awaits.initial (h : Initial client s) : Awaits [] s := by
  intro p k result hp
  rw [h.pc] at hp
  split at hp <;> cases hp

/-- What `kwait` hands to its caller is what the call has reaped. -/
theorem Awaits.returned [DecidableEq L] {events : List Event} (h : Awaits events s) (hs : Exclusive s)
    (hstep : Step client s e t) {k : Option (ℕ × ℤ) → K} {result : Option (ℕ × ℤ)} {r : K}
    (hp : (s.pc p).waits = some (k, result)) (hr : t.pc p = .client r) : r = k (lastReap p events) := by
  cases WaitStep.of_step hs hstep p with
  | hands hpc hevent =>
    obtain hsame | ⟨r', hr', hresult⟩ := hpc
    · rw [hr, hp] at hsame
      cases hsame
    · rw [hr] at hr'
      cases hr'
      rw [hresult k result hp, h p k result hp]
  | call k' hnext hevent => rw [hr] at hnext; cases hnext
  | reap i pid status k' hold hnext hevent => rw [hr] at hnext; cases hnext
  | start entry hnext hevent => rw [hr] at hnext; cases hnext

end Machine

end Xv6.Sched
