import Xv6.Sched.Typing

/-!
# A process runs on one CPU

The lock of a slot is handed over when a CPU switches between a process and its scheduler: the process
takes it, the scheduler releases it, and the other way round. The invariant ties the holder of every
lock to the points of the threads, and the state of every slot to the CPU that executes its process.
-/

namespace Xv6.Sched.Machine

open Function Library

variable {C L D K : Type} [DecidableEq C]

/-- The states of a process that can run. -/
def Live : ProcState → Prop
  | .runnable | .sleeping | .running => True
  | _ => False

/-- What holds between the locks, the slots and the points of the threads. -/
structure Exclusive (s : Machine C L D K) : Prop where
  wf : ∀ t, (s.point t).WF t.me
  thread : Function.Injective s.thread
  /-- The locks that a CPU holds are those its point stands for. -/
  slot : ∀ i c, s.lock (.proc i) = some c ↔ (s.here c).slotLock (s.running c) = some i
  wait : ∀ c, s.lock .wait = some c ↔ (s.here c).holdsWait = true
  own : ∀ c p, s.running c = some p → s.current c = some p ∧ (∃ rest, s.sched c = .schedBack p rest) ∧
    (s.proc p).state = (s.pc p).ownState
  idle : ∀ c, s.running c = none → s.current c = (s.here c).current
  /-- A process that a scheduler is about to resume runs nowhere. -/
  target : ∀ c q, (s.here c).target = some q → s.running c = none ∧ ∀ d, s.running d ≠ some q
  /-- A process that a scheduler has just switched from has left the state `RUNNING`. -/
  back : ∀ c q, (s.here c).target = none → (s.here c).current = some q → (s.proc q).state ≠ .running
  run : ∀ p, (s.proc p).state = .running → ∃ c, s.running c = some p ∨ (s.here c).target = some p
  saved : ∀ p, (∀ c, s.running c ≠ some p) → Live (s.proc p).state → (s.pc p).Resumable
  sees : ∀ c q st, (s.here c).sees = some (q, st) → (s.proc q).state = st
  creating : ∀ t q r, (s.point t).creating = some (q, r) →
    (s.proc q).state = .used ∧ (r = true → (s.pc q).Resumable)
  creator : ∀ t u q r r', (s.point t).creating = some (q, r) → (s.point u).creating = some (q, r') → t = u

/-- The locks after a move are those that the points stand for. -/
structure LocksMove (s : Machine C L D K) (c : C) (next : Pc L K) (lock : Lock L → Option C) : Prop where
  slot : ∀ i d, lock (.proc i) = some d ↔
    if d = c then next.slotLock (s.running c) = some i else s.lock (.proc i) = some d
  wait : ∀ d, lock .wait = some d ↔ if d = c then next.holdsWait = true else s.lock .wait = some d

/-- A thread has moved, with the locks that its points stand for and with `c->proc` assigned. -/
structure Moved (s : Machine C L D K) (c : C) (next : Pc L K) (s' : Machine C L D K) : Prop
    extends Goes s c next s' where
  current : ∀ d, s.running d = none → s'.current d = if d = c then next.current else s.current d
  busy : ∀ d p, s.running d = some p → s'.current d = s.current d
  locks : LocksMove s c next s'.lock

/-- What the states of slots have to do with the points when a CPU moves. -/
structure Legal (s : Machine C L D K) (c : C) (next : Pc L K) (s' : Machine C L D K) : Prop where
  wf : next.WF (s.running c)
  own : ∀ p, s.running c = some p → (s'.proc p).state = next.ownState
  /-- The CPU changes only a slot that it has locked, and never one that runs elsewhere. -/
  change : ∀ i, (s'.proc i).state = (s.proc i).state ∨
    (s.here c).slotLock (s.running c) = some i ∧ ((s.proc i).state ≠ .running ∨ s.running c = some i)
  target : ∀ q, next.target = some q → (s.here c).target = some q ∨
    s.running c = none ∧ (s.here c).slotLock (s.running c) = some q ∧ (s.proc q).state ≠ .running
  run : ∀ p, (s'.proc p).state = .running → (s.proc p).state = .running ∨ next.target = some p
  keep : ∀ q, (s.here c).target = some q → next.target = some q
  saved : ∀ p, Live (s'.proc p).state → Live (s.proc p).state ∨ (s.pc p).Resumable
  creating : ∀ q r, next.creating = some (q, r) →
    (s'.proc q).state = .used ∧ (r = true → (s.pc q).Resumable)
  used : ∀ q, (s.proc q).state = .used → (s'.proc q).state = .used ∨
    ∃ r, (s.here c).creating = some (q, r)
  creator : ∀ q r, next.creating = some (q, r) → (∃ r', (s.here c).creating = some (q, r')) ∨
    (s.proc q).state ≠ .used
  sees : ∀ q st, next.sees = some (q, st) → (s'.proc q).state = st
  back : ∀ q, next.target = none → next.current = some q → (s'.proc q).state ≠ .running

namespace Exclusive

variable {s s' : Machine C L D K} {c d : C} {next : Pc L K} {p q : Fin NPROC}

omit [DecidableEq C] in
/-- No two CPUs execute one process. -/
theorem running_unique (hs : Exclusive s) (hc : s.running c = some p) (hd : s.running d = some p) : c = d := by
  apply hs.thread
  rw [s.thread_of_running c hc, s.thread_of_running d hd]

omit [DecidableEq C] in
/-- No two CPUs hold the lock of one slot. -/
theorem slotLock_unique (hs : Exclusive s) (hc : (s.here c).slotLock (s.running c) = some q)
    (hd : (s.here d).slotLock (s.running d) = some q) : c = d := by
  have hlock := (hs.slot q c).2 hc
  rw [(hs.slot q d).2 hd] at hlock
  cases hlock
  rfl

omit [DecidableEq C] in
/-- The point of a CPU that executes a process. -/
theorem here_of_running (hc : s.running c = some p) : s.here c = s.pc p := by
  rw [here_eq, s.thread_of_running c hc]
  rfl

variable {r : Bool}

section

variable (hs : Exclusive s)

include hs

omit [DecidableEq C]

/-- The state of a process that executes is that of its point. -/
theorem state_of_running (hc : s.running c = some p) : (s.proc p).state = (s.here c).ownState := by
  rw [(hs.own c p hc).2.2, here_of_running hc]

/-- The point of a CPU is well formed for its process. -/
theorem here_wf (c : C) : (s.here c).WF (s.running c) := by
  rw [here_eq, ← me_thread]
  exact hs.wf _

/-- A process that executes without being in the state `RUNNING` has its slot locked. -/
theorem locked_of_state (hd : s.running d = some q)
    (hstate : (s.proc q).state ≠ .running) : (s.here d).slotLock (s.running d) = some q := by
  by_contra hslot
  have hne : (s.here d).slotLock (s.running d) ≠ s.running d := by
    intro heq
    exact hslot (heq.trans hd)
  apply hstate
  rw [hs.state_of_running hd, Pc.ownState_of_slotLock hne]

/-- A process to which a scheduler switches can be resumed. -/
theorem resumable (hcode : code (s.running c) (s.here c) = some (.swtch q next)) : (s.pc q).Resumable := by
  obtain ⟨-, htarget, -, hsees, -⟩ := code_typed (hs.here_wf c) hcode
  exact hs.saved q (hs.target c q htarget).2 (by rw [hs.sees c q _ hsees]; trivial)

/-- A slot under creation is `USED`. -/
theorem used_of_creating (h : (s.here c).creating = some (q, r)) : (s.proc q).state = .used := by
  rw [here_eq] at h
  exact (hs.creating _ q r h).1

/-- A slot that some other CPU may not change keeps its state. -/
theorem state_of_locked (hlegal : Legal s c next s')
    (hd : (s.here d).slotLock (s.running d) = some q) (hne : d ≠ c) :
    (s'.proc q).state = (s.proc q).state := by
  obtain hsame | ⟨hslot, -⟩ := hlegal.change q
  · exact hsame
  · exact absurd (hs.slotLock_unique hd hslot) hne

/-- A slot under creation is not executed. -/
theorem running_ne_of_used (hused : (s.proc q).state = .used) (d : C) : s.running d ≠ some q := by
  intro hd
  have hown := (hs.own d q hd).2.2
  rw [hused] at hown
  exact Pc.ownState_ne_used hown.symm

end

section

variable (hs : Exclusive s) (h : Moved s c next s') (hlegal : Legal s c next s')

include hs h hlegal

/-- A legal move keeps the states of processes in step with their points. -/
theorem own_moved (hd : s.running d = some p) : s'.current d = some p ∧ (∃ rest, s'.sched d = .schedBack p rest) ∧
      (s'.proc p).state = (s'.pc p).ownState := by
  obtain ⟨hcurrent, hsched, hstate⟩ := hs.own d p hd
  rw [h.busy d p hd, h.toGoes.sched_of_running hd]
  refine ⟨hcurrent, hsched, ?_⟩
  by_cases hdc : d = c
  · subst hdc
    have hhere : s'.here d = s'.pc p := here_of_running (h.running ▸ hd)
    rw [hlegal.own p hd, ← hhere, h.toGoes.here_self]
  · have hcp : s.running c ≠ some p := fun hc => hdc (hs.running_unique hd hc)
    rw [h.toGoes.pc_of_ne hcp, ← hstate]
    obtain hsame | ⟨hslot, hrun | hc⟩ := hlegal.change p
    · exact hsame
    · exact absurd (hs.slotLock_unique (hs.locked_of_state hd hrun) hslot) hdc
    · exact absurd hc hcp

/-- After a legal move the processes that schedulers are about to resume run nowhere. -/
theorem target_moved (hd : (s'.here d).target = some q) : s.running d = none ∧ ∀ e, s.running e ≠ some q := by
  by_cases hdc : d = c
  · subst hdc
    rw [h.toGoes.here_self] at hd
    obtain hold | ⟨hidle, hslot, hstate⟩ := hlegal.target q hd
    · exact hs.target d q hold
    · refine ⟨hidle, ?_⟩
      intro e he
      have hed := hs.slotLock_unique (hs.locked_of_state he hstate) hslot
      rw [hed, hidle] at he
      cases he
  · rw [h.toGoes.here_ne hs.thread hdc] at hd
    exact hs.target d q hd

/-- After a legal move every running process has its CPU. -/
theorem run_moved
    (hp : (s'.proc p).state = .running) : ∃ d, s.running d = some p ∨ (s'.here d).target = some p := by
  obtain hold | hnew := hlegal.run p hp
  · obtain ⟨d, hrun | htarget⟩ := hs.run p hold
    · exact ⟨d, .inl hrun⟩
    · refine ⟨d, .inr ?_⟩
      by_cases hdc : d = c
      · subst hdc
        rw [h.toGoes.here_self]
        exact hlegal.keep p htarget
      · rw [h.toGoes.here_ne hs.thread hdc]
        exact htarget
  · exact ⟨c, .inr (by rw [h.toGoes.here_self]; exact hnew)⟩

variable {t : Thread C}

/-- After a legal move slots under creation are `USED`. -/
theorem creating_moved (ht : (s'.point t).creating = some (q, r)) :
    (s'.proc q).state = .used ∧ (r = true → (s'.pc q).Resumable) := by
  rw [h.point] at ht
  split at ht
  · obtain ⟨hused, hready⟩ := hlegal.creating q r ht
    have hcq : s.running c ≠ some q := by
      intro hc
      rw [hlegal.own q hc] at hused
      exact Pc.ownState_ne_used hused
    rw [h.toGoes.pc_of_ne hcq]
    exact ⟨hused, hready⟩
  · rename_i hne
    obtain ⟨hused, hready⟩ := hs.creating t q r ht
    rw [h.toGoes.pc_of_ne (hs.running_ne_of_used hused c)]
    refine ⟨?_, hready⟩
    obtain hsame | ⟨r', hc⟩ := hlegal.used q hused
    · exact hsame
    · rw [here_eq] at hc
      exact absurd (hs.creator t _ q r r' ht hc) hne

/-- After a legal move every slot has at most one creator. -/
theorem creator_moved {u : Thread C} {r' : Bool} (ht : (s'.point t).creating = some (q, r))
    (hu : (s'.point u).creating = some (q, r')) : t = u := by
  -- A thread which creates the slot before and after the move is the one that the CPU executes.
  have hown : ∀ v r₁ r₂, next.creating = some (q, r₁) → (s.point v).creating = some (q, r₂) →
      v = s.thread c := by
    intro v r₁ r₂ hnext hv
    obtain ⟨r₀, hold⟩ | hstate := hlegal.creator q r₁ hnext
    · rw [here_eq] at hold
      exact hs.creator v _ q r₂ r₀ hv hold
    · exact absurd (hs.creating v q r₂ hv).1 hstate
  rw [h.point] at ht hu
  split at ht <;> split at hu
  · rename_i htc huc
    rw [htc, huc]
  · rename_i htc huc
    exact absurd (hown u r r' ht hu) huc
  · rename_i htc huc
    exact absurd (hown t r' r hu ht) htc
  · exact hs.creator t u q r r' ht hu

/-- A legal move keeps the invariant. -/
theorem of_moved : Exclusive s' where
  wf := by
    intro t
    rw [h.point]
    split
    · rename_i ht
      rw [ht, me_thread]
      exact hlegal.wf
    · exact hs.wf t
  thread := by
    rw [h.toGoes.thread_eq]
    exact hs.thread
  slot := by
    intro i d
    rw [h.locks.slot, h.running]
    split
    · rename_i hd
      rw [hd, h.toGoes.here_self]
    · rename_i hd
      rw [h.toGoes.here_ne hs.thread hd]
      exact hs.slot i d
  wait := by
    intro d
    rw [h.locks.wait]
    split
    · rename_i hd
      rw [hd, h.toGoes.here_self]
    · rename_i hd
      rw [h.toGoes.here_ne hs.thread hd]
      exact hs.wait d
  own := by
    intro d p hd
    rw [h.running] at hd
    exact hs.own_moved h hlegal hd
  idle := by
    intro d hd
    rw [h.running] at hd
    rw [h.current d hd]
    split
    · rename_i hdc
      rw [hdc, h.toGoes.here_self]
    · rename_i hdc
      rw [h.toGoes.here_ne hs.thread hdc]
      exact hs.idle d hd
  target := by
    intro d q hd
    rw [h.running]
    exact hs.target_moved h hlegal hd
  back := by
    intro d q htarget hcurrent
    by_cases hdc : d = c
    · rw [hdc, h.toGoes.here_self] at htarget hcurrent
      exact hlegal.back q htarget hcurrent
    · rw [h.toGoes.here_ne hs.thread hdc] at htarget hcurrent
      rw [hs.state_of_locked hlegal (Pc.slotLock_of_current hcurrent) hdc]
      exact hs.back d q htarget hcurrent
  run := by
    intro p hp
    rw [h.running]
    exact hs.run_moved h hlegal hp
  saved := by
    intro p hp hlive
    rw [h.running] at hp
    rw [h.toGoes.pc_of_ne (hp c)]
    obtain hold | hres := hlegal.saved p hlive
    · exact hs.saved p hp hold
    · exact hres
  sees := by
    intro d q st hd
    by_cases hdc : d = c
    · rw [hdc, h.toGoes.here_self] at hd
      exact hlegal.sees q st hd
    · rw [h.toGoes.here_ne hs.thread hdc] at hd
      rw [hs.state_of_locked hlegal (Pc.slotLock_of_sees hd) hdc]
      exact hs.sees d q st hd
  creating := by
    intro t q r ht
    exact hs.creating_moved h hlegal ht
  creator := by
    intro t u q r r' ht hu
    exact hs.creator_moved h hlegal ht hu

end

end Exclusive

section Locks

variable {s : Machine C L D K} {c : C} {next : Pc L K} {lock : Lock L → Option C}

/-- A point that stands for the same locks needs no lock operation. -/
theorem LocksMove.same (hs : Exclusive s) (h : (s.here c).SameLocks (s.running c) next) :
    LocksMove s c next s.lock where
  slot := by
    intro i d
    split
    · rename_i hd
      rw [hd, h.1]
      exact hs.slot i c
    · rfl
  wait := by
    intro d
    split
    · rename_i hd
      rw [hd, h.2]
      exact hs.wait c
    · rfl

/-- Locks of the client are not those of slots. -/
theorem LocksMove.client [DecidableEq L] (h : LocksMove s c next lock) (l : L) (holder : Option C) :
    LocksMove s c next (update lock (.client l) holder) where
  slot := by
    intro i d
    simp only [update_apply, reduceCtorEq, if_false]
    exact h.slot i d
  wait := by
    intro d
    simp only [update_apply, reduceCtorEq, if_false]
    exact h.wait d

variable {holder : Option C} {held : Prop}

/-- A lock that was free and that the CPU takes. -/
theorem held_of_taken (hfree : holder = none) (hheld : held) (d : C) :
    some c = some d ↔ if d = c then held else holder = some d := by
  by_cases hd : d = c
  · simp [hd, hheld]
  · simp [hd, hfree, Ne.symm hd]

/-- A lock that the CPU held and gives back. -/
theorem held_of_released (hholder : holder = some c) (hheld : ¬held)
    (d : C) : none = some d ↔ if d = c then held else holder = some d := by
  by_cases hd : d = c
  · simp [hd, hheld]
  · simp [hd, hholder, Ne.symm hd]

/-- Taking a lock. -/
theorem LocksMove.acquire [DecidableEq L] (hs : Exclusive s) {l : Lock L} (hfree : s.lock l = none)
    (h : (s.here c).Takes (s.running c) next l) : LocksMove s c next (update s.lock l (some c)) := by
  cases l with
  | client l => exact (LocksMove.same hs h).client l _
  | wait =>
    obtain ⟨-, hnext, hslot⟩ := h
    refine ⟨fun i d => ?_, fun d => ?_⟩
    · rw [update_apply, if_neg (by simp), hslot]
      exact (LocksMove.same hs ⟨rfl, rfl⟩).slot i d
    · rw [update_self]
      exact held_of_taken hfree hnext d
  | proc j =>
    obtain ⟨hslot, hnext, hwait⟩ := h
    refine ⟨fun i d => ?_, fun d => ?_⟩
    · rw [update_apply, hnext]
      by_cases hij : i = j
      · rw [hij, if_pos rfl]
        exact held_of_taken hfree rfl d
      · rw [if_neg (by simpa using hij), (LocksMove.same hs ⟨rfl, rfl⟩).slot i d, hslot]
        simp [Ne.symm hij]
    · rw [update_apply, if_neg (by simp), hwait]
      exact (LocksMove.same hs ⟨rfl, rfl⟩).wait d

/-- Giving a lock back. -/
theorem LocksMove.release [DecidableEq L] (hs : Exclusive s) {l : Lock L} (hheld : s.lock l = some c)
    (h : next.Takes (s.running c) (s.here c) l) : LocksMove s c next (update s.lock l none) := by
  cases l with
  | client l => exact (LocksMove.same hs ⟨h.1.symm, h.2.symm⟩).client l _
  | wait =>
    obtain ⟨hnext, -, hslot⟩ := h
    refine ⟨fun i d => ?_, fun d => ?_⟩
    · rw [update_apply, if_neg (by simp), ← hslot]
      exact (LocksMove.same hs ⟨rfl, rfl⟩).slot i d
    · rw [update_self]
      exact held_of_released hheld (by simp [hnext]) d
  | proc j =>
    obtain ⟨hnext, hslot, hwait⟩ := h
    refine ⟨fun i d => ?_, fun d => ?_⟩
    · rw [update_apply, hnext]
      by_cases hij : i = j
      · rw [hij, if_pos rfl]
        exact held_of_released (hij ▸ hheld) (by simp) d
      · rw [if_neg (by simpa using hij), (LocksMove.same hs ⟨rfl, rfl⟩).slot i d, hslot]
        simp [Ne.symm hij]
    · rw [update_apply, if_neg (by simp), ← hwait]
      exact (LocksMove.same hs ⟨rfl, rfl⟩).wait d

end Locks

section Moves

variable {s s' s₁ : Machine C L D K} {c : C} {next : Pc L K}

/-- The machine moves one thread after other fields were changed. -/
theorem Moved.of_moveTo (hrunning : s₁.running = s.running) (hpc : s₁.pc = s.pc) (hsched : s₁.sched = s.sched)
    (hcurrent : ∀ d, s.running d = none → s₁.current d = if d = c then next.current else s.current d)
    (hbusy : ∀ d p, s.running d = some p → s₁.current d = s.current d) (hlocks : LocksMove s c next s₁.lock) :
    Moved s c next (s₁.moveTo c next) where
  toGoes := .of_moveTo hrunning hpc hsched
  current := by
    intro d hd
    rw [moveTo_current]
    exact hcurrent d hd
  busy := by
    intro d p hd
    rw [moveTo_current]
    exact hbusy d p hd
  locks := by
    rw [moveTo_lock]
    exact hlocks

section

variable (hs : Exclusive s)

include hs

/-- A move that leaves `c->proc` alone. -/
theorem Moved.of_current (hrunning : s₁.running = s.running) (hpc : s₁.pc = s.pc) (hsched : s₁.sched = s.sched)
    (hcurrent : s₁.current = s.current) (hnext : next.current = (s.here c).current)
    (hlocks : LocksMove s c next s₁.lock) : Moved s c next (s₁.moveTo c next) := by
  refine .of_moveTo hrunning hpc hsched ?_ (fun d _ _ => congrFun hcurrent d) hlocks
  intro d hd
  rw [hcurrent]
  split
  · rename_i hdc
    rw [hdc] at hd ⊢
    rw [hs.idle c hd, hnext]
  · rfl

omit [DecidableEq C] in
/-- A move that changes the state of no slot, but for waking up sleeping processes. -/
theorem Legal.of_quiet (hwf : next.WF (s.running c))
    (hown : next.ownState = (s.here c).ownState) (hkeep : next.target = (s.here c).target)
    (hcreating : ∀ q r, next.creating = some (q, r) →
      ∃ ready, (s.here c).creating = some (q, ready) ∧ (r = true → (s.pc q).Resumable))
    (hstate : ∀ i, (s'.proc i).state = (s.proc i).state ∨
      (s.here c).slotLock (s.running c) = some i ∧ (s.here c).ownState = .running ∧
        (s.proc i).state = .sleeping ∧ (s'.proc i).state = .runnable)
    (hsees : ∀ q st, next.sees = some (q, st) → (s'.proc q).state = st)
    (hcurrent : next.target = none → next.current = none ∨ next.current = (s.here c).current) :
    Legal s c next s' where
  wf := hwf
  own := by
    intro p hp
    have hold := hs.state_of_running hp
    rw [hown, ← hold]
    obtain hsame | ⟨-, hrun, hsleep, -⟩ := hstate p
    · exact hsame
    · rw [hold, hrun] at hsleep
      cases hsleep
  change := by
    intro i
    refine (hstate i).imp_right ?_
    intro ⟨hslot, _, hsleep, _⟩
    exact ⟨hslot, .inl (by rw [hsleep]; exact nofun)⟩
  target := by
    intro q hq
    exact .inl (hkeep ▸ hq)
  run := by
    intro p hp
    obtain hsame | ⟨-, -, -, hnew⟩ := hstate p
    · exact .inl (hsame ▸ hp)
    · rw [hnew] at hp
      cases hp
  keep := by
    intro q hq
    rw [hkeep, hq]
  saved := by
    intro p hp
    obtain hsame | ⟨-, -, hsleep, -⟩ := hstate p
    · exact .inl (hsame ▸ hp)
    · exact .inl (by rw [hsleep]; trivial)
  creating := by
    intro q r hq
    obtain ⟨ready, hold, hres⟩ := hcreating q r hq
    have hused := hs.used_of_creating hold
    refine ⟨?_, hres⟩
    obtain hsame | ⟨-, -, hsleep, -⟩ := hstate q
    · exact hsame.trans hused
    · rw [hused] at hsleep
      cases hsleep
  used := by
    intro q hq
    obtain hsame | ⟨-, -, hsleep, -⟩ := hstate q
    · exact .inl (hsame.trans hq)
    · rw [hq] at hsleep
      cases hsleep
  creator := by
    intro q r hq
    obtain ⟨ready, hold, -⟩ := hcreating q r hq
    exact .inl ⟨ready, hold⟩
  sees := hsees
  back := by
    intro q htarget hq
    obtain hnone | hsame := hcurrent htarget
    · exact none_elim hnone hq
    · rw [hkeep] at htarget
      rw [hsame] at hq
      have hold := hs.back c q htarget hq
      obtain hsame | ⟨-, -, -, hnew⟩ := hstate q
      · rwa [hsame]
      · rw [hnew]
        exact nofun

omit [DecidableEq C] in
/-- A move to a point that says nothing new about the slots. -/
theorem Legal.of_moves (hmoves : (s.here c).Moves (s.running c) next)
    (hstate : ∀ i, (s'.proc i).state = (s.proc i).state ∨
      (s.here c).slotLock (s.running c) = some i ∧ (s.here c).ownState = .running ∧
        (s.proc i).state = .sleeping ∧ (s'.proc i).state = .runnable)
    (hsees : ∀ q st, next.sees = some (q, st) → (s'.proc q).state = st)
    (hcurrent : next.target = none → next.current = none ∨ next.current = (s.here c).current) :
    Legal s c next s' := by
  refine .of_quiet hs hmoves.wf hmoves.ownState hmoves.target ?_ hstate hsees hcurrent
  intro q r hq
  obtain ⟨ready, hold, hready⟩ := hmoves.creating q r hq
  refine ⟨ready, hold, fun hr => ?_⟩
  rw [here_eq] at hold
  exact (hs.creating _ q ready hold).2 (hready hr)

variable {i : Fin NPROC}

omit [DecidableEq C] in
/-- A process leaves the state `RUNNING`. -/
theorem Legal.of_leave (hrun : s.running c = some i) (hslot : (s.here c).slotLock (s.running c) = some i)
    (hwf : next.WF (s.running c)) (hsees : ∀ q st, next.sees = some (q, st) → (s'.proc q).state = st)
    (hcurrent : next.current = none) (hother : ∀ j, j ≠ i → (s'.proc j).state = (s.proc j).state)
    (hold : (s.here c).ownState = .running) (hstate : (s'.proc i).state = next.ownState)
    (hnew : next.ownState ≠ .running) (htarget : next.target = (s.here c).target)
    (hcreating : next.creating = (s.here c).creating) : Legal s c next s' := by
  have hi : (s.proc i).state = .running := by
    rw [hs.state_of_running hrun, hold]
  have hused : ∀ q, (s.proc q).state = .used → (s'.proc q).state = .used := by
    intro q hq
    rw [hother q, hq]
    rintro rfl
    rw [hi] at hq
    cases hq
  exact {
    wf := hwf
    own := by
      intro p hp
      rw [hrun] at hp
      cases hp
      exact hstate
    change := by
      intro j
      by_cases hj : j = i
      · rw [hj]
        exact .inr ⟨hslot, .inr hrun⟩
      · exact .inl (hother j hj)
    target := fun q hq => .inl (htarget ▸ hq)
    run := by
      intro p hp
      by_cases hpi : p = i
      · rw [hpi, hstate] at hp
        exact absurd hp hnew
      · exact .inl (hother p hpi ▸ hp)
    keep := fun q hq => htarget ▸ hq
    saved := by
      intro p hp
      by_cases hpi : p = i
      · rw [hpi, hi]
        exact .inl trivial
      · exact .inl (hother p hpi ▸ hp)
    creating := by
      intro q r hq
      rw [hcreating, here_eq] at hq
      obtain ⟨hstate, hres⟩ := hs.creating _ q r hq
      exact ⟨hused q hstate, hres⟩
    used := fun q hq => .inl (hused q hq)
    creator := fun q r hq => .inl ⟨r, hcreating ▸ hq⟩
    sees := hsees
    back := by
      intro q _ hq
      rw [hcurrent] at hq
      cases hq }

omit [DecidableEq C] in
/-- A CPU changes the state of a slot which does not run. -/
theorem Legal.of_settle (hrun : s.running c ≠ some i)
    (hslot : (s.here c).slotLock (s.running c) = some i) (hwf : next.WF (s.running c))
    (hsees : ∀ q st, next.sees = some (q, st) → (s'.proc q).state = st) (hcurrent : next.current = none)
    (hother : ∀ j, j ≠ i → (s'.proc j).state = (s.proc j).state)
    (hold : (s.proc i).state ≠ .running) (hown : next.ownState = (s.here c).ownState)
    (htarget : next.target = (s.here c).target ∧ (s'.proc i).state ≠ .running ∨
      s.running c = none ∧ (s.here c).target = none ∧ next.target = some i)
    (hsaved : Live (s'.proc i).state → Live (s.proc i).state ∨ (s.pc i).Resumable)
    (hused : (s.proc i).state = .used → ∃ r, (s.here c).creating = some (i, r))
    (hcreating : ∀ q r, next.creating = some (q, r) →
      q ≠ i ∧ (∃ ready, (s.here c).creating = some (q, ready) ∧ (r = true → ready = true)) ∨
      q = i ∧ r = false ∧ (s.proc i).state ≠ .used ∧ (s'.proc i).state = .used) :
    Legal s c next s' where
  wf := hwf
  own := by
    intro p hp
    have hpi : p ≠ i := by
      rintro rfl
      exact hrun hp
    rw [hother p hpi, hs.state_of_running hp, hown]
  change := by
    intro j
    by_cases hj : j = i
    · rw [hj]
      exact .inr ⟨hslot, .inl hold⟩
    · exact .inl (hother j hj)
  target := by
    intro q hq
    obtain ⟨hsame, -⟩ | ⟨hidle, -, hnew⟩ := htarget
    · exact .inl (hsame ▸ hq)
    · rw [hnew] at hq
      cases hq
      exact .inr ⟨hidle, hslot, hold⟩
  run := by
    intro p hp
    by_cases hpi : p = i
    · rw [hpi] at hp ⊢
      obtain ⟨-, hne⟩ | ⟨-, -, hnew⟩ := htarget
      · exact absurd hp hne
      · exact .inr hnew
    · exact .inl (hother p hpi ▸ hp)
  keep := by
    intro q hq
    obtain ⟨hsame, -⟩ | ⟨-, hnone, -⟩ := htarget
    · rw [hsame, hq]
    · exact none_elim hnone hq
  saved := by
    intro p hp
    by_cases hpi : p = i
    · rw [hpi] at hp ⊢
      exact hsaved hp
    · exact .inl (hother p hpi ▸ hp)
  creating := by
    intro q r hq
    obtain ⟨hqi, ready, hold, hready⟩ | ⟨hqi, hr, -, hnew⟩ := hcreating q r hq
    · rw [here_eq] at hold
      obtain ⟨hstate, hres⟩ := hs.creating _ q ready hold
      exact ⟨(hother q hqi).trans hstate, fun h => hres (hready h)⟩
    · rw [hqi, hr]
      exact ⟨hnew, nofun⟩
  used := by
    intro q hq
    by_cases hqi : q = i
    · rw [hqi] at hq ⊢
      exact .inr (hused hq)
    · exact .inl ((hother q hqi).trans hq)
  creator := by
    intro q r hq
    obtain ⟨-, ready, hold, -⟩ | ⟨hqi, -, hne, -⟩ := hcreating q r hq
    · exact .inl ⟨ready, hold⟩
    · rw [hqi]
      exact .inr hne
  sees := hsees
  back := by
    intro q _ hq
    exact none_elim hcurrent hq

omit [DecidableEq C] in
/-- What an assignment to a slot does is legal. -/
theorem Legal.of_assigns {f : (Fin NPROC → Proc) → Proc}
    (hassigns : Assigns (s.running c) (s.here c) i f next) (hwf : next.WF (s.running c))
    (hsees : ∀ q st, next.sees = some (q, st) → (s'.proc q).state = st) (hcurrent : next.current = none)
    (hother : ∀ j, j ≠ i → s'.proc j = s.proc j) (hself : s'.proc i = f s.proc) : Legal s c next s' := by
  have hkeep : ∀ j, j ≠ i → (s'.proc j).state = (s.proc j).state := fun j hj => by rw [hother j hj]
  cases hassigns with
  | quiet hmoves hstate =>
    refine .of_moves hs hmoves ?_ hsees fun _ => .inl hcurrent
    intro j
    by_cases hj : j = i
    · rw [hj, hself]
      exact hstate s.proc
    · exact .inl (hkeep j hj)
  | leave hme hslot hrun hstate hnext htarget hcreating =>
    exact .of_leave hs hme hslot hwf hsees hcurrent hkeep hrun (hself ▸ hstate s.proc) hnext htarget hcreating
  | create ready hcreating hslot hown hnext htarget hstate =>
    have hc := hcreating
    rw [here_eq] at hc
    obtain ⟨hused, hres⟩ := hs.creating _ i ready hc
    refine .of_settle hs (hs.running_ne_of_used hused c) hslot hwf hsees hcurrent hkeep
      (by rw [hused]; exact nofun) hown (.inl ⟨htarget, ?_⟩) ?_ (fun _ => ⟨ready, hcreating⟩)
      (fun _ _ => none_elim hnext)
    · rw [hself]
      obtain ⟨hrunnable, -⟩ | hunused := hstate
      · rw [hrunnable]
        exact nofun
      · rw [hunused]
        exact nofun
    · intro hlive
      obtain ⟨-, hready⟩ | hunused := hstate
      · exact .inr (hres hready)
      · rw [hself, hunused] at hlive
        cases hlive
  | free hsees' hstate hmoves =>
    have hzombie := hs.sees c i _ hsees'
    have hnot : s.running c ≠ some i := by
      intro hc
      rw [hs.state_of_running hc, Pc.ownState_of_sees hsees'] at hzombie
      cases hzombie
    have hnew : (s'.proc i).state = .unused := by rw [hself, hstate]
    refine .of_settle hs hnot (Pc.slotLock_of_sees hsees') hwf hsees hcurrent hkeep
      (by rw [hzombie]; exact nofun) hmoves.ownState
      (.inl ⟨hmoves.target, by rw [hnew]; exact nofun⟩)
      (fun hlive => by rw [hnew] at hlive; cases hlive) (fun hused => by rw [hzombie] at hused; cases hused)
      ?_
    intro q r hq
    have hold := hmoves.creating q r hq
    refine .inl ⟨?_, hold⟩
    rintro rfl
    obtain ⟨ready, hc, -⟩ := hold
    rw [hs.used_of_creating hc] at hzombie
    cases hzombie
  | choose hme hsees' hstate hcreating hown htarget hnext =>
    have hrunnable := hs.sees c i _ hsees'
    refine .of_settle hs (by rw [hme]; exact nofun) (Pc.slotLock_of_sees hsees') hwf hsees
      hcurrent hkeep (by rw [hrunnable]; exact nofun) hown (.inr ⟨hme, htarget, hnext⟩)
      (fun _ => .inl (by rw [hrunnable]; trivial)) (fun hused => by rw [hrunnable] at hused; cases hused)
      (fun _ _ => none_elim hcreating)

end

end Moves

end Xv6.Sched.Machine
