import Xv6.Sched.Actions
import Xv6.Sched.Execution

/-!
# Switches, and every interleaving

`swtch` hands the CPU with the lock of the slot from the scheduler to the process and back. With the
moves of single threads this covers every step of the machine, so the invariant holds in every state
that an interleaving reaches.
-/

namespace Xv6.Sched.Machine

open Function Library Pc

variable {C L D K : Type} [DecidableEq C]
variable {s : Machine C L D K} {c : C} {next : Pc L K}

namespace Exclusive

variable {p : Fin NPROC}

section

variable (hs : Exclusive s)

include hs

/-- A scheduler resumes a process. -/
theorem resume {q : Fin NPROC} {rest : List (Fin NPROC)} (hidle : s.running c = none)
    (htarget : (s.here c).target = some q) (hcurrent : (s.here c).current = some q)
    (hsees : (s.here c).sees = some (q, .running)) (hwait : (s.here c).holdsWait = false) :
    Exclusive (s.resume c q (.schedBack q rest)) := by
  have hnot := (hs.target c q htarget).2
  have hstate := hs.sees c q _ hsees
  have hres : (s.pc q).Resumable := hs.saved q hnot (by rw [hstate]; trivial)
  obtain ⟨hslot, hpwait, hown, hpsees, hptarget, hpcurrent⟩ := hres.annotations (some q)
  have hcreating : ∀ t r p, ((s.resume c q (.schedBack q rest)).point t).creating = some (p, r) →
      (s.point t).creating = some (p, r) := by
    intro t r p ht
    rw [resume_point] at ht
    split at ht
    · cases ht
    · exact ht
  exact {
    wf := by
      intro t
      rw [resume_point]
      split
      · rename_i ht
        rw [ht]
        trivial
      · exact hs.wf t
    thread := by
      apply thread_injective
      intro d e p hd he
      by_cases hdc : d = c <;> by_cases hec : e = c
      · rw [hdc, hec]
      · rw [hdc, resume_running_self] at hd
        rw [resume_running_ne hec] at he
        cases hd
        exact absurd he (hnot e)
      · rw [hec, resume_running_self] at he
        rw [resume_running_ne hdc] at hd
        cases he
        exact absurd hd (hnot d)
      · rw [resume_running_ne hdc] at hd
        rw [resume_running_ne hec] at he
        exact hs.running_unique hd he
    slot := by
      intro i d
      by_cases hd : d = c
      · rw [hd, resume_here_self, resume_running_self, hslot]
        change s.lock (.proc i) = some c ↔ _
        rw [hs.slot, slotLock_of_target htarget]
      · rw [resume_here_ne hd, resume_running_ne hd]
        exact hs.slot i d
    wait := by
      intro d
      by_cases hd : d = c
      · rw [hd, resume_here_self, hpwait]
        change s.lock .wait = some c ↔ _
        rw [hs.wait, hwait]
      · rw [resume_here_ne hd]
        exact hs.wait d
    own := by
      intro d p hp
      by_cases hd : d = c
      · rw [hd, resume_running_self] at hp
        cases hp
        rw [hd]
        exact ⟨(hs.idle c hidle).trans hcurrent, ⟨rest, update_self ..⟩, hstate.trans hown.symm⟩
      · rw [resume_running_ne hd] at hp
        obtain ⟨hcur, ⟨r, hsched⟩, hst⟩ := hs.own d p hp
        exact ⟨hcur, ⟨r, (update_of_ne hd ..).trans hsched⟩, hst⟩
    idle := by
      intro d hd
      have hdc : d ≠ c := ne_of_values hd resume_running_self nofun
      rw [resume_running_ne hdc] at hd
      rw [resume_here_ne hdc]
      exact hs.idle d hd
    target := by
      intro d p hp
      by_cases hd : d = c
      · rw [hd, resume_here_self, hptarget] at hp
        cases hp
      · rw [resume_here_ne hd] at hp
        rw [resume_running_ne hd]
        refine ⟨(hs.target d p hp).1, ?_⟩
        intro e he
        by_cases hec : e = c
        · rw [hec, resume_running_self] at he
          cases he
          exact hd (hs.slotLock_unique (slotLock_of_target hp) (slotLock_of_target htarget))
        · rw [resume_running_ne hec] at he
          exact (hs.target d p hp).2 e he
    back := by
      intro d p hdtarget hp
      by_cases hd : d = c
      · rw [hd, resume_here_self, hpcurrent] at hp
        cases hp
      · rw [resume_here_ne hd] at hp hdtarget
        exact hs.back d p hdtarget hp
    run := by
      intro p hp
      by_cases hpq : p = q
      · exact ⟨c, .inl (by rw [hpq, resume_running_self])⟩
      · obtain ⟨e, he⟩ := hs.run p hp
        have hec : e ≠ c := by
          rintro rfl
          rw [hidle, htarget] at he
          obtain he | he := he
          · cases he
          · cases he
            exact hpq rfl
        exact ⟨e, by rw [resume_running_ne hec, resume_here_ne hec]; exact he⟩
    saved := by
      intro p hp hlive
      refine hs.saved p ?_ hlive
      intro e he
      by_cases hec : e = c
      · rw [hec, hidle] at he
        cases he
      · exact hp e (by rw [resume_running_ne hec]; exact he)
    sees := by
      intro d p st hp
      by_cases hd : d = c
      · rw [hd, resume_here_self, hpsees] at hp
        cases hp
      · rw [resume_here_ne hd] at hp
        exact hs.sees d p st hp
    creating := fun t p r ht => hs.creating t p r (hcreating t r p ht)
    creator := fun t u p r r' ht hu => hs.creator t u p r r' (hcreating t r p ht) (hcreating u r' p hu) }

/-- A process switches to the scheduler of its CPU. -/
theorem suspend (hrun : s.running c = some p) (hslot : (s.here c).slotLock (s.running c) = some p)
    (hwait : (s.here c).holdsWait = false) (hwf : next.WF (some p))
    (hcreating : next.creating = (s.here c).creating) (hown : (s.here c).ownState ≠ .running)
    (hnext : (s.here c).ownState = .zombie ∨ next.Resumable) : Exclusive (s.suspend c p next) := by
  obtain ⟨hcurrent, ⟨rest, hsched⟩, hstate⟩ := hs.own c p hrun
  rw [← here_of_running hrun] at hstate
  have hother : ∀ d, d ≠ c → s.running d ≠ some p := fun d hd hp => hd (hs.running_unique hp hrun)
  have hhere : (s.suspend c p next).here c = .schedBack p rest := suspend_here_self.trans hsched
  have hkeep : ∀ t r q, ((s.suspend c p next).point t).creating = some (q, r) →
      (s.point t).creating = some (q, r) := by
    intro t r q ht
    rw [suspend_point] at ht
    split at ht
    · rename_i htp
      rw [htp]
      rwa [hcreating, here_of_running hrun] at ht
    · exact ht
  exact {
    wf := by
      intro t
      rw [suspend_point]
      split
      · rename_i ht
        rw [ht]
        exact hwf
      · exact hs.wf t
    thread := by
      apply thread_injective
      have hne : ∀ d q, (s.suspend c p next).running d = some q → d ≠ c := by
        rintro d q hd rfl
        exact none_elim suspend_running_self hd
      intro d e q hd he
      rw [suspend_running_ne (hne d q hd)] at hd
      rw [suspend_running_ne (hne e q he)] at he
      exact hs.running_unique hd he
    slot := by
      intro i d
      by_cases hd : d = c
      · rw [hd, hhere]
        change s.lock (.proc i) = some c ↔ _
        rw [hs.slot, hslot]
        rfl
      · rw [suspend_here_ne hd (hother d hd), suspend_running_ne hd]
        exact hs.slot i d
    wait := by
      intro d
      by_cases hd : d = c
      · rw [hd, hhere]
        change s.lock .wait = some c ↔ _
        rw [hs.wait, hwait]
        rfl
      · rw [suspend_here_ne hd (hother d hd)]
        exact hs.wait d
    own := by
      intro d q hq
      have hd : d ≠ c := ne_of_values hq suspend_running_self nofun
      rw [suspend_running_ne hd] at hq
      obtain ⟨hcur, hsch, hst⟩ := hs.own d q hq
      have hqp : q ≠ p := by
        rintro rfl
        exact hother d hd hq
      exact ⟨hcur, hsch, hst.trans (congrArg ownState (update_of_ne hqp ..).symm)⟩
    idle := by
      intro d hd
      by_cases hdc : d = c
      · rw [hdc, hhere]
        exact hcurrent
      · rw [suspend_running_ne hdc] at hd
        rw [suspend_here_ne hdc (hother d hdc)]
        exact hs.idle d hd
    target := by
      intro d q hq
      by_cases hd : d = c
      · rw [hd, hhere] at hq
        cases hq
      · rw [suspend_here_ne hd (hother d hd)] at hq
        rw [suspend_running_ne hd]
        refine ⟨(hs.target d q hq).1, ?_⟩
        intro e he
        by_cases hec : e = c
        · rw [hec, suspend_running_self] at he
          cases he
        · rw [suspend_running_ne hec] at he
          exact (hs.target d q hq).2 e he
    back := by
      intro d q hdtarget hq
      by_cases hd : d = c
      · rw [hd, hhere] at hq
        cases hq
        change (s.proc p).state ≠ .running
        rw [hstate]
        exact hown
      · rw [suspend_here_ne hd (hother d hd)] at hq hdtarget
        exact hs.back d q hdtarget hq
    run := by
      intro q hq
      obtain ⟨e, he⟩ := hs.run q hq
      have hec : e ≠ c := by
        rintro rfl
        obtain he | he := he
        · rw [hrun] at he
          cases he
          exact hown (hstate.symm.trans hq)
        · exact none_elim (hs.target e q he).1 hrun
      exact ⟨e, by rw [suspend_running_ne hec, suspend_here_ne hec (hother e hec)]; exact he⟩
    saved := by
      intro q hq hlive
      by_cases hqp : q = p
      · rw [hqp] at hlive ⊢
        change (update s.pc p next p).Resumable
        rw [update_self]
        obtain hzombie | hres := hnext
        · change Live (s.proc p).state at hlive
          rw [hstate, hzombie] at hlive
          cases hlive
        · exact hres
      · change (update s.pc p next q).Resumable
        rw [update_of_ne hqp]
        refine hs.saved q ?_ hlive
        intro e he
        by_cases hec : e = c
        · rw [hec, hrun] at he
          cases he
          exact hqp rfl
        · exact hq e (by rw [suspend_running_ne hec]; exact he)
    sees := by
      intro d q st hq
      by_cases hd : d = c
      · rw [hd, hhere] at hq
        cases hq
      · rw [suspend_here_ne hd (hother d hd)] at hq
        exact hs.sees d q st hq
    creating := by
      intro t q r ht
      obtain ⟨hused, hres⟩ := hs.creating t q r (hkeep t r q ht)
      have hqp : q ≠ p := by
        rintro rfl
        exact hs.running_ne_of_used hused c hrun
      refine ⟨hused, fun hr => ?_⟩
      change (update s.pc p next q).Resumable
      rw [update_of_ne hqp]
      exact hres hr
    creator := fun t u q r r' ht hu => hs.creator t u q r r' (hkeep t r q ht) (hkeep u r' q hu) }

variable {i : Fin NPROC}

/-- The context of a slot under creation is set up. -/
theorem setContext (hused : (s.proc i).state = .used) (entry : K) : Exclusive (s.setContext i entry) := by
  have hnot := hs.running_ne_of_used hused
  have hhere := hs.here_setContext hused entry
  have hcreating : ∀ t r q, ((s.setContext i entry).point t).creating = some (q, r) →
      (s.point t).creating = some (q, r) := by
    intro t r q ht
    rw [setContext_point] at ht
    split at ht
    · cases ht
    · exact ht
  exact {
    wf := by
      intro t
      rw [setContext_point]
      split
      · trivial
      · exact hs.wf t
    thread := hs.thread
    slot := fun j d => by rw [hhere]; exact hs.slot j d
    wait := fun d => by rw [hhere]; exact hs.wait d
    own := by
      intro d p hp
      obtain ⟨hcur, hsch, hst⟩ := hs.own d p hp
      have hpi : p ≠ i := by
        rintro rfl
        exact hnot d hp
      exact ⟨hcur, hsch, hst.trans (congrArg ownState (update_of_ne hpi ..).symm)⟩
    idle := fun d hd => by rw [hhere]; exact hs.idle d hd
    target := fun d q hq => by rw [hhere] at hq; exact hs.target d q hq
    back := fun d q ht hq => by rw [hhere] at ht hq; exact hs.back d q ht hq
    run := by
      intro p hp
      obtain ⟨d, hd⟩ := hs.run p hp
      exact ⟨d, by rw [hhere]; exact hd⟩
    saved := by
      intro p hp hlive
      change (update s.pc i (.forkret entry) p).Resumable
      rw [update_apply]
      split
      · trivial
      · exact hs.saved p hp hlive
    sees := fun d q st hq => by rw [hhere] at hq; exact hs.sees d q st hq
    creating := by
      intro t q r ht
      obtain ⟨hstate, hres⟩ := hs.creating t q r (hcreating t r q ht)
      refine ⟨hstate, fun hr => ?_⟩
      change (update s.pc i (.forkret entry) q).Resumable
      rw [update_apply]
      split
      · trivial
      · exact hres hr
    creator := fun t u q r r' ht hu => hs.creator t u q r r' (hcreating t r q ht) (hcreating u r' q hu) }

variable {s₁ : Machine C L D K}

/-- A thread moves and no slot changes its state. -/
theorem advance (hrunning : s₁.running = s.running) (hpc : s₁.pc = s.pc) (hsched : s₁.sched = s.sched)
    (hcurrent : s₁.current = s.current) (hstate : ∀ i, (s₁.proc i).state = (s.proc i).state)
    (hlocks : LocksMove s c next s₁.lock) (hmoves : (s.here c).Moves (s.running c) next)
    (hsees : ∀ q st, next.sees = some (q, st) → (s.proc q).state = st) (hnext : next.current = (s.here c).current) :
    Exclusive (s₁.moveTo c next) := by
  refine hs.of_moved (.of_current hs hrunning hpc hsched hcurrent hnext hlocks)
    (.of_moves hs hmoves ?_ ?_ fun _ => .inr hnext)
  · intro i
    rw [moveTo_proc]
    exact .inl (hstate i)
  · intro q st hq
    rw [moveTo_proc, hstate]
    exact hsees q st hq

omit [DecidableEq C] in
/-- A CPU without locks executes a process at a point that stands for no lock. -/
theorem unlocked (hfree : ∀ l, s.lock l ≠ some c) :
    (s.here c).slotLock (s.running c) = none ∧ (s.here c).holdsWait = false := by
  constructor
  · cases hslot : (s.here c).slotLock (s.running c) with
    | none => rfl
    | some i => exact absurd ((hs.slot i c).2 hslot) (hfree _)
  · cases hwait : (s.here c).holdsWait with
    | false => rfl
    | true => exact absurd ((hs.wait c).2 hwait) (hfree _)

/-- A process in the code of the client makes a step that changes no state. -/
theorem client_step {back : Option (Pc L K)} {k : K} (k' : K) (hhere : s.here c = .frame back k)
    (hrunning : s₁.running = s.running) (hpc : s₁.pc = s.pc) (hsched : s₁.sched = s.sched)
    (hcurrent : s₁.current = s.current) (hstate : ∀ i, (s₁.proc i).state = (s.proc i).state)
    (hlocks : LocksMove s c (.frame back k') s.lock → LocksMove s c (.frame back k') s₁.lock) :
    Exclusive (s₁.moveTo c (.frame back k')) := by
  obtain ⟨hmoves, hsame⟩ := frame_typed k' (hhere ▸ hs.here_wf c)
  obtain ⟨-, -, -, hsees, -, hnext⟩ := frame_annotations (s.running c) back k'
  rw [← hhere] at hmoves hsame
  refine hs.advance hrunning hpc hsched hcurrent hstate (hlocks (.same hs hsame)) hmoves
    (fun _ _ => none_elim hsees) ?_
  rw [hnext, hhere]
  exact (frame_annotations none back k).2.2.2.2.2.symm

/-- The effect of an assignment to a slot. -/
theorem write {f : (Fin NPROC → Proc) → Proc} (hcode : code (s.running c) (s.here c) = some (.write i f next)) :
    Exclusive ((s.setProc i (f s.proc)).moveTo c next) := by
  obtain ⟨hassigns, hwf, hlocks, hsees, hnext, hcurrent⟩ := code_typed (hs.here_wf c) hcode
  refine hs.of_moved (.of_current hs rfl rfl rfl rfl (hnext.trans hcurrent.symm) (.same hs hlocks))
    (.of_assigns hs hassigns hwf ?_ hnext ?_ ?_)
  · intro q st hq
    obtain ⟨rfl, hst⟩ := hsees q st hq
    rw [moveTo_proc, setProc_self]
    exact hst s.proc
  · intro j hj
    rw [moveTo_proc, setProc_ne _ _ hj]
  · rw [moveTo_proc, setProc_self]

/-- The effect of `allocpid`. -/
theorem allocpid (hcode : code (s.running c) (s.here c) = some (.allocpid i next)) :
    Exclusive (({ s with nextpid := s.nextpid + 1 }.setProc i
      { s.proc i with pid := s.nextpid, state := .used }).moveTo c next) := by
  obtain ⟨hsees, hnone, hcreating, hwf, hlocks, hnosees, hown, htarget, hnext, hcurrent⟩ :=
    code_typed (hs.here_wf c) hcode
  have hunused := hs.sees c i _ hsees
  have hnot : s.running c ≠ some i := by
    intro hc
    have hstate := (hs.own c i hc).2.2
    rw [hunused, ← here_of_running hc, ownState_of_sees hsees] at hstate
    cases hstate
  have hself : ((({ s with nextpid := s.nextpid + 1 }.setProc i
      { s.proc i with pid := s.nextpid, state := .used }).moveTo c next).proc i).state = .used := by
    rw [moveTo_proc, setProc_self]
  refine hs.of_moved (.of_current hs rfl rfl rfl rfl (hnext.trans hcurrent.symm) (.same hs hlocks))
    (.of_settle hs hnot (slotLock_of_sees hsees) hwf ?_ hnext ?_
      (by rw [hunused]; exact nofun) hown
      (.inl ⟨htarget, by rw [hself]; exact nofun⟩)
      (fun hlive => by rw [hself] at hlive; cases hlive)
      (fun hused => by rw [hunused] at hused; cases hused) ?_)
  · intro q st hq
    exact none_elim hnosees hq
  · intro j hj
    rw [moveTo_proc, setProc_ne _ _ hj]
  · intro q r hq
    rw [hcreating] at hq
    cases hq
    exact .inr ⟨rfl, rfl, (by rw [hunused]; exact nofun), hself⟩

/-- The effect of setting a context up. -/
theorem context (entry : K) (hcode : code (s.running c) (s.here c) = some (.context i next)) :
    Exclusive (((s.setContext i entry).setProc i
      { s.proc i with pagefaultCount := 0, vr := ⟨0, 0, false⟩ }).moveTo c next) := by
  obtain ⟨hold, hcreating, hslot, hwf, hlocks, hnosees, hown, htarget, hnext⟩ := code_typed (hs.here_wf c) hcode
  have hold' := hold
  rw [here_eq] at hold'
  obtain ⟨hused, -⟩ := hs.creating _ i _ hold'
  have hs₁ := hs.setContext hused entry
  have hhere := hs.here_setContext hused entry c
  have hsame : ∀ j, ((((s.setContext i entry).setProc i
      { s.proc i with pagefaultCount := 0, vr := ⟨0, 0, false⟩ }).moveTo c next).proc j).state =
      (s.proc j).state := by
    intro j
    rw [moveTo_proc]
    by_cases hj : j = i
    · rw [hj, setProc_self]
    · rw [setProc_ne _ _ hj]
      rfl
  refine hs₁.of_moved (.of_current hs₁ rfl rfl rfl rfl (by rw [hhere, hnext]) (.same hs₁ ?_))
    (.of_quiet hs₁ hwf (by rw [hhere, hown]) (by rw [hhere, htarget]) ?_ (fun j => .inl (hsame j)) ?_
      (fun _ => .inr (by rw [hhere, hnext])))
  · rw [hhere]
    exact hlocks
  · intro q r hq
    rw [hcreating] at hq
    cases hq
    refine ⟨false, by rw [hhere, hold], fun _ => ?_⟩
    change (update s.pc i (.forkret entry) i).Resumable
    rw [update_self]
    trivial
  · intro q st hq
    exact none_elim hnosees hq

end

omit [DecidableEq C] in
/-- A process without a slot lock runs. -/
theorem ownState_of_free (hrun : s.running c = some p)
    (hslot : (s.here c).slotLock (s.running c) = none) : (s.here c).ownState = .running := by
  have hne : (s.here c).slotLock (s.running c) ≠ s.running c := by
    rw [hslot, hrun]
    exact nofun
  exact ownState_of_slotLock hne

omit [DecidableEq C] in
/-- The state of a thread that is interrupted. -/
theorem ownState_of_interrupt (hslot : (s.here c).slotLock (s.running c) = none)
    (hidle : s.running c = none → s.sched c = .schedIdle ∨ ∃ rest, s.sched c = .schedScan rest) :
    (s.here c).ownState = .running := by
  cases hrun : s.running c with
  | some p => exact ownState_of_free hrun hslot
  | none =>
    rw [here_eq, s.thread_of_idle c hrun]
    change (s.sched c).ownState = .running
    obtain hsched | ⟨rest, hsched⟩ := hidle hrun <;> (rw [hsched]; rfl)

variable {client : Client L D K}

/-- Every step keeps the invariant. -/
theorem step [DecidableEq L] (hs : Exclusive s) {e : Event} {t : Machine C L D K} (h : Step client s e t) :
    Exclusive t := by
  cases h with
  | goto c next hcode =>
    obtain ⟨hmoves, hlocks, hsees, hnext⟩ := code_typed (hs.here_wf c) hcode
    exact hs.advance rfl rfl rfl rfl (fun _ => rfl) (.same hs hlocks) hmoves (fun _ _ => none_elim hsees) hnext
  | acquire c l next hcode hfree =>
    obtain ⟨hmoves, hlocks, hsees, hnext⟩ := code_typed (hs.here_wf c) hcode
    exact hs.advance rfl rfl rfl rfl (fun _ => rfl) (.acquire hs hfree hlocks) hmoves
      (fun _ _ => none_elim hsees) hnext
  | release c l next hcode hheld =>
    obtain ⟨hmoves, hlocks, hsees, hnext⟩ := code_typed (hs.here_wf c) hcode
    exact hs.advance rfl rfl rfl rfl (fun _ => rfl) (.release hs hheld hlocks) hmoves
      (fun _ _ => none_elim hsees) hnext
  | read c i next hcode =>
    obtain ⟨hmoves, hlocks, hsees, hnext⟩ := code_typed (hs.here_wf c) hcode (s.proc i)
    refine hs.advance rfl rfl rfl rfl (fun _ => rfl) (.same hs hlocks) hmoves ?_ hnext
    intro q st hq
    obtain ⟨rfl, hst⟩ | hold := hsees q st hq
    · exact hst.symm
    · exact hs.sees c q st hold
  | write c i f next hcode => exact hs.write hcode
  | any c value next hcode =>
    obtain ⟨hmoves, hlocks, hsees, hnext⟩ := code_typed (hs.here_wf c) hcode value
    exact hs.advance rfl rfl rfl rfl (fun _ => rfl) (.same hs hlocks) hmoves
      (fun q st hq => hs.sees c q st (hsees q st hq)) hnext
  | allocpid c i next hcode => exact hs.allocpid hcode
  | context c i next hcode => exact hs.context client.entry hcode
  | setCurrent c p next hcode =>
    obtain ⟨hme, hmoves, hlocks, hsees, hnext, htarget⟩ := code_typed (hs.here_wf c) hcode
    refine hs.of_moved (.of_moveTo rfl rfl rfl ?_ ?_ (.same hs hlocks))
      (.of_moves hs hmoves (fun i => .inl (by rw [moveTo_proc])) ?_ ?_)
    · intro d _
      rw [hnext]
      exact update_apply ..
    · intro d q hd
      refine update_of_ne ?_ ..
      rintro rfl
      exact none_elim hme hd
    · intro q st hq
      rw [moveTo_proc]
      exact hs.sees c q st (hsees q st hq)
    · intro hnone
      exact .inl (hnext.trans (htarget hnone))
  | swtch c q next hcode =>
    obtain ⟨hme, htarget, hcurrent, hsees, hwait, -, -, rest, rfl⟩ := code_typed (hs.here_wf c) hcode
    have hmove : s.moveTo c (.schedBack q rest) =
        { s with sched := update s.sched c (.schedBack q rest) } := by
      unfold moveTo
      rw [hme]
    rw [hmove]
    exact hs.resume hme htarget hcurrent hsees hwait
  | sched c p next hrun hcode hheld honly hstate =>
    obtain ⟨hslot, hwait, hwf, hcreating, hown, hnext⟩ := code_typed (hs.here_wf c) hcode
    have hmove : s.moveTo c next = { s with pc := update s.pc p next } := by
      unfold moveTo
      rw [hrun]
    rw [hmove]
    exact hs.suspend hrun (hslot.trans hrun) hwait (hrun ▸ hwf) hcreating hown hnext
  | clientAcquire c back l k k' hop hfree =>
    exact hs.client_step k' hop.here rfl rfl rfl rfl (fun _ => rfl) fun h => h.client l _
  | clientRelease c back l k k' hop hheld =>
    exact hs.client_step k' hop.here rfl rfl rfl rfl (fun _ => rfl) fun h => h.client l _
  | access c back d k k' hop => exact hs.client_step k' hop.here rfl rfl rfl rfl (fun _ => rfl) id
  | wakeup c back chan k k' hop =>
    have hhere := hop.here
    obtain ⟨hmoves, -⟩ := frame_typed k' (hhere ▸ hs.here_wf c)
    obtain ⟨hslot, hwait, hown, -, htarget, hcurrent⟩ := frame_annotations (s.running c) back k
    obtain ⟨hslot', hwait', hown', -⟩ := frame_annotations (s.running c) back k'
    refine hs.advance rfl rfl rfl rfl (fun _ => rfl) (.same hs ?_) ?_ nofun ?_
    · rw [hhere]
      exact ⟨hslot.symm, hwait'.trans hwait.symm⟩
    · rw [hhere]
      exact ⟨⟨hmoves.wf, hslot', hown'⟩, hown.symm, htarget.symm, hmoves.creating⟩
    · rw [hhere]
      exact hcurrent.symm
  | own c p op k k' hrun hpoint hnext =>
    have hhere : s.here c = .frame none k := (here_of_running hrun).trans hpoint
    refine hs.client_step k' hhere rfl rfl rfl rfl ?_ id
    intro i
    by_cases hi : i = p
    · rw [hi, setProc_self, (op.apply_fields _).1]
    · rw [setProc_ne _ _ hi]
  | call c p op k next hrun hpoint hnext hcall =>
    have hhere : s.here c = .client k := (here_of_running hrun).trans hpoint
    obtain ⟨hmoves, hlocks, hsees, hcurrent⟩ := Op.call_typed (s.running c) k hcall
    rw [← hhere] at hmoves hlocks
    exact hs.advance rfl rfl rfl rfl (fun _ => rfl) (.same hs hlocks) hmoves
      (fun _ _ => none_elim hsees) (by rw [hcurrent, hhere]; rfl)
  | timer c p hrun hfree =>
    obtain ⟨hslot, hwait⟩ := hs.unlocked hfree
    rw [← here_of_running hrun]
    exact hs.advance rfl rfl rfl rfl (fun _ => rfl) (.same hs ⟨hslot.symm, hwait.symm⟩)
      (.of_eq ⟨hs.here_wf c, hslot, hwait⟩ (ownState_of_free hrun hslot).symm (target_of_slotLock hslot).symm rfl)
      nofun (current_of_slotLock hslot).symm
  | interrupt c next hfree hidle hnext =>
    obtain ⟨hslot, hwait⟩ := hs.unlocked hfree
    have hown := ownState_of_interrupt hslot hidle
    cases hnext with
    | wakeup chan =>
      exact hs.advance rfl rfl rfl rfl (fun _ => rfl) (.same hs ⟨hslot.symm, rfl⟩)
        (.of_eq ⟨hs.here_wf c, hslot, hown⟩ hown.symm (target_of_slotLock hslot).symm rfl)
        nofun (current_of_slotLock hslot).symm
    | handler k hstart =>
      exact hs.advance rfl rfl rfl rfl (fun _ => rfl) (.same hs ⟨hslot.symm, hwait.symm⟩)
        (.of_eq ⟨hs.here_wf c, hslot, hwait, hown⟩ hown.symm (target_of_slotLock hslot).symm rfl)
        nofun (current_of_slotLock hslot).symm
  | iret c k back hpc hend =>
    have hwf := hs.here_wf c
    rw [hpc] at hwf
    obtain ⟨hback, hslot, hwait, hown⟩ := hwf
    refine hs.advance rfl rfl rfl rfl (fun _ => rfl) (.same hs ?_) ?_
      (fun _ _ => none_elim (sees_of_slotLock hslot)) ?_
    · rw [hpc]
      exact ⟨hslot, hwait⟩
    · rw [hpc]
      exact .of_eq hback hown (target_of_slotLock hslot) rfl
    · rw [hpc]
      exact current_of_slotLock hslot

omit [DecidableEq C] in
/-- The invariant holds after `userinit`. -/
theorem initial (h : Initial client s) : Exclusive s := by
  have hhere : ∀ c, s.here c = .schedIdle := by
    intro c
    exact h.here c
  have hpc : ∀ p, s.pc p = .forkret client.entry ∨ s.pc p = .dead := by
    intro p
    rw [h.pc]
    split
    · exact .inl rfl
    · exact .inr rfl
  have hcreating : ∀ t q r, (s.point t).creating ≠ some (q, r) := by
    intro t q r
    cases t with
    | sched c =>
      change (s.sched c).creating ≠ _
      rw [h.sched]
      exact nofun
    | proc p =>
      change (s.pc p).creating ≠ _
      obtain hp | hp := hpc p <;> (rw [hp]; exact nofun)
  obtain ⟨trapframe, pagetable, -, -, hfirst⟩ := h.first
  have hstate : ∀ p, (s.proc p).state = .runnable ∧ p = initproc ∨ (s.proc p).state = .unused := by
    intro p
    by_cases hp : p = initproc
    · exact .inl ⟨by rw [hp, hfirst], hp⟩
    · exact .inr (by rw [h.others p hp]; rfl)
  exact {
    wf := by
      intro t
      cases t with
      | sched c =>
        change (s.sched c).WF none
        rw [h.sched]
        trivial
      | proc p =>
        change (s.pc p).WF (some p)
        obtain hp | hp := hpc p <;> (rw [hp]; trivial)
    thread := thread_injective fun c d p hc => none_elim (h.running c) hc
    slot := fun i c => by rw [h.lock, hhere]; exact ⟨nofun, nofun⟩
    wait := fun c => by rw [h.lock, hhere]; exact ⟨nofun, nofun⟩
    own := fun c p hc => by rw [h.running] at hc; cases hc
    idle := fun c _ => by rw [h.current, hhere]; rfl
    target := fun c q hq => by rw [hhere] at hq; cases hq
    back := fun c q _ hq => by rw [hhere] at hq; cases hq
    run := by
      intro p hp
      obtain ⟨hr, -⟩ | hu := hstate p
      · rw [hr] at hp
        cases hp
      · rw [hu] at hp
        cases hp
    saved := by
      intro p _ hlive
      obtain ⟨-, hp⟩ | hu := hstate p
      · rw [h.pc, if_pos hp]
        trivial
      · rw [hu] at hlive
        cases hlive
    sees := fun c q st hq => by rw [hhere] at hq; cases hq
    creating := fun t q r ht => absurd ht (hcreating t q r)
    creator := fun t u q r r' ht _ => absurd ht (hcreating t q r) }

/-- The invariant holds in every reachable state. -/
theorem of_reachable [DecidableEq L] (h : Reachable client s) : Exclusive s := by
  obtain ⟨init, events, hinit, hrun⟩ := h
  exact hrun.invariant Exclusive (initial hinit) fun _ _ _ hs hstep => hs.step hstep

omit [DecidableEq C] in
/-- While the lock of its slot is free, a process is on a CPU exactly if the CPU executes it. -/
theorem current_iff_running (hs : Exclusive s) (hfree : s.lock (.proc p) = none) (c : C) :
    s.current c = some p ↔ s.running c = some p := by
  constructor
  · intro hcurrent
    cases hc : s.running c with
    | some q => rw [← (hs.own c q hc).1, hcurrent]
    | none =>
      rw [hs.idle c hc] at hcurrent
      exact none_elim hfree ((hs.slot p c).2 (slotLock_of_current hcurrent))
  · intro hc
    exact (hs.own c p hc).1

omit [DecidableEq C] in
/-- A CPU that executes a process and one that is about to resume it or has just left it are the same. -/
theorem current_unique (hs : Exclusive s) {d : C} (hc : s.current c = some p)
    (hd : s.current d = some p) : c = d := by
  -- An idle CPU with this `c->proc` has the slot locked.
  have hidle : ∀ e, s.current e = some p → s.running e = none →
      (s.here e).current = some p ∧ (s.here e).slotLock (s.running e) = some p := by
    intro e he hrun
    rw [hs.idle e hrun] at he
    exact ⟨he, slotLock_of_current he⟩
  -- It is not the CPU that executes the process.
  have hmixed : ∀ e f, s.running e = some p → s.current f = some p → s.running f = none → e = f := by
    intro e f he hf hrun
    obtain ⟨hcur, hslot⟩ := hidle f hf hrun
    cases htarget : (s.here f).target with
    | some q =>
      have hq : some q = some p := (slotLock_of_target htarget).symm.trans hslot
      cases hq
      exact absurd he ((hs.target f p htarget).2 e)
    | none => exact hs.slotLock_unique (hs.locked_of_state he (hs.back f p htarget hcur)) hslot
  have hbusy : ∀ e q, s.current e = some p → s.running e = some q → s.running e = some p := by
    intro e q he hq
    rw [(hs.own e q hq).1] at he
    rw [hq, he]
  cases hrc : s.running c with
  | some q =>
    have hrc := hbusy c q hc hrc
    cases hrd : s.running d with
    | some q' => exact hs.running_unique hrc (hbusy d q' hd hrd)
    | none => exact hmixed c d hrc hd hrd
  | none =>
    cases hrd : s.running d with
    | some q' => exact (hmixed d c (hbusy d q' hd hrd) hc hrc).symm
    | none => exact hs.slotLock_unique (hidle c hc hrc).2 (hidle d hd hrd).2

end Exclusive

/-- In every reachable state a process whose lock is free is `RUNNING` exactly if it is on one CPU, no
two CPUs execute one process or have it in `c->proc`, and an `UNUSED` or `ZOMBIE` process whose lock is
free is on no CPU. -/
theorem process_exclusivity [DecidableEq L] (client : Client L D K) (s : Machine C L D K) (h : Reachable client s) :
    (∀ p, s.lock (.proc p) = none → ((s.proc p).state = .running ↔ ∃! c, s.current c = some p)) ∧
    (∀ p c d, (s.running c = some p ∨ s.current c = some p) →
      (s.running d = some p ∨ s.current d = some p) → c = d) ∧
    (∀ p, s.lock (.proc p) = none → (s.proc p).state = .unused ∨ (s.proc p).state = .zombie →
      ∀ c, s.current c ≠ some p ∧ s.running c ≠ some p) := by
  have hs := Exclusive.of_reachable h
  -- A process that executes with its lock free is in the state `RUNNING`.
  have hrunning : ∀ p c, s.lock (.proc p) = none → s.running c = some p → (s.proc p).state = .running := by
    intro p c hfree hc
    by_contra hstate
    exact none_elim hfree ((hs.slot p c).2 (hs.locked_of_state hc hstate))
  have hcurrent : ∀ p c, s.running c = some p ∨ s.current c = some p → s.current c = some p := by
    intro p c hc
    exact hc.elim (fun hrun => (hs.own c p hrun).1) id
  refine ⟨?_, ?_, ?_⟩
  · intro p hfree
    constructor
    · intro hstate
      obtain ⟨c, hc | htarget⟩ := hs.run p hstate
      · exact ⟨c, (hs.own c p hc).1, fun d hd => hs.current_unique hd (hs.own c p hc).1⟩
      · exact none_elim hfree ((hs.slot p c).2 (slotLock_of_target htarget))
    · intro ⟨c, hc, _⟩
      exact hrunning p c hfree ((hs.current_iff_running hfree c).1 hc)
  · intro p c d hc hd
    exact hs.current_unique (hcurrent p c hc) (hcurrent p d hd)
  · intro p hfree hstate c
    have hnot : s.running c ≠ some p := by
      intro hc
      rw [hrunning p c hfree hc] at hstate
      obtain hstate | hstate := hstate <;> cases hstate
    exact ⟨fun hc => hnot ((hs.current_iff_running hfree c).1 hc), hnot⟩

/-- The first process runs on one of three CPUs and its child on another one, and on no other. -/
theorem process_exclusivity_child :
    ∃ s : Machine Hart Empty Unit (Option (ℕ × ℤ)), Reachable family s ∧ s.running .zero = some initproc ∧
      s.running .one = some child ∧ (s.proc child).state = .running ∧ (∃! c, s.current c = some child) ∧
      s.current .two ≠ some child := by
  obtain ⟨events, s, hinit, hrun, hfirst, hsecond, hfree, hstate⟩ := exists_family childRuns
    (fun s => s.running .zero = some initproc ∧ s.running .one = some child ∧ s.lock (.proc child) = none ∧
      (s.proc child).state = .running) (by decide +kernel)
  have hreach : Reachable family s := ⟨_, events, hinit, hrun⟩
  obtain ⟨hiff, honce, -⟩ := process_exclusivity family s hreach
  refine ⟨s, hreach, hfirst, hsecond, hstate, (hiff child hfree).1 hstate, fun h => ?_⟩
  exact absurd (honce child .one .two (.inl hsecond) (.inr h)) (by decide)

/-- A thread that is about to take a lock holds no slot lock. -/
theorem slotLock_of_acquire {me : Option (Fin NPROC)} {pc : Pc L K} {l : Lock L}
    (h : code me pc = some (.acquire l next)) : pc.slotLock me = none := by
  cases me <;> cases pc <;> first | rfl | cases h

/-- An instruction that takes a lock. -/
theorem acquire_of_takes {instr : Instr L K} {l : Lock L} (h : instr.takes = some l) :
    ∃ next, instr = .acquire l next := by
  cases instr with
  | acquire l' next =>
    cases h
    exact ⟨next, rfl⟩
  | _ => cases h

omit [DecidableEq C] in
/-- A CPU that is about to take a lock holds no slot lock, and not the lock that it takes. -/
theorem Exclusive.acquire {l : Lock L} (hs : Exclusive s)
    (hcode : code (s.running c) (s.here c) = some (.acquire l next)) :
    (∀ i, s.lock (.proc i) ≠ some c) ∧ (l = .wait → s.lock .wait ≠ some c) := by
  constructor
  · intro i hi
    have hslot := (hs.slot i c).1 hi
    rw [slotLock_of_acquire hcode] at hslot
    cases hslot
  · rintro rfl hwait
    have hfree := (code_typed (hs.here_wf c) hcode).2.1.1
    rw [(hs.wait c).1 hwait] at hfree
    cases hfree

/-- CPU `c` waits for a slot lock or `wait_lock`, which CPU `d` holds. -/
def Waits (s : Machine C L D K) (c d : C) : Prop :=
  ∃ instr l, code (s.running c) (s.here c) = some instr ∧ instr.takes = some l ∧ (∀ l', l ≠ .client l') ∧
    s.lock l = some d

omit [DecidableEq C] in
/-- The locks are taken in order, `wait_lock` before the locks of slots: a CPU for which another one waits,
waits for a slot lock. -/
theorem Waits.slot {d e : C} (hs : Exclusive s) (hc : s.Waits c d) (hd : s.Waits d e) :
    ∃ i, s.lock (.proc i) = some e := by
  obtain ⟨-, l, -, -, hclient, hl⟩ := hc
  obtain ⟨instr, l', hcode, htakes, hclient', hl'⟩ := hd
  obtain ⟨next, rfl⟩ := acquire_of_takes htakes
  obtain ⟨hslot, hwait⟩ := hs.acquire hcode
  cases l' with
  | proc i => exact ⟨i, hl'⟩
  | client l' => exact absurd rfl (hclient' l')
  | wait =>
    cases l with
    | proc i => exact absurd hl (hslot i)
    | client l => exact absurd rfl (hclient l)
    | wait => exact absurd hl (hwait rfl)

/-- A CPU that holds a slot lock waits for no slot lock and not for `wait_lock`: in every reachable state at most
two CPUs in a row wait for such locks, and no circle of CPUs does. -/
theorem no_lock_circle [DecidableEq L] (client : Client L D K) (s : Machine C L D K) (h : Reachable client s)
    (c d e f : C) :
    ¬(s.Waits c d ∧ s.Waits d e ∧ s.Waits e f) := by
  rintro ⟨hc, hd, instr, l, hcode, htakes, -⟩
  obtain ⟨next, rfl⟩ := acquire_of_takes htakes
  have hs := Exclusive.of_reachable h
  obtain ⟨i, hi⟩ := hc.slot hs hd
  exact (hs.acquire hcode).1 i hi

/-- The child is about to exit and wants `wait_lock`, which its parent holds in `kwait`; the parent wants the
lock of the child, which a scheduler holds that looks at its slot. -/
def lockChain : List (Hart × ℕ) :=
  childRuns ++ (.one, 9) :: .replicate 5 (.two, 0) ++ .replicate 4 (.zero, 1)

theorem exists_lockChain : ∃ (s : Machine Hart Empty Unit (Option (ℕ × ℤ))) (i₀ i₁ : Instr Empty (Option (ℕ × ℤ))),
    Reachable family s ∧ code (s.running .zero) (s.here .zero) = some i₀ ∧ i₀.takes = some (.proc child) ∧
      code (s.running .one) (s.here .one) = some i₁ ∧ i₁.takes = some .wait ∧
      s.lock (.proc child) = some .two ∧ s.lock .wait = some .zero := by
  obtain ⟨events, s, hinit, hrun, h₀, h₁, hchild, hwait⟩ := exists_family lockChain
    (fun s => (code (s.running .zero) (s.here .zero)).bind Instr.takes = some (.proc child) ∧
      (code (s.running .one) (s.here .one)).bind Instr.takes = some .wait ∧ s.lock (.proc child) = some .two ∧
      s.lock .wait = some .zero) (by decide +kernel)
  obtain ⟨i₀, hcode₀, htakes₀⟩ := Option.bind_eq_some_iff.1 h₀
  obtain ⟨i₁, hcode₁, htakes₁⟩ := Option.bind_eq_some_iff.1 h₁
  exact ⟨s, i₀, i₁, ⟨_, events, hinit, hrun⟩, hcode₀, htakes₀, hcode₁, htakes₁, hchild, hwait⟩

/-- Two CPUs wait in a row, and the third one waits for nobody. -/
theorem no_lock_circle_chain :
    ∃ s : Machine Hart Empty Unit (Option (ℕ × ℤ)), Reachable family s ∧ s.Waits .one .zero ∧ s.Waits .zero .two ∧
      ∀ c, ¬s.Waits .two c := by
  obtain ⟨s, i₀, i₁, hreach, hcode₀, htakes₀, hcode₁, htakes₁, hchild, hwait⟩ := exists_lockChain
  have hfirst : s.Waits .one .zero := ⟨i₁, .wait, hcode₁, htakes₁, nofun, hwait⟩
  have hsecond : s.Waits .zero .two := ⟨i₀, .proc child, hcode₀, htakes₀, nofun, hchild⟩
  exact ⟨s, hreach, hfirst, hsecond, fun c h => no_lock_circle family s hreach .one .zero .two c ⟨hfirst, hsecond, h⟩⟩

/-- What `acquire`, `release` and `sched` check of slot locks and `wait_lock`. -/
def Checks (s : Machine C L D K) (c : C) : Instr L K → Prop
  | .acquire l _ => (∀ l', l ≠ .client l') → s.lock l ≠ some c
  | .release l _ => (∀ l', l ≠ .client l') → s.lock l = some c
  | .sched _ => ∃ p, s.running c = some p ∧ s.lock (.proc p) = some c ∧ (s.proc p).state ≠ .running ∧
      s.lock .wait ≠ some c ∧ ∀ i, s.lock (.proc i) = some c → i = p
  | _ => True

/-- In every reachable state no CPU takes a slot lock or `wait_lock` that it holds or gives back one that it
does not hold, and a process calls `sched` with its own lock only, when it has left the state `RUNNING`. -/
theorem checks_pass [DecidableEq L] (client : Client L D K) (s : Machine C L D K) (h : Reachable client s) (c : C)
    (instr : Instr L K) (hcode : code (s.running c) (s.here c) = some instr) : s.Checks c instr := by
  have hs := Exclusive.of_reachable h
  have htyped := code_typed (hs.here_wf c) hcode
  cases instr with
  | acquire l next =>
    intro hclient
    cases l with
    | proc i => exact (hs.acquire hcode).1 i
    | wait => exact (hs.acquire hcode).2 rfl
    | client l => exact absurd rfl (hclient l)
  | release l next =>
    intro hclient
    cases l with
    | proc i => exact (hs.slot i c).2 htyped.2.1.2.1
    | wait => exact (hs.wait c).2 htyped.2.1.2.1
    | client l => exact absurd rfl (hclient l)
  | sched next =>
    obtain ⟨hslot, hwait, -, -, hown, -⟩ := htyped
    cases hrun : s.running c with
    | none =>
      -- The scheduler does not call `sched`.
      rw [hrun] at hcode
      cases hpc : s.here c <;> rw [hpc] at hown hcode <;> first | exact absurd rfl hown | cases hcode
    | some p =>
      have hlock : ∀ i, s.lock (.proc i) = some c ↔ some p = some i := by
        intro i
        rw [hs.slot, hslot, hrun]
      refine ⟨p, hrun, (hlock p).2 rfl, ?_, ?_, fun i hi => (Option.some.inj ((hlock i).1 hi)).symm⟩
      · rw [(hs.own c p hrun).2.2, ← Exclusive.here_of_running hrun]
        exact hown
      · intro hheld
        rw [(hs.wait c).1 hheld] at hwait
        cases hwait
  | _ => trivial

/-- The parent, which holds `wait_lock`, is about to take the lock of its child, which it does not hold. -/
theorem checks_pass_chain :
    ∃ (s : Machine Hart Empty Unit (Option (ℕ × ℤ))) (instr : Instr Empty (Option (ℕ × ℤ))),
      Reachable family s ∧ s.lock .wait = some .zero ∧ code (s.running .zero) (s.here .zero) = some instr ∧
      instr.takes = some (.proc child) ∧ s.Checks .zero instr := by
  obtain ⟨s, i₀, -, hreach, hcode, htakes, -, -, -, hwait⟩ := exists_lockChain
  exact ⟨s, i₀, hreach, hwait, hcode, htakes, checks_pass family s hreach .zero i₀ hcode⟩

end Xv6.Sched.Machine
