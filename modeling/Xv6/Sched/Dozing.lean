import Xv6.Sched.Sleeping

/-!
# Who sleeps on a channel

A process falls asleep on a channel only in `sleep`, where it has given the lock back while it holds the
lock of its slot; and `wakeup` on the channel leaves nobody asleep at whose slot it has looked.
-/

namespace Xv6.Sched.Machine

open Function Library

variable {C L D K : Type} [DecidableEq C]

/-- The process is about to sleep on the channel with the lock, or it does. -/
def Dozes (s : Machine C L D K) (l : L) (p : Fin NPROC) (chan : ℕ) : Prop :=
  (∃ c, s.running c = some p ∧ (s.pc p).nods = some (chan, .client l)) ∨
    (s.proc p).state = .sleeping ∧ (s.proc p).chan = chan ∧ (s.pc p).dozes = some (.client l)

variable {l : L} {s t : Machine C L D K} {c d : C} {next : Pc L K} {p : Fin NPROC} {chan : ℕ}

/-- The point of a process that moves. -/
theorem pc_of_goes (hgoes : Goes s c next t) (hp : s.running c = some p) : t.pc p = next := by
  rw [← hgoes.here_self, Exclusive.here_of_running (by rw [hgoes.running]; exact hp)]

/-- A process that sleeps after a move of another one, or of one that does not go to sleep, did so before. -/
theorem dozes_of_goes (hgoes : Goes s c next t)
    (hawake : ∀ p, s.running c = some p →
      (∀ chan, next.nods ≠ some (chan, .client l)) ∧ next.dozes ≠ some (.client l))
    (hsleep : ∀ p, s.running c ≠ some p → (t.proc p).state = .sleeping →
      (s.proc p).state = .sleeping ∧ (t.proc p).chan = (s.proc p).chan)
    (h : t.Dozes l p chan) : s.running c ≠ some p ∧ s.Dozes l p chan := by
  have hne : s.running c ≠ some p := by
    intro hp
    unfold Dozes at h
    rw [pc_of_goes hgoes hp] at h
    obtain ⟨-, -, hnods⟩ | ⟨-, -, hdozes⟩ := h
    · exact (hawake p hp).1 chan hnods
    · exact (hawake p hp).2 hdozes
  refine ⟨hne, ?_⟩
  unfold Dozes at h
  rw [hgoes.running, hgoes.pc_of_ne hne] at h
  obtain hnods | ⟨hstate, hchan, hdozes⟩ := h
  · exact .inl hnods
  · obtain ⟨hstate, hsame⟩ := hsleep p hne hstate
    exact .inr ⟨hstate, hsame ▸ hchan, hdozes⟩

/-- Awake processes do not sleep with the lock. -/
theorem awake_lock {me : Option (Fin NPROC)} (h : next.Awake me) (p : Fin NPROC) (hp : me = some p) :
    (∀ chan, next.nods ≠ some (chan, .client l)) ∧ next.dozes ≠ some (.client l) := by
  obtain ⟨hnods, hdozes⟩ := h p hp
  rw [hnods, hdozes]
  exact ⟨nofun, nofun⟩

section

variable (hs : Exclusive s)

include hs

variable {lk : Lock L}

omit [DecidableEq C] in
/-- A process that `wakeup` looks at is not about to set its state. -/
theorem nods_of_tests {chan' : ℕ} (htests : (s.here c).tests = some (chan, p))
    (hc : s.running c ≠ some p) (hd : s.running d = some p) (hnods : (s.pc p).nods = some (chan', lk)) : False := by
  have hslot : (s.here d).slotLock (s.running d) = some p := by
    rw [Exclusive.here_of_running hd, Pc.slotLock_of_nods hnods, hd]
  have hdc := hs.slotLock_unique (Pc.slotLock_of_tests htests) hslot
  rw [← hdc] at hd
  exact hc hd

variable {i : Fin NPROC}

/-- Who dozes after an assignment did so before. The assignment was not his, unless he has given the lock
back, and not that of a `wakeup` on the channel. -/
theorem dozes_write {f : (Fin NPROC → Proc) → Proc} (hcode : code (s.running c) (s.here c) = some (.write i f next))
    (hgoes : Goes s c next t) (hproc : t.proc = update s.proc i (f s.proc)) (hp : t.Dozes l p chan) :
    s.Dozes l p chan ∧ ((s.here c).released ≠ some (.client l) →
      s.running c ≠ some p ∧ (s.here c).tests ≠ some (chan, p)) := by
  obtain ⟨-, -, hnods, hwrites⟩ := code_monitored (hs.here_wf c) hcode
  have hself : t.proc i = f s.proc := by rw [hproc, update_self]
  have hothers : ∀ j, j ≠ i → t.proc j = s.proc j := fun j hj => by rw [hproc, update_of_ne hj]
  cases hwrites with
  | awake hawake hsleep =>
    have hquiet : next.Awake (s.running c) := fun p hp => ⟨hnods p hp, hawake⟩
    obtain ⟨hne, hold⟩ := dozes_of_goes hgoes (awake_lock hquiet)
      (fun j hj hstate => by
        by_cases hji : j = i
        · rw [hji] at hj hstate ⊢
          rw [hself] at hstate ⊢
          obtain ⟨hold, hchan, -⟩ := hsleep s.proc hstate hj
          exact ⟨hold, hchan⟩
        · rw [hothers j hji] at hstate ⊢
          exact ⟨hstate, rfl⟩) hp
    refine ⟨hold, fun _ => ⟨hne, fun htests => ?_⟩⟩
    obtain ⟨d, hd, hnods⟩ | ⟨hstate, hchan, hdozes⟩ := hp
    · rw [hgoes.running] at hd
      rw [hgoes.pc_of_ne hne] at hnods
      exact nods_of_tests hs htests hne hd hnods
    · obtain ⟨f', next', heq⟩ := write_of_tests hcode htests
      cases heq
      rw [hself] at hstate hchan
      obtain ⟨-, hsame, htested⟩ := hsleep s.proc hstate hne
      exact htested chan htests (hsame ▸ hchan)
  | doze hme chan' lk hpc hdozes hchan =>
    -- The process falls asleep on the channel on which it was about to.
    by_cases hpi : p = i
    · subst hpi
      have hpcp : s.pc p = s.here c := (Exclusive.here_of_running hme).symm
      unfold Dozes at hp
      rw [pc_of_goes hgoes hme, hself, hchan] at hp
      obtain ⟨-, -, hnow⟩ | ⟨-, hnow, hlk⟩ := hp
      · rw [hnods p hme] at hnow
        cases hnow
      · rw [hdozes] at hlk
        cases hlk
        refine ⟨.inl ⟨c, hme, ?_⟩, fun h => absurd (Pc.released_of_nods hpc) h⟩
        rw [hpcp, hpc, hnow]
    · have hne : s.running c ≠ some p := fun h => hpi (Option.some.inj (h.symm.trans hme))
      refine ⟨?_, fun _ => ⟨hne, ?_⟩⟩
      · unfold Dozes at hp ⊢
        rwa [hgoes.running, hgoes.pc_of_ne hne, hothers p hpi] at hp
      · rw [Pc.tests_of_nods hpc]
        exact nofun

/-- Who dozes after a lock was given back did so before, or has given the lock back in `sleep`. -/
theorem dozes_release (hcode : code (s.running c) (s.here c) = some (.release lk next)) (hgoes : Goes s c next t)
    (hproc : t.proc = s.proc) (hp : t.Dozes l p chan) : s.running c ≠ some p ∧ s.Dozes l p chan ∨
      lk = .client l ∧ s.running c = some p ∧ (s.here c).sleeps = some (chan, .client l) := by
  obtain ⟨-, hdozes, hcase⟩ := code_monitored (hs.here_wf c) hcode
  by_cases hpc : s.running c = some p
  · unfold Dozes at hp
    rw [pc_of_goes hgoes hpc, hdozes] at hp
    obtain ⟨-, -, hnow⟩ | ⟨-, -, hnow⟩ := hp
    · obtain ⟨⟨chan', hsleeps, hnods⟩, -⟩ | ⟨-, -, hawake⟩ := hcase
      · rw [hnods] at hnow
        cases hnow
        exact .inr ⟨rfl, hpc, hsleeps⟩
      · exact none_elim (hawake p hpc).1 hnow
    · cases hnow
  · refine .inl ⟨hpc, ?_⟩
    unfold Dozes at hp ⊢
    rwa [hgoes.running, hgoes.pc_of_ne hpc, hproc] at hp

/-- Who dozes after an instruction did so before, or has given the lock back in `sleep`. -/
theorem dozes_code {instr : Instr L K}
    (hcode : code (s.running c) (s.here c) = some instr) (hnext : instr.Next s.proc next)
    (hgoes : Goes s c next t) (hproc : t.proc = instr.effect s.nextpid s.proc) (hp : t.Dozes l p chan) :
    (s.Dozes l p chan ∧ ((s.here c).released ≠ some (.client l) →
      s.running c ≠ some p ∧ (s.here c).tests ≠ some (chan, p))) ∨
    instr = .release (.client l) next ∧ s.running c = some p ∧
      (s.here c).sleeps = some (chan, .client l) := by
  have htests : (∀ i f next, instr ≠ .write i f next) → (s.here c).tests ≠ some (chan, p) := by
    intro hwrite h
    obtain ⟨f, next', heq⟩ := write_of_tests hcode h
    exact hwrite _ f next' heq
  have hquiet : (∀ i f next, instr ≠ .write i f next) → next.Awake (s.running c) →
      (∀ i, (t.proc i).state = .sleeping → (s.proc i).state = .sleeping ∧ (t.proc i).chan = (s.proc i).chan) →
      s.Dozes l p chan ∧ ((s.here c).released ≠ some (.client l) →
        s.running c ≠ some p ∧ (s.here c).tests ≠ some (chan, p)) := by
    intro hwrite hawake hsleep
    obtain ⟨hne, hold⟩ := dozes_of_goes hgoes (awake_lock hawake) (fun i _ => hsleep i) hp
    exact ⟨hold, fun _ => ⟨hne, htests hwrite⟩⟩
  have hsame : t.proc = s.proc → ∀ i, (t.proc i).state = .sleeping →
      (s.proc i).state = .sleeping ∧ (t.proc i).chan = (s.proc i).chan := by
    intro hproc
    rw [hproc]
    exact fun i h => ⟨h, rfl⟩
  have hmon := code_monitored (hs.here_wf c) hcode
  cases instr with
  | goto next' | setCurrent _ next' =>
    cases hnext
    exact .inl (hquiet nofun hmon.2.2 (hsame hproc))
  | acquire lk next' =>
    cases hnext
    exact .inl (hquiet nofun hmon.2.1 (hsame hproc))
  | read i next' =>
    cases hnext
    exact .inl (hquiet nofun (hmon (s.proc i)).2.2 (hsame hproc))
  | any next' =>
    obtain ⟨value, rfl⟩ := hnext
    exact .inl (hquiet nofun (hmon value).2.2 (hsame hproc))
  | allocpid i next' =>
    cases hnext
    refine .inl (hquiet nofun hmon.2.2 ?_)
    intro j hstate
    have hproc : t.proc = update s.proc i { s.proc i with pid := s.nextpid, state := .used } := hproc
    by_cases hj : j = i
    · rw [hproc, hj, update_self] at hstate
      cases hstate
    · rw [hproc, update_of_ne hj] at hstate ⊢
      exact ⟨hstate, rfl⟩
  | write i f next' =>
    cases hnext
    exact .inl (dozes_write hs hcode hgoes hproc hp)
  | release lk next' =>
    cases hnext
    obtain ⟨hne, hold⟩ | ⟨rfl, hrest⟩ := dozes_release hs hcode hgoes hproc hp
    · exact .inl ⟨hold, fun _ => ⟨hne, htests nofun⟩⟩
    · exact .inr ⟨rfl, hrest⟩
  | context | swtch | sched => exact absurd hnext id

omit [DecidableEq C] in
/-- Setting the context of a new process up puts nobody to sleep. -/
theorem dozes_setContext (hused : (s.proc i).state = .used) {entry : K}
    (hp : (s.setContext i entry).Dozes l p chan) : s.Dozes l p chan := by
  have hpi : p ≠ i := by
    rintro rfl
    obtain ⟨d, hd, -⟩ | ⟨hstate, -⟩ := hp
    · exact hs.running_ne_of_used hused d hd
    · change (s.proc p).state = .sleeping at hstate
      rw [hused] at hstate
      cases hstate
  have hpc : (s.setContext i entry).pc p = s.pc p := update_of_ne hpi ..
  unfold Dozes at hp ⊢
  rwa [hpc] at hp

/-- Who dozes after the context of a new process was set up did so before. -/
theorem dozes_context {entry : K} (hcode : code (s.running c) (s.here c) = some (.context i next))
    (hgoes : Goes (s.setContext i entry) c next t)
    (hproc : t.proc = update s.proc i { s.proc i with pagefaultCount := 0, vr := ⟨0, 0, false⟩ })
    (hp : t.Dozes l p chan) : s.running c ≠ some p ∧ (s.setContext i entry).Dozes l p chan := by
  obtain ⟨-, -, hawake⟩ := code_monitored (hs.here_wf c) hcode
  refine dozes_of_goes hgoes (awake_lock hawake) ?_ hp
  intro j _ hstate
  rw [hproc] at hstate ⊢
  exact ⟨(field_update Proc.state (by rfl) j).symm.trans hstate, field_update Proc.chan (by rfl) j⟩

end

/-- A process that can be resumed is not about to set its state. -/
theorem nods_of_resumable {pc : Pc L K} (h : pc.Resumable) : pc.nods = none := by
  cases pc <;> first | rfl | cases h

variable {q : Fin NPROC}

/-- Nobody falls asleep when a scheduler resumes a process. -/
theorem dozes_resume (hs : Exclusive s) (hcode : code (s.running c) (s.here c) = some (.swtch q next))
    (hp : (s.resume c q next).Dozes l p chan) : s.Dozes l p chan := by
  obtain ⟨d, hd, hnods⟩ | hdozes := hp
  · by_cases hdc : d = c
    · rw [hdc, resume_running_self] at hd
      cases hd
      change (s.pc p).nods = _ at hnods
      exact none_elim (nods_of_resumable (hs.resumable hcode)) hnods
    · rw [resume_running_ne hdc] at hd
      exact .inl ⟨d, hd, hnods⟩
  · exact .inr hdozes

/-- Nobody falls asleep when a process switches to the scheduler. -/
theorem dozes_suspend (hs : Exclusive s) (hcode : code (s.running c) (s.here c) = some (.sched next))
    (hrun : s.running c = some q) (hp : (s.suspend c q next).Dozes l p chan) : s.Dozes l p chan := by
  obtain ⟨-, -, hdozes⟩ := code_monitored (hs.here_wf c) hcode
  obtain ⟨d, hd, hnods⟩ | ⟨hstate, hchan, hlk⟩ := hp
  · by_cases hdc : d = c
    · rw [hdc, suspend_running_self] at hd
      cases hd
    · rw [suspend_running_ne hdc] at hd
      have hpq : p ≠ q := fun h => hdc (hs.running_unique (h ▸ hd) hrun)
      refine .inl ⟨d, hd, ?_⟩
      rwa [← (update_of_ne hpq next s.pc : update s.pc q next p = s.pc p)]
  · refine .inr ⟨hstate, hchan, ?_⟩
    change (update s.pc q next p).dozes = _ at hlk
    by_cases hpq : p = q
    · rw [hpq, update_self, hdozes, Exclusive.here_of_running hrun] at hlk
      rwa [hpq]
    · rwa [update_of_ne hpq] at hlk

/-- Nobody falls asleep in a step of the client. -/
theorem dozes_client (hgoes : Goes s c next t) (hawake : next.Awake (s.running c))
    (hsleep : ∀ i, (t.proc i).state = (s.proc i).state ∧ (t.proc i).chan = (s.proc i).chan)
    (p : Fin NPROC) (chan : ℕ) (h : t.Dozes l p chan) : s.Dozes l p chan := by
  refine (dozes_of_goes hgoes (awake_lock hawake) ?_ h).2
  intro i _ hstate
  obtain ⟨hsame, hchan⟩ := hsleep i
  exact ⟨hsame.symm.trans hstate, hchan⟩

omit [DecidableEq C] in
/-- A step that leaves the slots alone. -/
theorem sleep_of_proc (h : t.proc = s.proc) (i : Fin NPROC) :
    (t.proc i).state = (s.proc i).state ∧ (t.proc i).chan = (s.proc i).chan := by
  rw [h]
  exact ⟨rfl, rfl⟩

variable {client : Client L D K}

/-- A process falls asleep only by giving the lock back in `sleep`. -/
theorem dozes_step [DecidableEq L] (hs : Exclusive s) {e : Event} (h : Step client s e t)
    (hp : t.Dozes l p chan) : s.Dozes l p chan ∨ t.data = s.data ∧
      ∃ c, s.lock (.client l) = some c ∧ (s.here c).sleeps = some (chan, .client l) := by
  cases hs.acts h with
  | code c instr next hcode hready hnext hgoes hproc hlock hdata =>
    obtain ⟨hold, -⟩ | ⟨rfl, -, hsleeps⟩ := dozes_code hs hcode hnext hgoes hproc hp
    · exact .inl hold
    · exact .inr ⟨hdata, c, hready, hsleeps⟩
  | context c i next hcode hgoes hproc hlock hdata =>
    exact .inl (dozes_setContext hs (hs.used_of_creating (code_typed (hs.here_wf c) hcode).1)
      (dozes_context hs hcode hgoes hproc hp).2)
  | resume c q next hcode hidle ht =>
    rw [ht] at hp
    exact .inl (dozes_resume hs hcode hp)
  | suspend c q next hcode hrun honly ht =>
    rw [ht] at hp
    exact .inl (dozes_suspend hs hcode hrun hp)
  | clientAcquire c back l' k k' hop hlock hgoes hproc | clientRelease c back l' k k' hop hlock hgoes hproc
  | access c back d k k' hop hgoes hproc =>
    exact .inl (dozes_client hgoes (Pc.frame_awake back k') (sleep_of_proc hproc) p chan hp)
  | wakeup c back chan' k k' hop hgoes hproc =>
    exact .inl (dozes_client hgoes (fun _ _ => ⟨rfl, rfl⟩) (sleep_of_proc hproc) p chan hp)
  | own c q op k k' hrun hpc hnext hgoes hproc hlock hdata =>
    obtain ⟨hstate, -, -, -, hchan, -⟩ := op.apply_fields (s.proc q)
    refine .inl (dozes_client hgoes (fun _ _ => ⟨rfl, rfl⟩) ?_ p chan hp)
    rw [hproc]
    exact fun i => ⟨field_update Proc.state hstate i, field_update Proc.chan hchan i⟩
  | call c q op k next hrun hpc hnext hcall hgoes hproc hlock hdata =>
    obtain ⟨-, -, hnods, hdozes⟩ := Op.call_returns hcall
    exact .inl (dozes_client hgoes (fun _ _ => ⟨hnods, hdozes⟩) (sleep_of_proc hproc) p chan hp)
  | interrupt c next hfree hnext hgoes hproc hlock hdata =>
    have hawake : next.Awake (s.running c) := by
      obtain rfl | ⟨chan'⟩ | ⟨k, hstart⟩ := hnext <;> exact fun _ _ => ⟨rfl, rfl⟩
    exact .inl (dozes_client hgoes hawake (sleep_of_proc hproc) p chan hp)
  | iret c k back hpc hend hgoes hproc hlock hdata =>
    have hslot := (hpc ▸ hs.here_wf c : (Pc.handler k back).WF (s.running c)).2.1
    exact .inl (dozes_client hgoes (Pc.awake_of_slotLock hslot) (sleep_of_proc hproc) p chan hp)

/-- A process whose state is `SLEEPING` is in `sleep`. -/
def Asleep (s : Machine C L D K) : Prop :=
  ∀ p, (s.proc p).state = .sleeping → ∃ lk, (s.pc p).dozes = some lk

namespace Asleep

omit [DecidableEq C] in
/-- A process that executes with the state `SLEEPING` is about to switch in `sleep`. -/
theorem of_running (hs : Exclusive s) (hc : s.running c = some p) (hstate : (s.proc p).state = .sleeping) :
    ∃ lk, (s.pc p).dozes = some lk := by
  rw [(hs.own c p hc).2.2] at hstate
  cases hpc : s.pc p with
  | sleepSched lk k => exact ⟨lk, rfl⟩
  | _ => rw [hpc] at hstate; cases hstate

/-- Every step keeps sleeping processes in `sleep`. -/
theorem step [DecidableEq L] (h : Asleep s) (hs : Exclusive s) {e : Event} (hstep : Step client s e t) : Asleep t := by
  intro p hstate
  -- Who executes is in step with its state; the others stay where they are.
  by_cases hrun : ∃ c, t.running c = some p
  · obtain ⟨c, hc⟩ := hrun
    exact of_running (hs.step hstep) hc hstate
  have hnot : ∀ c, t.running c ≠ some p := fun c hc => hrun ⟨c, hc⟩
  have hgo : ∀ {s' : Machine C L D K} {c : C} {next : Pc L K}, Goes s' c next t → t.pc p = s'.pc p := by
    intro s' c next hgoes
    refine hgoes.pc_of_ne ?_
    rw [← hgoes.running]
    exact hnot c
  have hclient : ∀ {c : C} {next : Pc L K}, Goes s c next t → (t.proc p).state = (s.proc p).state →
      ∃ lk, (t.pc p).dozes = some lk := by
    intro c next hgoes hsame
    rw [hgo hgoes]
    exact h p (hsame ▸ hstate)
  cases hs.acts hstep with
  | code c instr next hcode hready hnext hgoes hproc hlock hdata =>
    rw [hgo hgoes]
    have hne : s.running c ≠ some p := by
      rw [← hgoes.running]
      exact hnot c
    refine h p ?_
    cases instr with
    | write i f next' =>
      obtain ⟨-, -, -, hwrites⟩ := code_monitored (hs.here_wf c) hcode
      have hproc : t.proc = update s.proc i (f s.proc) := hproc
      by_cases hpi : p = i
      · rw [hproc, hpi, update_self] at hstate
        rw [hpi] at hne ⊢
        cases hwrites with
        | awake hawake hsleep => exact (hsleep s.proc hstate hne).1
        | doze hme => exact absurd hme hne
      · rwa [hproc, update_of_ne hpi] at hstate
    | allocpid i next' =>
      have hproc : t.proc = update s.proc i { s.proc i with pid := s.nextpid, state := .used } := hproc
      by_cases hpi : p = i
      · rw [hproc, hpi, update_self] at hstate
        cases hstate
      · rwa [hproc, update_of_ne hpi] at hstate
    | goto | acquire | release | read | any | setCurrent | context | swtch | sched =>
      rw [hproc] at hstate
      exact hstate
  | context c i next hcode hgoes hproc hlock hdata =>
    have hused := hs.used_of_creating (code_typed (hs.here_wf c) hcode).1
    rw [hproc] at hstate
    have hold := (field_update Proc.state (by rfl) p).symm.trans hstate
    have hpi : p ≠ i := by
      rintro rfl
      rw [hused] at hold
      cases hold
    rw [hgo hgoes]
    have hpc : (s.setContext i client.entry).pc p = s.pc p := update_of_ne hpi ..
    rw [hpc]
    exact h p hold
  | resume c q next hcode hidle ht =>
    subst ht
    exact h p hstate
  | suspend c q next hcode hq honly ht =>
    obtain ⟨-, -, hdozes⟩ := code_monitored (hs.here_wf c) hcode
    subst ht
    change ∃ lk, (update s.pc q next p).dozes = some lk
    by_cases hpq : p = q
    · subst hpq
      rw [update_self, hdozes, Exclusive.here_of_running hq]
      exact h p hstate
    · rw [update_of_ne hpq]
      exact h p hstate
  | clientAcquire c back l' k k' hop hlock hgoes hproc | clientRelease c back l' k k' hop hlock hgoes hproc
  | access c back d k k' hop hgoes hproc | wakeup c back chan k k' hop hgoes hproc
  | call c q op k next hrun hpc hnext hcall hgoes hproc | interrupt c next hfree hnext hgoes hproc
  | iret c k back hpc hend hgoes hproc =>
    exact hclient hgoes (by rw [hproc])
  | own c q op k k' hrun hpc hnext hgoes hproc =>
    refine hclient hgoes ?_
    rw [hproc]
    exact field_update Proc.state (op.apply_fields (s.proc q)).1 p

omit [DecidableEq C] in
/-- Nobody sleeps after `userinit`. -/
theorem initial (h : Initial client s) : Asleep s := by
  intro p hstate
  obtain ⟨trapframe, pagetable, -, -, hfirst⟩ := h.first
  by_cases hp : p = initproc
  · rw [hp, hfirst] at hstate
    cases hstate
  · rw [h.others p hp] at hstate
    cases hstate

/-- Sleeping processes are in `sleep` in every state that a run reaches. -/
theorem of_run [DecidableEq L] {init : Machine C L D K} {events : List Event}
    (hinit : Initial client init) (hrun : Run (Step client) init events s) : Asleep s := by
  refine (hrun.invariant (fun s => Exclusive s ∧ Asleep s) ⟨.initial hinit, .initial hinit⟩ ?_).2
  intro s e t ⟨hs, ha⟩ hstep
  exact ⟨hs.step hstep, ha.step hs hstep⟩

end Asleep

end Xv6.Sched.Machine
