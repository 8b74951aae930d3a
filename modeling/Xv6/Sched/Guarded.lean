import Xv6.Sched.Monitor

/-!
# Clients that follow the rules of a monitor

The steps of the client keep what the monitor says, in processes and in interrupt handlers, and so do switches
and interrupts: a process that holds the lock neither switches nor is interrupted. So the invariant holds along
every run.
-/

namespace Xv6.Sched

open Function Library Pc

variable {C L D K : Type} [DecidableEq C] {chan : ℕ} {q : Fin NPROC}

namespace Pc

variable {m : Monitor D K} {l : L} {pc next : Pc L K} {back : Option (Pc L K)} {k : K} {d d' : D}

theorem returns_frame (r : K) : (frame back k).Returns r ↔ r = k := by
  cases back <;> exact Iff.rfl

theorem owns_frame : (frame back k).Owns m l ↔ m.holds k := by
  constructor
  · rintro ⟨-, r, hr, hholds⟩
    rwa [← (returns_frame r).1 hr]
  · intro hholds
    refine ⟨?_, k, (returns_frame k).2 rfl, hholds⟩
    cases back <;> exact nofun

/-- A thread that returns to one point, without sleeping, fits. -/
theorem fits_of_return (hreturns : ∀ r, pc.Returns r → r = k) (hsleepLock : pc.sleepLock = none) : pc.Fits m l := by
  refine ⟨fun r r' hr hr' hholds => ?_, fun lk h => ?_, fun h => ?_⟩
  · rwa [hreturns r' hr', ← hreturns r hr]
  · exact none_elim hsleepLock h
  · exact none_elim hsleepLock h

theorem fits_frame : (frame back k).Fits m l := by
  refine fits_of_return (fun r hr => (returns_frame r).1 hr) ?_
  cases back <;> rfl

/-- The code of the client is not in `sleep`. -/
theorem not_sleeps_frame : ¬(frame back k).Sleeps l := by
  rintro ⟨chan, h⟩
  cases back <;> cases h

theorem asserts_frame : (frame back k).Asserts m l d ↔ m.asserts k d := by
  constructor
  · intro h
    exact h.2 not_sleeps_frame k ((returns_frame k).2 rfl)
  · intro h
    refine ⟨fun chan hchan => absurd ⟨chan, hchan⟩ not_sleeps_frame, fun _ r hr => ?_⟩
    rwa [(returns_frame r).1 hr]

theorem wakes_frame {p : Fin NPROC} : (frame back k).Wakes m l p chan ↔ m.owes k chan := by
  constructor
  · rintro (⟨-, howes⟩ | hvisits)
    · exact howes k ((returns_frame k).2 rfl)
    · cases back <;> cases hvisits
  · intro howes
    refine .inl ⟨not_sleeps_frame, fun r hr => ?_⟩
    rwa [(returns_frame r).1 hr]

/-- The code of the client goes on above the same interrupted points. -/
theorem interrupted_frame (k' : K) : (frame back k').interrupted = (frame back k).interrupted := by
  cases back <;> rfl

/-- A thread that does not return to the client fits and does not hold the lock. -/
theorem fits_of_none (h : ∀ r, ¬pc.Returns r) : pc.Fits m l ∧ ¬pc.Owns m l :=
  ⟨⟨fun r _ hr => absurd hr (h r), fun _ _ r hr => absurd hr (h r), fun _ r _ hr => absurd hr (h r)⟩,
    fun ⟨_, r, hr, _⟩ => h r hr⟩

/-- The scheduler does not return to the client. -/
theorem returns_of_target (h : pc.target = some q) (r : K) : ¬pc.Returns r := by
  cases pc <;> (cases h <;> exact id)

/-- Data that the lock does not protect may change. -/
theorem Asserts.frame (h : pc.Asserts m l d) (hfits : pc.Fits m l) (howns : pc.Owns m l)
    (hframe : m.Frame d d') : pc.Asserts m l d' := by
  obtain ⟨-, r₀, hr₀, hholds⟩ := howns
  refine ⟨fun chan hchan => ?_, fun hsleeps r hr => ?_⟩
  · obtain ⟨hinv, hwaits⟩ := h.1 chan hchan
    exact ⟨hframe.inv hinv, hframe.waits chan hwaits⟩
  · exact hframe.asserts r (hfits.agree r₀ r hr₀ hr hholds) (h.2 hsleeps r hr)

end Pc

namespace Machine.Guarded

variable {m : Monitor D K} {l : L} {s t : Machine C L D K} {c : C} {next : Pc L K} {client : Client L D K}

section

variable (hg : Guarded m l s) (hs : Exclusive s)

include hg hs

/-- A scheduler resumes a process. -/
theorem resume (hcode : Sched.code (s.running c) (s.here c) = some (.swtch q next))
    (hidle : s.running c = none) : Guarded m l (s.resume c q next) := by
  obtain ⟨-, htarget, -, hsees, -, -, -, hrest⟩ := code_typed (hs.here_wf c) hcode
  have hnext : ∀ r, ¬next.Returns r := code_monitored (hs.here_wf c) hcode
  have hnowhere := (hs.target c q htarget).2
  have hq : ¬(s.pc q).Owns m l := hg.saved q hnowhere
  have hc : ¬(s.here c).Owns m l := (fits_of_none (returns_of_target htarget)).2
  exact {
    fits := by
      intro u
      rw [resume_point]
      split
      · exact (fits_of_none hnext).1
      · exact hg.fits u
    under := by
      intro u back hback
      rw [resume_point] at hback
      split at hback
      · obtain ⟨rest, rfl⟩ := hrest
        exact absurd hback List.not_mem_nil
      · exact hg.under u back hback
    lock := by
      intro d
      by_cases hd : d = c
      · rw [hd, resume_here_self]
        exact ⟨fun h => absurd ((hg.lock c).1 h) hc, fun h => absurd h hq⟩
      · rw [resume_here_ne hd]
        exact hg.lock d
    saved := by
      intro p hp
      refine hg.saved p fun d hd => ?_
      have hdc : d ≠ c := ne_of_values hd hidle nofun
      exact hp d ((resume_running_ne hdc).trans hd)
    free := hg.free
    held := by
      intro d
      by_cases hd : d = c
      · rw [hd, resume_here_self]
        exact fun h => absurd h hq
      · rw [resume_here_ne hd]
        exact hg.held d
    waits := by
      intro p chan hp
      obtain hwait | ⟨d, howns, hwakes⟩ := hg.waits p chan (dozes_resume hs hcode hp)
      · exact .inl hwait
      · refine .inr ⟨d, ?_⟩
        rw [resume_here_ne (by rintro rfl; exact hc howns)]
        exact ⟨howns, hwakes⟩ }

/-- A process switches to the scheduler. -/
theorem suspend {p : Fin NPROC}
    (hcode : Sched.code (s.running c) (s.here c) = some (.sched next)) (hrun : s.running c = some p)
    (honly : ∀ l, s.lock l = some c → l = .proc p) : Guarded m l (s.suspend c p next) := by
  obtain ⟨hnext, hreleased, hdozes⟩ := code_monitored (hs.here_wf c) hcode
  have hfits := hg.here_fits c
  have hc : ¬(s.here c).Owns m l := by
    intro h
    cases honly _ ((hg.lock c).2 h)
  have hp : ¬next.Owns m l := fun h => hc ((hfits.owns_iff hnext (by rw [hreleased])).1 h)
  have hback : ¬(s.sched c).Owns m l := by
    obtain ⟨-, ⟨rest, hsched⟩, -⟩ := hs.own c p hrun
    have hnone : ∀ r, ¬(schedBack p rest : Pc L K).Returns r := fun _ h => h
    rw [hsched]
    exact (fits_of_none hnone).2
  exact {
    fits := by
      intro u
      rw [suspend_point]
      split
      · exact hfits.follows hnext
      · exact hg.fits u
    under := by
      intro u back hback
      rw [suspend_point] at hback
      split at hback
      · have hold := hnext.interrupted back hback
        rw [here_eq] at hold
        exact hg.under _ back hold
      · exact hg.under u back hback
    lock := by
      intro d
      by_cases hd : d = c
      · rw [hd, suspend_here_self]
        exact ⟨fun h => absurd ((hg.lock c).1 h) hc, fun h => absurd h hback⟩
      · rw [suspend_here_ne hd fun h => hd (hs.running_unique h hrun)]
        exact hg.lock d
    saved := by
      intro q hq
      by_cases hqp : q = p
      · change ¬(update s.pc p next q).Owns m l
        rw [hqp, update_self]
        exact hp
      · change ¬(update s.pc p next q).Owns m l
        rw [update_of_ne hqp]
        refine hg.saved q fun d hd => ?_
        have hdc : d ≠ c := by
          rintro rfl
          exact hqp (Option.some.inj (hd.symm.trans hrun))
        exact hq d ((suspend_running_ne hdc).trans hd)
    free := hg.free
    held := by
      intro d
      by_cases hd : d = c
      · rw [hd, suspend_here_self]
        exact fun h => absurd h hback
      · rw [suspend_here_ne hd fun h => hd (hs.running_unique h hrun)]
        exact hg.held d
    waits := by
      intro q chan hq
      obtain hwait | ⟨d, howns, hwakes⟩ := hg.waits q chan (dozes_suspend hs hcode hrun hq)
      · exact .inl hwait
      · have hd : d ≠ c := by
          rintro rfl
          exact hc howns
        refine .inr ⟨d, ?_⟩
        rw [suspend_here_ne hd fun h => hd (hs.running_unique h hrun)]
        exact ⟨howns, hwakes⟩ }

/-- A thread that does not hold the lock moves without taking it. -/
theorem of_idle (hgoes : Goes s c next t) (hc : ¬(s.here c).Owns m l) (hnext : ¬next.Owns m l)
    (hfits : next.Fits m l)
    (hunder : ∀ back ∈ next.interrupted, back ∈ (s.here c).interrupted ∨ back.Fits m l ∧ ¬back.Owns m l)
    (hlock : t.lock (.client l) = s.lock (.client l)) (hframe : m.Frame s.data t.data)
    (hdozes : ∀ p chan, t.Dozes l p chan → s.Dozes l p chan) : Guarded m l t := by
  refine hg.of_goes hs hgoes hfits hunder ?_ ?_ ?_ ?_ ?_
  · intro d
    rw [hlock]
    by_cases hd : d = c
    · rw [if_pos hd, hd]
      exact ⟨fun h => absurd ((hg.lock c).1 h) hc, fun h => absurd h hnext⟩
    · rw [if_neg hd]
  · rw [hlock]
    exact fun h => hframe.inv (hg.free h)
  · exact fun h => absurd h hnext
  · exact fun d _ hd => (hg.held d hd).frame (hg.here_fits d) hd hframe
  · intro p chan hp
    obtain hwait | ⟨d, hd, hwakes⟩ := hg.waits p chan (hdozes p chan hp)
    · exact .inl (hframe.waits chan hwait)
    · exact .inr (.inr ⟨d, (by rintro rfl; exact hc hd), hd, hwakes⟩)

/-- The holder of the lock moves and keeps it. -/
theorem of_holder (hgoes : Goes s c next t)
    (hc : (s.here c).Owns m l) (hnext : next.Owns m l) (hfits : next.Fits m l)
    (hunder : ∀ back ∈ next.interrupted, back ∈ (s.here c).interrupted)
    (hlock : t.lock (.client l) = s.lock (.client l)) (hasserts : next.Asserts m l t.data)
    (hdozes : ∀ p chan, t.Dozes l p chan → s.Dozes l p chan)
    (hwaits : ∀ p chan, m.waits chan s.data ∨ (s.here c).Wakes m l p chan →
      m.waits chan t.data ∨ next.Wakes m l p chan) : Guarded m l t := by
  have hheld := (hg.lock c).2 hc
  refine hg.of_goes hs hgoes hfits (fun b hb => .inl (hunder b hb)) ?_ ?_ ?_ ?_ ?_
  · intro d
    rw [hlock]
    by_cases hd : d = c
    · rw [if_pos hd, hd]
      exact ⟨fun _ => hnext, fun _ => hheld⟩
    · rw [if_neg hd]
  · rw [hlock, hheld]
    exact nofun
  · exact fun _ => hasserts
  · exact fun d hd howns => absurd (hg.owns_unique hc howns) hd
  · intro p chan hp
    have hcase : m.waits chan t.data ∨ next.Wakes m l p chan := by
      obtain hwait | ⟨d, hd, hwakes⟩ := hg.waits p chan (hdozes p chan hp)
      · exact hwaits p chan (.inl hwait)
      · rw [hg.owns_unique hc hd] at hwakes
        exact hwaits p chan (.inr hwakes)
    obtain hwait | hwakes := hcase
    · exact .inl hwait
    · exact .inr (.inl ⟨hnext, hwakes⟩)

end

section Client

variable {p : Fin NPROC} {back : Option (Pc L K)} {k : K}

/-- The process goes on at points at which it holds the lock if it did, with the same data. -/
theorem of_keeps (hg : Guarded m l s) (hs : Exclusive s) (hgoes : Goes s c next t)
    (hpc : s.here c = .frame back k) (hreleased : next.released = none) (hsleepLock : next.sleepLock = none)
    (hsleeps : next.sleeps = none) (hawake : next.Awake (s.running c))
    (hunder : ∀ b ∈ next.interrupted, b ∈ (s.here c).interrupted) (hreturn : ∃ r, next.Returns r)
    (hkeeps : ∀ r, next.Returns r → m.Keeps s.data k r)
    (hsleep : ∀ i, (t.proc i).state = (s.proc i).state ∧ (t.proc i).chan = (s.proc i).chan)
    (hlock : t.lock (.client l) = s.lock (.client l)) (hdata : t.data = s.data) : Guarded m l t := by
  have hfits : next.Fits m l := by
    refine ⟨fun r r' hr hr' hholds => ?_, fun lk h => ?_, fun h => ?_⟩
    · exact (hkeeps r' hr').1.2 ((hkeeps r hr).1.1 hholds)
    · exact none_elim hsleepLock h
    · exact none_elim hsleepLock h
  have howns : next.Owns m l ↔ m.holds k := by
    constructor
    · rintro ⟨-, r, hr, hholds⟩
      exact (hkeeps r hr).1.1 hholds
    · intro hholds
      obtain ⟨r, hr⟩ := hreturn
      refine ⟨?_, r, hr, (hkeeps r hr).1.2 hholds⟩
      rw [hreleased]
      exact nofun
  have hold : (s.here c).Owns m l ↔ m.holds k := by
    rw [hpc]
    exact owns_frame
  have hnot : ¬next.Sleeps l := by
    rintro ⟨chan, h⟩
    exact none_elim hsleeps h
  by_cases hholds : m.holds k
  · refine hg.of_holder hs hgoes (hold.2 hholds) (howns.2 hholds) hfits hunder hlock ?_
      (dozes_client hgoes hawake hsleep) ?_
    · rw [hdata]
      exact ⟨fun chan h => absurd ⟨chan, h⟩ hnot, fun _ r hr => ((hkeeps r hr).2 hholds).1⟩
    · intro q chan h
      rw [hdata]
      refine h.imp id fun hwakes => ?_
      rw [hpc, wakes_frame] at hwakes
      exact .inl ⟨hnot, fun r hr => ((hkeeps r hr).2 hholds).2 chan hwakes⟩
  · refine hg.of_idle hs hgoes (fun h => hholds (hold.1 h)) (fun h => hholds (howns.1 h)) hfits
      (fun b hb => .inl (hunder b hb)) hlock ?_ (dozes_client hgoes hawake hsleep)
    rw [hdata]
    exact .refl m s.data

omit [DecidableEq C] in
/-- In the code of the client a thread goes on above the same interrupted points. -/
theorem under_frame (hpc : s.here c = .frame back k) (k' : K) : ∀ b ∈ (frame back k').interrupted,
    b ∈ (s.here c).interrupted ∨ b.Fits m l ∧ ¬b.Owns m l := by
  rw [hpc, interrupted_frame]
  exact fun _ h => .inl h

omit [DecidableEq C] in
/-- The process knows what the monitor says about its point. -/
theorem asserts_here (hg : Guarded m l s) (hpc : s.here c = .frame back k) (hholds : m.holds k) :
    m.asserts k s.data := by
  have howns : (s.here c).Owns m l := by
    rw [hpc]
    exact owns_frame.2 hholds
  have hasserts := hg.held c howns
  rw [hpc] at hasserts
  exact asserts_frame.1 hasserts

section

variable (hg : Guarded m l s) (hs : Exclusive s)

include hg hs

variable {k' : K}

/-- A thread goes on in the code of the client. -/
theorem keeps (hgoes : Goes s c (.frame back k') t) (hpc : s.here c = .frame back k) (hkeeps : m.Keeps s.data k k')
    (hsleep : ∀ i, (t.proc i).state = (s.proc i).state ∧ (t.proc i).chan = (s.proc i).chan)
    (hlock : t.lock (.client l) = s.lock (.client l)) (hdata : t.data = s.data) : Guarded m l t := by
  have hsame : (frame back k').released = none ∧ (frame back k').sleepLock = none ∧
      (frame back k').sleeps = none := by
    cases back <;> exact ⟨rfl, rfl, rfl⟩
  obtain ⟨hreleased, hsleepLock, hsleeps⟩ := hsame
  refine hg.of_keeps hs hgoes hpc hreleased hsleepLock hsleeps (frame_awake back k') ?_
    ⟨k', (returns_frame k').2 rfl⟩ ?_ hsleep hlock hdata
  · rw [hpc, interrupted_frame]
    exact fun _ h => h
  · intro r hr
    rw [(returns_frame r).1 hr]
    exact hkeeps

/-- The process takes a lock of the client. -/
theorem clientAcquire [DecidableEq L] {l' : L} (hgoes : Goes s c (.frame back k') t) (hpc : s.here c = .frame back k)
    (hfree : s.lock (.client l') = none) (hallows : m.Allows l s.data k (.acquire l' k')) (hproc : t.proc = s.proc)
    (hlock : t.lock = update s.lock (.client l') (some c)) (hdata : t.data = s.data) : Guarded m l t := by
  have hsleep := sleep_of_proc hproc
  simp only [Monitor.Allows] at hallows
  split at hallows
  · rename_i hl
    subst hl
    obtain ⟨hholds, hasserts⟩ := hallows
    have hnobody : ∀ d, ¬(s.here d).Owns m l' := by
      intro d hd
      exact none_elim hfree ((hg.lock d).2 hd)
    refine hg.of_goes hs hgoes fits_frame (under_frame hpc k') ?_ ?_ ?_ ?_ ?_
    · intro d
      rw [hlock, update_self]
      exact held_of_taken hfree (owns_frame.2 hholds) d
    · rw [hlock, update_self]
      exact nofun
    · intro _
      rw [hdata]
      exact asserts_frame.2 (hasserts (hg.free hfree))
    · exact fun d _ hd => absurd hd (hnobody d)
    · intro q chan hq
      rw [hdata]
      obtain hwait | ⟨d, hd, -⟩ := hg.waits q chan (dozes_client hgoes (frame_awake back k') hsleep q chan hq)
      · exact .inl hwait
      · exact absurd hd (hnobody d)
  · rename_i hl
    refine hg.keeps hs hgoes hpc hallows hsleep ?_ hdata
    rw [hlock]
    exact update_of_ne (fun h => hl (Lock.client.inj h).symm) ..

/-- The process gives a lock of the client back. -/
theorem clientRelease [DecidableEq L] {l' : L} (hgoes : Goes s c (.frame back k') t) (hpc : s.here c = .frame back k)
    (hheld : s.lock (.client l') = some c) (hallows : m.Allows l s.data k (.release l' k'))
    (hproc : t.proc = s.proc) (hlock : t.lock = update s.lock (.client l') none) (hdata : t.data = s.data) :
    Guarded m l t := by
  have hsleep := sleep_of_proc hproc
  simp only [Monitor.Allows] at hallows
  split at hallows
  · rename_i hl
    subst hl
    have howns := (hg.lock c).1 hheld
    have hholds : m.holds k := by
      rw [hpc] at howns
      exact owns_frame.1 howns
    obtain ⟨hnot, hinv, hnothing⟩ := hallows hholds
    refine hg.of_goes hs hgoes fits_frame (under_frame hpc k') ?_ ?_ ?_ ?_ ?_
    · intro d
      rw [hlock, update_self]
      exact held_of_released hheld (fun h => hnot (owns_frame.1 h)) d
    · intro _
      rw [hdata]
      exact hinv
    · exact fun h => absurd (owns_frame.1 h) hnot
    · exact fun d hd howns' => absurd (hg.owns_unique howns howns') hd
    · intro q chan hq
      rw [hdata]
      obtain hwait | ⟨d, hd, hwakes⟩ := hg.waits q chan (dozes_client hgoes (frame_awake back k') hsleep q chan hq)
      · exact .inl hwait
      · rw [hg.owns_unique howns hd, hpc, wakes_frame] at hwakes
        exact absurd hwakes (hnothing chan)
  · rename_i hl
    refine hg.keeps hs hgoes hpc hallows hsleep ?_ hdata
    rw [hlock]
    exact update_of_ne (fun h => hl (Lock.client.inj h).symm) ..

/-- The process changes the data. -/
theorem access [DecidableEq L] (hgoes : Goes s c (.frame back k') t)
    (hpc : s.here c = .frame back k) (hallows : m.Allows l s.data k (.access t.data k'))
    (hproc : t.proc = s.proc) (hlock : t.lock = s.lock) : Guarded m l t := by
  obtain ⟨hiff, hframe, hheld⟩ := hallows
  have hdozes : ∀ q chan, t.Dozes l q chan → s.Dozes l q chan :=
    dozes_client hgoes (frame_awake back k') (sleep_of_proc hproc)
  have hunder : ∀ b ∈ (frame back k').interrupted, b ∈ (s.here c).interrupted := by
    rw [hpc, interrupted_frame]
    exact fun _ h => h
  have hold : (s.here c).Owns m l ↔ m.holds k := by
    rw [hpc]
    exact owns_frame
  by_cases hholds : m.holds k
  · obtain ⟨hasserts, howes⟩ := hheld hholds
    refine hg.of_holder hs hgoes (hold.2 hholds) (owns_frame.2 (hiff.2 hholds)) fits_frame hunder
      (by rw [hlock]) (asserts_frame.2 hasserts) hdozes ?_
    intro q chan h
    by_cases hwait : m.waits chan t.data
    · exact .inl hwait
    · refine .inr (wakes_frame.2 (howes chan ?_))
      obtain hold | hwakes := h
      · exact .inr ⟨hold, hwait⟩
      · rw [hpc, wakes_frame] at hwakes
        exact .inl hwakes
  · exact hg.of_idle hs hgoes (fun h => hholds (hold.1 h))
      (fun h => hholds (hiff.1 (owns_frame.1 h))) fits_frame (fun b hb => .inl (hunder b hb)) (by rw [hlock])
      (hframe hholds) hdozes

/-- The process calls `wakeup`. -/
theorem callWakeup [DecidableEq L] (hgoes : Goes s c (.wakeup chan table (.frame back k')) t)
    (hpc : s.here c = .frame back k) (hallows : m.Allows l s.data k (.wakeup chan k' : Op L D K))
    (hproc : t.proc = s.proc) (hlock : t.lock = s.lock) (hdata : t.data = s.data) : Guarded m l t := by
  obtain ⟨hiff, hheld⟩ := hallows
  have hdozes : ∀ q chan, t.Dozes l q chan → s.Dozes l q chan :=
    dozes_client hgoes (fun _ _ => ⟨rfl, rfl⟩) (sleep_of_proc hproc)
  have hunder : ∀ b ∈ (wakeup chan table (.frame back k') : Pc L K).interrupted, b ∈ (s.here c).interrupted := by
    rw [hpc, ← interrupted_frame k']
    exact fun _ h => h
  have hold : (s.here c).Owns m l ↔ m.holds k := by
    rw [hpc]
    exact owns_frame
  -- In `wakeup` the thread holds the lock if the point to which it returns says so.
  have hnext : (wakeup chan table (.frame back k') : Pc L K).Owns m l ↔ m.holds k' := owns_frame
  have hframe : (frame back k').Fits m l := fits_frame
  have hfits : (wakeup chan table (.frame back k') : Pc L K).Fits m l := ⟨hframe.agree, hframe.sleep, hframe.resume⟩
  by_cases hholds : m.holds k
  · obtain ⟨hasserts, howes⟩ := hheld hholds
    refine hg.of_holder hs hgoes (hold.2 hholds) (hnext.2 (hiff.2 hholds)) hfits hunder (by rw [hlock]) ?_ hdozes ?_
    · rw [hdata]
      exact asserts_frame.2 hasserts
    · intro q chan' h
      rw [hdata]
      refine h.imp id fun hwakes => ?_
      rw [hpc, wakes_frame] at hwakes
      obtain rfl | howes := howes chan' hwakes
      · exact .inr ⟨rfl, List.mem_finRange q⟩
      · refine .inl ⟨fun h => not_sleeps_frame h, fun r hr => ?_⟩
        rwa [(returns_frame r).1 hr]
  · refine hg.of_idle hs hgoes (fun h => hholds (hold.1 h)) (fun h => hholds (hiff.1 (hnext.1 h))) hfits
      (fun b hb => .inl (hunder b hb)) (by rw [hlock]) ?_ hdozes
    rw [hdata]
    exact .refl m s.data

/-- The process calls `sleep` with the lock. -/
theorem callSleep
    (hgoes : Goes s c (.sleepAcquire chan (.client l) (.client k')) t) (hpc : s.here c = .client k)
    (hallows : m.holds k ∧ m.holds k' ∧ m.inv s.data ∧ m.waits chan s.data ∧ (∀ chan, ¬m.owes k chan) ∧
      ∀ d, m.inv d → m.asserts k' d)
    (hproc : t.proc = s.proc) (hlock : t.lock = s.lock) (hdata : t.data = s.data) : Guarded m l t := by
  obtain ⟨hholds, hholds', hinv, hwaits, hnothing, hresume⟩ := hallows
  have hreturns : ∀ r, (sleepAcquire chan (.client l) (.client k') : Pc L K).Returns r → r = k' := fun _ h => h
  have hpc : s.here c = .frame none k := hpc
  refine hg.of_holder hs hgoes (by rw [hpc]; exact owns_frame.2 hholds)
    ⟨nofun, k', rfl, hholds'⟩ ?_ (fun _ h => absurd h List.not_mem_nil) (by rw [hlock]) ?_
    (dozes_client hgoes (fun _ _ => ⟨rfl, rfl⟩) (sleep_of_proc hproc)) ?_
  · refine ⟨fun _ r' _ hr' _ => hreturns r' hr' ▸ hholds', ?_, ?_⟩
    · intro lk hlk r hr
      cases hlk
      rw [hreturns r hr]
      exact ⟨fun _ => rfl, fun _ => hholds'⟩
    · intro _ r d hr
      rw [hreturns r hr]
      exact hresume d
  · rw [hdata]
    refine ⟨fun chan' h => ?_, fun h => absurd ⟨chan, rfl⟩ h⟩
    cases h
    exact ⟨hinv, hwaits⟩
  · intro q chan' h
    rw [hdata]
    refine h.imp id fun hwakes => ?_
    rw [hpc, wakes_frame] at hwakes
    exact absurd hwakes (hnothing chan')

/-- The process calls a function that may switch, without the lock. -/
theorem callIdle (hgoes : Goes s c next t)
    (hpc : s.here c = .client k) (hholds : ¬m.holds k) (hreturns : ∀ r, next.Returns r → ¬m.holds r)
    (hsleepLock : next.sleepLock ≠ some (.client l)) (hawake : next.Awake (s.running c))
    (hunder : next.interrupted = []) (hproc : t.proc = s.proc) (hlock : t.lock = s.lock)
    (hdata : t.data = s.data) : Guarded m l t := by
  have hpc : s.here c = .frame none k := hpc
  refine hg.of_idle hs hgoes ?_ ?_ ?_ ?_ (by rw [hlock]) ?_ (dozes_client hgoes hawake (sleep_of_proc hproc))
  · rw [hpc]
    exact fun h => hholds (owns_frame.1 h)
  · exact fun ⟨_, r, hr, h⟩ => hreturns r hr h
  · refine ⟨fun r _ hr _ h => absurd h (hreturns r hr), fun lk hlk r hr => ?_, fun h => absurd h hsleepLock⟩
    exact ⟨fun h => absurd h (hreturns r hr), fun h => absurd (h ▸ hlk) hsleepLock⟩
  · rw [hunder]
    exact fun _ h => absurd h List.not_mem_nil
  · rw [hdata]
    exact .refl m s.data

/-- The process calls a function of `proc.c`. -/
theorem call [DecidableEq L] {op : Op L D K} (hcall : op.call = some next)
    (hgoes : Goes s c next t) (hpc : s.here c = .client k) (hallows : m.Allows l s.data k op)
    (hproc : t.proc = s.proc) (hlock : t.lock = s.lock) (hdata : t.data = s.data) : Guarded m l t := by
  have hsleep := sleep_of_proc hproc
  have hhere : s.here c = .frame none k := hpc
  -- At its start no function of `proc.c` has interrupted anything.
  have hnil : ∀ b ∈ ([] : List (Pc L K)), b ∈ (s.here c).interrupted := fun _ h => absurd h List.not_mem_nil
  cases op with
  | sleep chan l' k' =>
    cases hcall
    simp only [Monitor.Allows] at hallows
    split at hallows
    · rename_i hl
      subst hl
      exact hg.callSleep hs hgoes hpc hallows hproc hlock hdata
    · rename_i hl
      refine hg.callIdle hs hgoes hpc hallows.1 ?_ ?_ (fun _ _ => ⟨rfl, rfl⟩) rfl hproc hlock hdata
      · intro r hr
        have hr : r = k' := hr
        rw [hr]
        exact hallows.2
      · exact fun h => hl (Lock.client.inj (Option.some.inj h))
  | setkilled k' =>
    cases hcall
    refine hg.of_keeps hs hgoes hhere rfl rfl rfl (fun _ _ => ⟨rfl, rfl⟩) hnil ⟨k', rfl⟩ ?_ hsleep (by rw [hlock]) hdata
    intro r hr
    have hr : r = k' := hr
    rw [hr]
    exact hallows
  | killed k' | kill _ k' =>
    cases hcall
    refine hg.of_keeps hs hgoes hhere rfl rfl rfl (fun _ _ => ⟨rfl, rfl⟩) hnil ⟨k' true, true, rfl⟩ ?_ hsleep
      (by rw [hlock]) hdata
    rintro r ⟨result, rfl⟩
    exact hallows result
  | fork k' =>
    cases hcall
    refine hg.of_keeps hs hgoes hhere rfl rfl rfl (fun _ _ => ⟨rfl, rfl⟩) hnil ⟨k' none, none, rfl⟩ ?_ hsleep
      (by rw [hlock]) hdata
    rintro r ⟨result, rfl⟩
    exact hallows result
  | exit status =>
    cases hcall
    exact hg.callIdle hs hgoes hpc hallows (fun _ h => absurd h id) nofun (fun _ _ => ⟨rfl, rfl⟩) rfl hproc hlock hdata
  | wait k' =>
    cases hcall
    refine hg.callIdle hs hgoes hpc hallows.1 ?_ nofun (fun _ _ => ⟨rfl, rfl⟩) rfl hproc hlock hdata
    rintro r ⟨result, rfl⟩
    exact hallows.2 result
  | acquire | release | access | own | wakeup => cases hcall

end

end Client

/-- An interrupt. -/
theorem interrupt [DecidableEq L] (hg : Guarded m l s) (hs : Exclusive s) (hm : m.Guards client l)
    (hfree : ∀ l, s.lock l ≠ some c)
    (hnext : next = .yieldAcquire (s.here c) ∨ client.Interrupts (s.here c) next)
    (hgoes : Goes s c next t) (hproc : t.proc = s.proc) (hlock : t.lock = s.lock) (hdata : t.data = s.data) :
    Guarded m l t := by
  have hc : ¬(s.here c).Owns m l := fun h => hfree _ ((hg.lock c).2 h)
  have hfits := hg.here_fits c
  have hframe : m.Frame s.data t.data := by
    rw [hdata]
    exact .refl m s.data
  obtain rfl | ⟨chan⟩ | ⟨k, hstart⟩ := hnext
  · exact hg.of_idle hs hgoes hc hc ⟨hfits.agree, hfits.sleep, hfits.resume⟩ (fun _ h => .inl h) (by rw [hlock]) hframe
      (dozes_client hgoes (fun _ _ => ⟨rfl, rfl⟩) (sleep_of_proc hproc))
  · exact hg.of_idle hs hgoes hc hc ⟨hfits.agree, hfits.sleep, hfits.resume⟩ (fun _ h => .inl h) (by rw [hlock]) hframe
      (dozes_client hgoes (fun _ _ => ⟨rfl, rfl⟩) (sleep_of_proc hproc))
  · -- The handler starts without the lock, above a point that does not hold it.
    have hgoes : Goes s c (.frame (some (s.here c)) k) t := hgoes
    refine hg.of_idle hs hgoes hc (fun h => hm.vector k hstart (owns_frame.1 h)) fits_frame ?_ (by rw [hlock]) hframe
      (dozes_client hgoes (frame_awake _ k) (sleep_of_proc hproc))
    intro b hb
    obtain rfl | hb := List.mem_cons.1 hb
    · exact .inr ⟨hfits, hc⟩
    · exact .inl hb

/-- A handler returns to the point that it has interrupted. -/
theorem iret (hg : Guarded m l s) (hs : Exclusive s) {k : K} {back : Pc L K} (hpc : s.here c = .handler k back)
    (hholds : ¬m.holds k) (hgoes : Goes s c back t) (hproc : t.proc = s.proc) (hlock : t.lock = s.lock)
    (hdata : t.data = s.data) : Guarded m l t := by
  have hslot := (hpc ▸ hs.here_wf c : (Pc.handler k back).WF (s.running c)).2.1
  have hunder : ∀ b ∈ back :: back.interrupted, b ∈ (s.here c).interrupted := by
    rw [hpc]
    exact fun _ h => h
  have hmem := hunder back List.mem_cons_self
  rw [here_eq] at hmem
  obtain ⟨hfits, hnot⟩ := hg.under _ back hmem
  have hc : ¬(s.here c).Owns m l := by
    have hpc : s.here c = .frame (some back) k := hpc
    rw [hpc]
    exact fun h => hholds (owns_frame.1 h)
  refine hg.of_idle hs hgoes hc hnot hfits (fun b hb => .inl (hunder b (List.mem_cons_of_mem _ hb))) (by rw [hlock]) ?_
    (dozes_client hgoes (awake_of_slotLock hslot) (sleep_of_proc hproc))
  rw [hdata]
  exact .refl m s.data

omit [DecidableEq C] in
/-- The monitor allows what the client executes. -/
theorem allows [DecidableEq L] (hg : Guarded m l s) (hm : m.Guards client l) {back : Option (Pc L K)} {k : K}
    {op : Op L D K}
    (hop : Executes client s c back k op) : m.Allows l s.data k op := by
  have hasserts := hg.asserts_here hop.here
  cases hop with
  | proc p k op hrun hpc hnext => exact hm.next p _ k op hasserts hnext
  | handler back k op hpc hnext => exact hm.handles _ k op hasserts hnext

/-- Every step of a client that follows the rules keeps the invariant. -/
theorem step [DecidableEq L] (hg : Guarded m l s) (hs : Exclusive s) (hm : m.Guards client l) {e : Event}
    (h : Step client s e t) : Guarded m l t := by
  cases hs.acts h with
  | code c instr next hcode hready hnext hgoes hproc hlock hdata =>
    exact hg.code hs hcode hready hnext hgoes hproc hlock hdata
  | context c i next hcode hgoes hproc hlock hdata =>
    exact hg.context hs hm.entry hcode hgoes hproc hlock hdata
  | resume c q next hcode hidle ht =>
    rw [ht]
    exact hg.resume hs hcode hidle
  | suspend c p next hcode hrun honly ht =>
    rw [ht]
    exact hg.suspend hs hcode hrun honly
  | clientAcquire c back l' k k' hop hfree hgoes hproc hlock hdata =>
    exact hg.clientAcquire hs hgoes hop.here hfree (hg.allows hm hop) hproc hlock hdata
  | clientRelease c back l' k k' hop hheld hgoes hproc hlock hdata =>
    exact hg.clientRelease hs hgoes hop.here hheld (hg.allows hm hop) hproc hlock hdata
  | access c back d k k' hop hgoes hproc hlock hdata =>
    subst hdata
    exact hg.access hs hgoes hop.here (hg.allows hm hop) hproc hlock
  | wakeup c back chan k k' hop hgoes hproc hlock hdata =>
    exact hg.callWakeup hs hgoes hop.here (hg.allows hm hop) hproc hlock hdata
  | own c p op k k' hrun hpc hnext hgoes hproc hlock hdata =>
    have hhere : s.here c = .frame none k := hpc
    have hgoes : Goes s c (.frame none k') t := hgoes
    have hallows := hm.next _ _ _ _ (hg.asserts_here hhere) hnext
    obtain ⟨hstate, -, -, -, hchan, -⟩ := op.apply_fields (s.proc p)
    refine hg.keeps hs hgoes hhere hallows ?_ (by rw [hlock]) hdata
    rw [hproc]
    exact fun i => ⟨field_update Proc.state hstate i, field_update Proc.chan hchan i⟩
  | call c p op k next hrun hpc hnext hcall hgoes hproc hlock hdata =>
    have hhere : s.here c = .frame none k := hpc
    exact hg.call hs hcall hgoes hpc (hm.next _ _ _ _ (hg.asserts_here hhere) hnext) hproc hlock hdata
  | interrupt c next hfree hnext hgoes hproc hlock hdata =>
    exact hg.interrupt hs hm hfree hnext hgoes hproc hlock hdata
  | iret c k back hpc hend hgoes hproc hlock hdata =>
    exact hg.iret hs hpc (hm.iret k hend) hgoes hproc hlock hdata

omit [DecidableEq C] in
/-- The invariant holds after `userinit`, if it holds of the data. -/
theorem initial [DecidableEq L] (hm : m.Guards client l) (h : Initial client s) (hinv : m.inv s.data) :
    Guarded m l s := by
  have hpoint : ∀ u, (s.point u).Fits m l ∧ ¬(s.point u).Owns m l := by
    intro u
    cases u with
    | sched c =>
      change (s.sched c).Fits m l ∧ ¬(s.sched c).Owns m l
      rw [h.sched]
      exact fits_of_none fun _ h => h
    | proc p =>
      change (s.pc p).Fits m l ∧ ¬(s.pc p).Owns m l
      rw [h.pc]
      split
      · exact ⟨fits_of_return (fun _ h => h) rfl, fun ⟨_, _, hr, hholds⟩ => hm.entry (hr ▸ hholds)⟩
      · exact fits_of_none fun _ h => h
  have hhere : ∀ c, ¬(s.here c).Owns m l := by
    intro c
    rw [here_eq]
    exact (hpoint _).2
  have hnone : ∀ u, (s.point u).interrupted = [] := by
    intro u
    cases u with
    | sched c => exact congrArg interrupted (h.sched c)
    | proc p =>
      refine (congrArg interrupted (h.pc p)).trans ?_
      split <;> rfl
  exact {
    fits := fun u => (hpoint u).1
    under := fun u => by rw [hnone u]; exact fun _ h => absurd h List.not_mem_nil
    lock := by
      intro c
      rw [h.lock]
      exact ⟨nofun, fun h => absurd h (hhere c)⟩
    saved := fun p _ => (hpoint (.proc p)).2
    free := fun _ => hinv
    held := fun c h => absurd h (hhere c)
    waits := by
      intro p chan hp
      obtain ⟨d, hd, -⟩ | ⟨-, -, hdozes⟩ := hp
      · rw [h.running] at hd
        cases hd
      · rw [h.pc] at hdozes
        split at hdozes <;> cases hdozes }

/-- The invariant holds in every state that a run reaches. -/
theorem of_run [DecidableEq L] (hm : m.Guards client l) {init : Machine C L D K} {events : List Event}
    (hinit : Initial client init)
    (hinv : m.inv init.data) (hrun : Run (Step client) init events s) : Exclusive s ∧ Guarded m l s := by
  refine hrun.invariant (fun s => Exclusive s ∧ Guarded m l s) ?_ ?_
  · exact ⟨.initial hinit, .initial hm hinit hinv⟩
  · intro s e t ⟨hs, hg⟩ hstep
    exact ⟨hs.step hstep, hg.step hs hm hstep⟩

omit [DecidableEq C] in
/-- What holds of the data while the lock is free and while it is held, holds. -/
theorem always (hg : Guarded m l s) {P : D → Prop} (hinv : ∀ d, m.inv d → P d)
    (hasserts : ∀ k d, m.holds k → m.asserts k d → P d) : P s.data := by
  cases hlock : s.lock (.client l) with
  | none => exact hinv _ (hg.free hlock)
  | some c =>
    have howns := (hg.lock c).1 hlock
    have hdata := hg.held c howns
    obtain ⟨-, r, hr, hholds⟩ := howns
    by_cases hsleeps : (s.here c).Sleeps l
    · obtain ⟨chan, hchan⟩ := hsleeps
      exact hinv _ (hdata.1 chan hchan).1
    · exact hasserts r _ hholds (hdata.2 hsleeps r hr)

end Machine.Guarded

end Xv6.Sched
