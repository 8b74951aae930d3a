import Xv6.Sched.Dozing

/-!
# Monitors

A client protects data with one of its locks, sleeps with the lock when it has to wait and wakes up those
who wait. A monitor says how: at which points of the client the lock is held, what holds of the data while
the lock is free and at each point where it is held, when a process may sleep on a channel, and which
channels the holder of the lock has still to wake up before it gives the lock back.

A client that follows the rules of the monitor keeps all this in every interleaving: in particular a process
that sleeps on a channel may sleep there, or the holder of the lock is going to wake it up.
-/

namespace Xv6.Sched

open Function Library

variable {C L D K : Type} [DecidableEq C]

/-- How a client uses a lock. -/
structure Monitor (D K : Type) where
  /-- The points at which a process holds the lock. -/
  holds : K → Prop
  /-- What holds of the data while the lock is free. -/
  inv : D → Prop
  /-- What holds of the data while the holder of the lock is at a point. -/
  asserts : K → D → Prop
  /-- When a process may sleep on a channel. -/
  waits : ℕ → D → Prop
  /-- The channels that the holder of the lock has to wake up before it gives the lock back. -/
  owes : K → ℕ → Prop

namespace Monitor

variable (m : Monitor D K)

/-- Going on at another point with the same data. -/
def Keeps (d : D) (k k' : K) : Prop :=
  (m.holds k' ↔ m.holds k) ∧ (m.holds k → m.asserts k' d ∧ ∀ chan, m.owes k chan → m.owes k' chan)

/-- A change of data that the lock does not protect. -/
structure Frame (d d' : D) : Prop where
  inv : m.inv d → m.inv d'
  asserts : ∀ k, m.holds k → m.asserts k d → m.asserts k d'
  waits : ∀ chan, m.waits chan d → m.waits chan d'

theorem Frame.refl (d : D) : m.Frame d d := ⟨id, fun _ _ => id, fun _ => id⟩

/-- The operations that a process may do at a point. -/
def Allows [DecidableEq L] (l : L) (d : D) (k : K) : Op L D K → Prop
  | .acquire l' k' => if l' = l then m.holds k' ∧ (m.inv d → m.asserts k' d) else m.Keeps d k k'
  | .release l' k' =>
    if l' = l then m.holds k → ¬m.holds k' ∧ m.inv d ∧ ∀ chan, ¬m.owes k chan else m.Keeps d k k'
  | .access d' k' => (m.holds k' ↔ m.holds k) ∧ (¬m.holds k → m.Frame d d') ∧
    (m.holds k → m.asserts k' d' ∧
      ∀ chan, m.owes k chan ∨ m.waits chan d ∧ ¬m.waits chan d' → m.owes k' chan)
  | .sleep chan l' k' =>
    if l' = l then m.holds k ∧ m.holds k' ∧ m.inv d ∧ m.waits chan d ∧ (∀ chan, ¬m.owes k chan) ∧
      ∀ d, m.inv d → m.asserts k' d
    else ¬m.holds k ∧ ¬m.holds k'
  | .wakeup chan k' => (m.holds k' ↔ m.holds k) ∧
    (m.holds k → m.asserts k' d ∧ ∀ chan', m.owes k chan' → chan' = chan ∨ m.owes k' chan')
  | .own _ k' | .setkilled k' => m.Keeps d k k'
  | .killed k' | .kill _ k' => ∀ result, m.Keeps d k (k' result)
  | .fork k' => ∀ result, m.Keeps d k (k' result)
  | .exit _ => ¬m.holds k
  | .wait k' => ¬m.holds k ∧ ∀ result, ¬m.holds (k' result)

/-- The client follows the rules of the monitor, its interrupt handlers as well as its processes. -/
structure Guards [DecidableEq L] (client : Client L D K) (l : L) : Prop where
  entry : ¬m.holds client.entry
  next : ∀ p d k op, (m.holds k → m.asserts k d) → client.next p d k op → m.Allows l d k op
  vector : ∀ k, client.vector k → ¬m.holds k
  handles : ∀ d k op, (m.holds k → m.asserts k d) → client.handles d k op → m.Allows l d k op
  iret : ∀ k, client.iret k → ¬m.holds k

end Monitor

namespace Pc

variable (m : Monitor D K) (l : L)

/-- The thread holds the lock. -/
def Owns (pc : Pc L K) : Prop :=
  pc.released ≠ some (.client l) ∧ ∃ r, pc.Returns r ∧ m.holds r

/-- The thread has called `sleep` with the lock and has not given it back. -/
def Sleeps (pc : Pc L K) : Prop :=
  ∃ chan, pc.sleeps = some (chan, .client l)

/-- The points to which the thread may return agree on the lock, and fit the lock with which it sleeps. -/
structure Fits (pc : Pc L K) : Prop where
  agree : ∀ r r', pc.Returns r → pc.Returns r' → m.holds r → m.holds r'
  sleep : ∀ lk, pc.sleepLock = some lk → ∀ r, pc.Returns r → (m.holds r ↔ lk = .client l)
  resume : pc.sleepLock = some (.client l) → ∀ r d, pc.Returns r → m.inv d → m.asserts r d

/-- What holds of the data while the thread holds the lock. -/
def Asserts (d : D) (pc : Pc L K) : Prop :=
  (∀ chan, pc.sleeps = some (chan, .client l) → m.inv d ∧ m.waits chan d) ∧
    (¬pc.Sleeps l → ∀ r, pc.Returns r → m.asserts r d)

/-- The thread is going to wake up the process, if it sleeps on the channel. -/
def Wakes (p : Fin NPROC) (chan : ℕ) (pc : Pc L K) : Prop :=
  ¬pc.Sleeps l ∧ (∀ r, pc.Returns r → m.owes r chan) ∨ pc.Visits chan p

section Follows

variable {m l} {me : Option (Fin NPROC)} {pc next : Pc L K}

section

variable (h : pc.Fits m l) (hnext : pc.Follows me next)

include h hnext

/-- The points of returning fit what they did. -/
theorem Fits.follows : next.Fits m l where
  agree := fun r r' hr hr' => h.agree r r' (hnext.returns r hr) (hnext.returns r' hr')
  sleep := by
    intro lk hlk r hr
    obtain hsame | hnone := hnext.sleepLock
    · exact h.sleep lk (hsame ▸ hlk) r (hnext.returns r hr)
    · rw [hnone] at hlk
      cases hlk
  resume := by
    intro hlk r d hr
    obtain hsame | hnone := hnext.sleepLock
    · exact h.resume (hsame ▸ hlk) r d (hnext.returns r hr)
    · rw [hnone] at hlk
      cases hlk

/-- The thread still returns to a point where the lock is held, if it did. -/
theorem Fits.holds_iff : (∃ r, next.Returns r ∧ m.holds r) ↔ ∃ r, pc.Returns r ∧ m.holds r := by
  constructor
  · intro ⟨r, hr, hholds⟩
    exact ⟨r, hnext.returns r hr, hholds⟩
  · intro ⟨r, hr, hholds⟩
    obtain ⟨r', hr'⟩ := hnext.live ⟨r, hr⟩
    exact ⟨r', hr', h.agree r r' hr (hnext.returns r' hr') hholds⟩

/-- The thread holds the lock if it did, so long as it neither takes the lock nor gives it back. -/
theorem Fits.owns_iff (hreleased : next.released = some (.client l) ↔ pc.released = some (.client l)) :
    next.Owns m l ↔ pc.Owns m l := by
  unfold Owns
  rw [Ne, hreleased, h.holds_iff hnext]

end

/-- A thread that holds the lock does not sleep in `kwait`. -/
theorem Fits.sleepLock_ne_wait (h : pc.Fits m l) (howns : pc.Owns m l) : pc.sleepLock ≠ some .wait := by
  intro hwait
  obtain ⟨-, r, hr, hholds⟩ := howns
  cases (h.sleep _ hwait r hr).1 hholds

section

variable (h : pc.Fits m l) (hnext : pc.Follows me next) (howns : pc.Owns m l) (howns' : next.Owns m l)

include h hnext howns howns'

/-- A thread that keeps the lock is in `sleep` if it was. -/
theorem Fits.sleeps_iff (chan : ℕ) : next.sleeps = some (chan, .client l) ↔ pc.sleeps = some (chan, .client l) := by
  obtain hsame | ⟨chan', lk, hold, hnone, hreleased⟩ | hwait := hnext.sleeps
  · rw [hsame]
  · rw [hnone, hold]
    constructor
    · exact nofun
    · intro heq
      cases heq
      exact absurd hreleased howns'.1
  · exact absurd hwait (h.sleepLock_ne_wait howns)

/-- What holds of the data is what the thread goes on with. -/
theorem Fits.asserts_follows {d : D} (hasserts : pc.Asserts m l d) : next.Asserts m l d := by
  have hiff := h.sleeps_iff hnext howns howns'
  constructor
  · intro chan hchan
    exact hasserts.1 chan ((hiff chan).1 hchan)
  · intro hsleeps r hr
    refine hasserts.2 ?_ r (hnext.returns r hr)
    intro ⟨chan, hchan⟩
    exact hsleeps ⟨chan, (hiff chan).2 hchan⟩

/-- Who is going to be woken up still is, or it is the turn of the process. -/
theorem Fits.wakes_follows {p : Fin NPROC} {chan : ℕ} (hwakes : pc.Wakes m l p chan) :
    next.Wakes m l p chan ∨ me = some p ∨ pc.tests = some (chan, p) := by
  obtain ⟨hsleeps, howes⟩ | hvisits := hwakes
  · refine .inl (.inl ⟨?_, fun r hr => howes r (hnext.returns r hr)⟩)
    intro ⟨chan', hchan⟩
    exact hsleeps ⟨chan', (h.sleeps_iff hnext howns howns' chan').1 hchan⟩
  · obtain hvisits | hturn := hnext.visits chan p hvisits
    · exact .inl (.inr hvisits)
    · exact .inr hturn

end

end Follows

end Pc

namespace Machine

/-- What holds along every run of a client that follows the rules. -/
structure Guarded (m : Monitor D K) (l : L) (s : Machine C L D K) : Prop where
  fits : ∀ u, (s.point u).Fits m l
  /-- A thread that is interrupted does not hold the lock. -/
  under : ∀ u, ∀ back ∈ (s.point u).interrupted, back.Fits m l ∧ ¬back.Owns m l
  lock : ∀ c, s.lock (.client l) = some c ↔ (s.here c).Owns m l
  /-- A process that does not run does not hold the lock. -/
  saved : ∀ p, (∀ c, s.running c ≠ some p) → ¬(s.pc p).Owns m l
  free : s.lock (.client l) = none → m.inv s.data
  held : ∀ c, (s.here c).Owns m l → (s.here c).Asserts m l s.data
  /-- A sleeping process may sleep, or the holder of the lock is going to wake it up. -/
  waits : ∀ p chan, s.Dozes l p chan →
    m.waits chan s.data ∨ ∃ c, (s.here c).Owns m l ∧ (s.here c).Wakes m l p chan

namespace Guarded

variable {m : Monitor D K} {l : L} {s t : Machine C L D K} {c d : C} {next : Pc L K}

omit [DecidableEq C] in
/-- At most one CPU holds the lock. -/
theorem owns_unique (hg : Guarded m l s) (hc : (s.here c).Owns m l) (hd : (s.here d).Owns m l) : d = c := by
  have hc := (hg.lock c).2 hc
  rw [(hg.lock d).2 hd] at hc
  exact Option.some.inj hc

omit [DecidableEq C] in
/-- The point of a CPU fits. -/
theorem here_fits (hg : Guarded m l s) (c : C) : (s.here c).Fits m l := by
  rw [here_eq]
  exact hg.fits _

section

variable (hg : Guarded m l s) (hs : Exclusive s)

include hg hs

/-- One thread moves. -/
theorem of_goes (hgoes : Goes s c next t) (hfits : next.Fits m l)
    (hunder : ∀ back ∈ next.interrupted, back ∈ (s.here c).interrupted ∨ back.Fits m l ∧ ¬back.Owns m l)
    (hlock : ∀ d, t.lock (.client l) = some d ↔
      if d = c then next.Owns m l else s.lock (.client l) = some d)
    (hfree : t.lock (.client l) = none → m.inv t.data)
    (hheld : next.Owns m l → next.Asserts m l t.data)
    (hother : ∀ d, d ≠ c → (s.here d).Owns m l → (s.here d).Asserts m l t.data)
    (hwaits : ∀ p chan, t.Dozes l p chan → m.waits chan t.data ∨
      (next.Owns m l ∧ next.Wakes m l p chan) ∨
      ∃ d, d ≠ c ∧ (s.here d).Owns m l ∧ (s.here d).Wakes m l p chan) : Guarded m l t where
  fits := by
    intro u
    rw [hgoes.point]
    split
    · exact hfits
    · exact hg.fits u
  under := by
    intro u back hback
    rw [hgoes.point] at hback
    split at hback
    · obtain hold | hnew := hunder back hback
      · rw [here_eq] at hold
        exact hg.under _ back hold
      · exact hnew
    · exact hg.under u back hback
  lock := by
    intro d
    rw [hlock]
    by_cases hd : d = c
    · rw [if_pos hd, hd, hgoes.here_self]
    · rw [if_neg hd, hgoes.here_ne hs.thread hd]
      exact hg.lock d
  saved := by
    intro p hp
    rw [hgoes.running] at hp
    rw [hgoes.pc_of_ne (hp c)]
    exact hg.saved p hp
  free := hfree
  held := by
    intro d
    by_cases hd : d = c
    · rw [hd, hgoes.here_self]
      exact hheld
    · rw [hgoes.here_ne hs.thread hd]
      exact hother d hd
  waits := by
    intro p chan hp
    obtain hwait | ⟨howns, hwakes⟩ | ⟨d, hd, howns, hwakes⟩ := hwaits p chan hp
    · exact .inl hwait
    · refine .inr ⟨c, ?_⟩
      rw [hgoes.here_self]
      exact ⟨howns, hwakes⟩
    · refine .inr ⟨d, ?_⟩
      rw [hgoes.here_ne hs.thread hd]
      exact ⟨howns, hwakes⟩

/-- A thread goes on without the lock being taken or given back. -/
theorem of_follows (hgoes : Goes s c next t)
    (hnext : (s.here c).Follows (s.running c) next)
    (hreleased : next.released = some (.client l) ↔ (s.here c).released = some (.client l))
    (hlock : t.lock (.client l) = s.lock (.client l)) (hdata : t.data = s.data)
    (hdozes : ∀ p chan, t.Dozes l p chan → s.Dozes l p chan ∧
      ((s.here c).released ≠ some (.client l) → s.running c ≠ some p ∧ (s.here c).tests ≠ some (chan, p))) :
    Guarded m l t := by
  have hfits := hg.here_fits c
  have howns := hfits.owns_iff hnext hreleased
  refine hg.of_goes hs hgoes (hfits.follows hnext) (fun b hb => .inl (hnext.interrupted b hb)) ?_ ?_ ?_ ?_ ?_
  · intro d
    rw [hlock]
    by_cases hd : d = c
    · rw [if_pos hd, hd, howns]
      exact hg.lock c
    · rw [if_neg hd]
  · rw [hlock, hdata]
    exact hg.free
  · intro hnow
    rw [hdata]
    exact hfits.asserts_follows hnext (howns.1 hnow) hnow (hg.held c (howns.1 hnow))
  · intro d _ hd
    rw [hdata]
    exact hg.held d hd
  · intro p chan hp
    obtain ⟨hp, hturn⟩ := hdozes p chan hp
    rw [hdata]
    obtain hwait | ⟨d, hd, hwakes⟩ := hg.waits p chan hp
    · exact .inl hwait
    · by_cases hdc : d = c
      · rw [hdc] at hd hwakes
        obtain ⟨hme, htests⟩ := hturn hd.1
        obtain hnow | hnow | hnow := hfits.wakes_follows hnext hd (howns.2 hd) hwakes
        · exact .inr (.inl ⟨howns.2 hd, hnow⟩)
        · exact absurd hnow hme
        · exact absurd hnow htests
      · exact .inr (.inr ⟨d, hdc, hd, hwakes⟩)

/-- `sleep` takes the lock again. -/
theorem acquire [DecidableEq L] (hcode : Sched.code (s.running c) (s.here c) = some (.acquire (.client l) next))
    (hfree : s.lock (.client l) = none) (hgoes : Goes s c next t)
    (hlock : t.lock = update s.lock (.client l) (some c)) (hdata : t.data = s.data)
    (hdozes : ∀ p chan, t.Dozes l p chan → s.Dozes l p chan) : Guarded m l t := by
  obtain ⟨hnext, -, ⟨hreleased, hsleepLock, hnone, hsleeps, r, hr⟩ | ⟨hnot, -⟩⟩ := code_monitored (hs.here_wf c) hcode
  · have hfits := hg.here_fits c
    have hnobody : ∀ d, ¬(s.here d).Owns m l := by
      intro d hd
      rw [(hg.lock d).2 hd] at hfree
      cases hfree
    have hholds : ∀ r, next.Returns r → m.holds r :=
      fun r hr => (hfits.sleep _ hsleepLock r (hnext.returns r hr)).2 rfl
    refine hg.of_goes hs hgoes (hfits.follows hnext) (fun b hb => .inl (hnext.interrupted b hb)) ?_ ?_ ?_ ?_ ?_
    · intro d
      rw [hlock, update_self]
      refine held_of_taken hfree ⟨?_, r, hr, hholds r hr⟩ d
      rw [hnone]
      exact nofun
    · rw [hlock, update_self]
      exact nofun
    · intro _
      rw [hdata]
      refine ⟨fun chan h => ?_, fun _ r hr =>
        hfits.resume hsleepLock r _ (hnext.returns r hr) (hg.free hfree)⟩
      rw [hsleeps] at h
      cases h
    · exact fun d _ hd => absurd hd (hnobody d)
    · intro p chan hp
      rw [hdata]
      obtain hwait | ⟨d, hd, -⟩ := hg.waits p chan (hdozes p chan hp)
      · exact .inl hwait
      · exact absurd hd (hnobody d)
  · exact absurd rfl (hnot l)

/-- `sleep` gives the lock back. -/
theorem release [DecidableEq L] (hcode : Sched.code (s.running c) (s.here c) = some (.release (.client l) next))
    (hheld : s.lock (.client l) = some c) (hgoes : Goes s c next t) (hproc : t.proc = s.proc)
    (hlock : t.lock = update s.lock (.client l) none) (hdata : t.data = s.data) : Guarded m l t := by
  obtain ⟨hnext, -, ⟨⟨chan, hsleeps, -⟩, -, hvisits, -, hreleased⟩ | ⟨hnot, -⟩⟩ := code_monitored (hs.here_wf c) hcode
  · have hfits := hg.here_fits c
    have howns := (hg.lock c).1 hheld
    have hasserts := hg.held c howns
    refine hg.of_goes hs hgoes (hfits.follows hnext) (fun b hb => .inl (hnext.interrupted b hb)) ?_ ?_ ?_ ?_ ?_
    · intro d
      rw [hlock, update_self]
      exact held_of_released hheld (fun h => h.1 hreleased) d
    · intro _
      rw [hdata]
      exact (hasserts.1 chan hsleeps).1
    · exact fun h => absurd hreleased h.1
    · exact fun d hd howns' => absurd (hg.owns_unique howns howns') hd
    · intro p chan' hp
      rw [hdata]
      -- The process that falls asleep may do so; the others relied on nothing that this one owed.
      obtain ⟨-, hold⟩ | ⟨-, -, hsleeps'⟩ := dozes_release hs hcode hgoes hproc hp
      · obtain hwait | ⟨d, hd, hwakes⟩ := hg.waits p chan' hold
        · exact .inl hwait
        · rw [hg.owns_unique howns hd] at hwakes
          obtain ⟨hnot, -⟩ | hvisit := hwakes
          · exact absurd ⟨chan, hsleeps⟩ hnot
          · exact absurd hvisit (hvisits chan' p)
      · exact .inl (hasserts.1 chan' hsleeps').2
  · exact absurd rfl (hnot l)

/-- An instruction of `proc.c`. -/
theorem code [DecidableEq L] {instr : Instr L K} (hcode : Sched.code (s.running c) (s.here c) = some instr)
    (hready : instr.Ready c s.lock) (hnext : instr.Next s.proc next) (hgoes : Goes s c next t)
    (hproc : t.proc = instr.effect s.nextpid s.proc) (hlock : t.lock = instr.locks c s.lock)
    (hdata : t.data = s.data) : Guarded m l t := by
  have hmon := code_monitored (hs.here_wf c) hcode
  have hdozes : instr ≠ .release (.client l) next → ∀ p chan, t.Dozes l p chan → s.Dozes l p chan ∧
      ((s.here c).released ≠ some (.client l) → s.running c ≠ some p ∧ (s.here c).tests ≠ some (chan, p)) := by
    intro hrelease p chan hp
    obtain hold | ⟨heq, -⟩ := dozes_code hs hcode hnext hgoes hproc hp
    · exact hold
    · exact absurd heq hrelease
  cases instr with
  | goto next' | setCurrent _ next' =>
    cases hnext
    exact hg.of_follows hs hgoes hmon.1 (by rw [hmon.2.1]) (by rw [hlock]; rfl) hdata (hdozes nofun)
  | read i next' =>
    cases hnext
    exact hg.of_follows hs hgoes (hmon (s.proc i)).1 (by rw [(hmon (s.proc i)).2.1]) (by rw [hlock]; rfl) hdata
      (hdozes nofun)
  | any next' =>
    obtain ⟨value, rfl⟩ := hnext
    exact hg.of_follows hs hgoes (hmon value).1 (by rw [(hmon value).2.1]) (by rw [hlock]; rfl) hdata (hdozes nofun)
  | write i f next' | allocpid i next' =>
    cases hnext
    exact hg.of_follows hs hgoes hmon.1 (by rw [hmon.2.1]) (by rw [hlock]; rfl) hdata (hdozes nofun)
  | acquire lk next' =>
    cases hnext
    by_cases hlk : lk = .client l
    · subst hlk
      exact hg.acquire hs hcode hready hgoes hlock hdata fun p chan hp =>
        (hdozes nofun p chan hp).1
    · obtain ⟨hfollows, -, hcase⟩ := hmon
      refine hg.of_follows hs hgoes hfollows ?_ ?_ hdata (hdozes nofun)
      · obtain ⟨hreleased, -, hnone, -⟩ | ⟨-, hsame⟩ := hcase
        · rw [hreleased, hnone]
          exact ⟨nofun, fun h => absurd (Option.some.inj h) hlk⟩
        · rw [hsame]
      · rw [hlock]
        exact update_of_ne (fun h => hlk h.symm) ..
  | release lk next' =>
    cases hnext
    by_cases hlk : lk = .client l
    · subst hlk
      exact hg.release hs hcode hready hgoes hproc hlock hdata
    · obtain ⟨hfollows, -, hcase⟩ := hmon
      refine hg.of_follows hs hgoes hfollows ?_ ?_ hdata (hdozes fun h => hlk (Instr.release.inj h).1)
      · obtain ⟨-, -, -, hnone, hreleased⟩ | ⟨-, hsame, -⟩ := hcase
        · rw [hreleased, hnone]
          exact ⟨fun h => absurd (Option.some.inj h) hlk, nofun⟩
        · rw [hsame]
      · rw [hlock]
        exact update_of_ne (fun h => hlk h.symm) ..
  | context | swtch | sched => exact absurd hnext id

variable {i : Fin NPROC}

/-- The context of a new process. -/
theorem setContext (hused : (s.proc i).state = .used) {entry : K} (hentry : ¬m.holds entry) :
    Guarded m l (s.setContext i entry) where
  fits := by
    intro u
    rw [setContext_point]
    split
    · refine ⟨?_, nofun, nofun⟩
      intro r r' hr _ hholds
      have hr : r = entry := hr
      rw [hr] at hholds
      exact absurd hholds hentry
    · exact hg.fits u
  under := by
    intro u back hback
    rw [setContext_point] at hback
    split at hback
    · exact absurd hback List.not_mem_nil
    · exact hg.under u back hback
  lock := by
    intro c
    rw [hs.here_setContext hused]
    exact hg.lock c
  saved := by
    intro p hp
    by_cases hpi : p = i
    · change ¬(update s.pc i (Pc.forkret entry) p).Owns m l
      rw [hpi, update_self]
      rintro ⟨-, r, hr, hholds⟩
      have hr : r = entry := hr
      rw [hr] at hholds
      exact hentry hholds
    · change ¬(update s.pc i (Pc.forkret entry) p).Owns m l
      rw [update_of_ne hpi]
      exact hg.saved p hp
  free := hg.free
  held := by
    intro c
    rw [hs.here_setContext hused]
    exact hg.held c
  waits := by
    intro p chan hp
    obtain hwait | ⟨c, howns, hwakes⟩ := hg.waits p chan (dozes_setContext hs hused hp)
    · exact .inl hwait
    · refine .inr ⟨c, ?_⟩
      rw [hs.here_setContext hused]
      exact ⟨howns, hwakes⟩

/-- The instruction that sets the context of a new process up. -/
theorem context {entry : K}
    (hentry : ¬m.holds entry) (hcode : Sched.code (s.running c) (s.here c) = some (.context i next))
    (hgoes : Goes (s.setContext i entry) c next t)
    (hproc : t.proc = update s.proc i { s.proc i with pagefaultCount := 0, vr := ⟨0, 0, false⟩ })
    (hlock : t.lock = s.lock) (hdata : t.data = s.data) : Guarded m l t := by
  obtain ⟨hcreating, -⟩ := code_typed (hs.here_wf c) hcode
  rw [here_eq] at hcreating
  have hused := (hs.creating _ i false hcreating).1
  obtain ⟨hnext, hreleased, -⟩ := code_monitored (hs.here_wf c) hcode
  have hhere := hs.here_setContext hused entry c
  refine (hg.setContext hs hused hentry).of_follows (hs.setContext hused entry) hgoes
    (by rw [hhere]; exact hnext) (by rw [hhere, hreleased]) (by rw [hlock]; rfl) hdata ?_
  intro p chan hp
  obtain ⟨hne, hold⟩ := dozes_context hs hcode hgoes hproc hp
  refine ⟨hold, fun _ => ⟨hne, fun htests => ?_⟩⟩
  rw [hhere] at htests
  obtain ⟨f, next', heq⟩ := write_of_tests hcode htests
  cases heq

end

end Guarded

end Machine

end Xv6.Sched
