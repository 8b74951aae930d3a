import Xv6.Sched.Execution
import Xv6.Sched.Guarded

/-!
# No wakeup is lost

`sleep` gives the lock of the condition back before it sets the state of the process, and `wakeup` looks at
one slot after the other. Nevertheless no process sleeps for a condition that a completed `wakeup` has
announced and that has stayed true since.

The sleep locks of `sleeplock.c` are a client: `acquiresleep` waits until the lock is not taken, and
`releasesleep` wakes up those who wait for it. (`lk->pid` is left out, it plays no part in waiting.) So are the
requests of `virtio_disk.c`: `virtio_disk_rw` waits until the disk is done with the buffer, and the interrupt
handler `virtio_disk_intr` says so.
-/

namespace Xv6.Sched

open Library

variable {C L D K : Type} [DecidableEq C] [DecidableEq L]

namespace Pc

omit [DecidableEq L] in
/-- A process that has set its state in `sleep` sleeps with the lock of the call. -/
theorem sleepLock_of_dozes {pc : Pc L K} {lk : Lock L} (h : pc.dozes = some lk) : pc.sleepLock = some lk := by
  cases pc <;> (cases h <;> rfl)

end Pc

namespace Machine

variable {m : Monitor D K} {l : L} {client : Client L D K} {s t : Machine C L D K} {chan : ℕ}

omit [DecidableEq C] [DecidableEq L] in
/-- Nobody dozes while the lock is free and nobody may sleep. -/
theorem Guarded.dozes_of_free (hg : Guarded m l s) (hfree : s.lock (.client l) = none)
    (hwaits : ¬m.waits chan s.data) (p : Fin NPROC) : ¬s.Dozes l p chan := by
  intro hp
  obtain hwait | ⟨c, hc, -⟩ := hg.waits p chan hp
  · exact hwaits hwait
  · rw [(hg.lock c).2 hc] at hfree
    cases hfree

/-- Nobody begins to doze in a step after which nobody may sleep. -/
theorem Guarded.dozes_step (hg : Guarded m l s) (hs : Exclusive s) {e : Event} (h : Step client s e t)
    (hwaits : ¬m.waits chan t.data) {p : Fin NPROC} (hp : t.Dozes l p chan) : s.Dozes l p chan := by
  obtain hold | ⟨hdata, c, hc, hsleeps⟩ := Machine.dozes_step hs h hp
  · exact hold
  · rw [hdata] at hwaits
    exact absurd ((hg.held c ((hg.lock c).1 hc)).1 chan hsleeps).2 hwaits

/-- Waiters sleep on a channel with a lock, when the condition is false; setters make the condition true and
wake the channel up before they give the lock back. Take a state in which the lock is free and the condition
is true. As long as the condition stays true, no process that is in `sleep` with the lock is `SLEEPING` on
the channel, whatever processes, schedulers and interrupts do, and whoever is killed. Setters are processes or
interrupt handlers. -/
theorem no_lost_wakeup (m : Monitor D K) (client : Client L D K) (l : L) (chan : ℕ) (cond : D → Prop)
    (hm : m.Guards client l) (hcond : ∀ d, m.waits chan d → ¬cond d) (init s t : Machine C L D K)
    (events events' : List Event) (hinit : Initial client init) (hinv : m.inv init.data)
    (hrun : Run (Step client) init events s) (hfree : s.lock (.client l) = none) (htrue : cond s.data)
    (hstay : Run (fun a e b => Step client a e b ∧ cond b.data) s events' t) (p : Fin NPROC) :
    ¬((t.pc p).sleepLock = some (.client l) ∧ (t.proc p).state = .sleeping ∧ (t.proc p).chan = chan) := by
  obtain ⟨hs, hg⟩ := Guarded.of_run hm hinit hinv hrun
  have ha := Asleep.of_run hinit hrun
  have hinv : (Exclusive t ∧ Guarded m l t ∧ Asleep t) ∧ ∀ p, ¬t.Dozes l p chan := by
    refine hstay.invariant (fun t => (Exclusive t ∧ Guarded m l t ∧ Asleep t) ∧ ∀ p, ¬t.Dozes l p chan) ?_ ?_
    · exact ⟨⟨hs, hg, ha⟩, hg.dozes_of_free hfree fun h => hcond _ h htrue⟩
    · intro a e b ⟨⟨hs, hg, ha⟩, hnot⟩ ⟨hstep, htrue⟩
      refine ⟨⟨hs.step hstep, hg.step hs hm hstep, ha.step hs hstep⟩, fun p hp => ?_⟩
      exact hnot p (hg.dozes_step hs hstep (fun h => hcond _ h htrue) hp)
  intro ⟨hlock, hstate, hchan⟩
  obtain ⟨lk, hdozes⟩ := hinv.1.2.2 p hstate
  rw [Pc.sleepLock_of_dozes hdozes] at hlock
  cases hlock
  exact hinv.2 p (.inr ⟨hstate, hchan, hdozes⟩)

end Machine

namespace SleepLock

/-- Points in the code of `sleeplock.c`. -/
inductive Point
  /-- Not in the code of the sleep lock. -/
  | user
  /-- The loop of `acquiresleep`, with `lk->lk` taken. -/
  | acquiring
  /-- `releasesleep`, with `lk->lk` taken. -/
  | releasing
  | waking
  | unlocking

/-- What a process does next, given `lk->locked`. -/
def next (chan : ℕ) : Bool → Point → Op Unit Bool Point → Prop
  | _, .user, op => op = .acquire () .acquiring ∨ op = .acquire () .releasing ∨
    (∃ pid, op = .kill pid fun _ => .user) ∨ op = .fork (fun _ => .user) ∨ (∃ status, op = .exit status) ∨
    op = .wait fun _ => .user
  | true, .acquiring, op => op = .sleep chan () .acquiring
  | false, .acquiring, op => op = .access true .unlocking
  | _, .releasing, op => op = .access false .waking
  | _, .waking, op => op = .wakeup chan .unlocking
  | _, .unlocking, op => op = .release () .user

/-- Processes that use one sleep lock. -/
def client (chan : ℕ) : Client Unit Bool Point where
  next := fun _ locked k op => next chan locked k op
  entry := .user

/-- Processes wait while the lock is taken, and `releasesleep` owes them a wakeup. -/
def monitor (chan : ℕ) : Monitor Bool Point where
  holds := fun k => k ≠ .user
  inv := fun _ => True
  asserts := fun _ _ => True
  waits := fun chan' locked => chan' = chan ∧ locked = true
  owes := fun k chan' => k = .waking ∧ chan' = chan

/-- The code of `sleeplock.c` follows the rules. -/
theorem monitor_guards (chan : ℕ) : (monitor chan).Guards (client chan) () where
  entry := fun h => h rfl
  next := by
    intro p locked k op _ hop
    have hop : next chan locked k op := hop
    cases k with
    | user =>
      have hkeeps : ∀ d, (monitor chan).Keeps d .user .user := fun d => ⟨Iff.rfl, fun h => absurd rfl h⟩
      have hnot : ¬(monitor chan).holds .user := fun h => h rfl
      obtain rfl | rfl | ⟨pid, rfl⟩ | rfl | ⟨status, rfl⟩ | rfl := hop
      · exact ⟨nofun, fun _ => trivial⟩
      · exact ⟨nofun, fun _ => trivial⟩
      · exact fun _ => hkeeps locked
      · exact fun _ => hkeeps locked
      · exact hnot
      · exact ⟨hnot, fun _ => hnot⟩
    | acquiring =>
      cases locked with
      | true =>
        cases hop
        exact ⟨nofun, nofun, trivial, ⟨rfl, rfl⟩, (fun _ h => nomatch h.1), fun _ _ => trivial⟩
      | false =>
        cases hop
        refine ⟨iff_of_true nofun nofun, fun h => absurd nofun h, fun _ => ⟨trivial, ?_⟩⟩
        rintro chan' (⟨h, -⟩ | ⟨⟨-, h⟩, -⟩) <;> cases h
    | releasing =>
      cases hop
      refine ⟨iff_of_true nofun nofun, fun h => absurd nofun h, fun _ => ⟨trivial, ?_⟩⟩
      rintro chan' (⟨h, -⟩ | ⟨⟨h, -⟩, -⟩)
      · cases h
      · exact ⟨rfl, h⟩
    | waking =>
      cases hop
      exact ⟨iff_of_true nofun nofun, fun _ => ⟨trivial, fun _ h => .inl h.2⟩⟩
    | unlocking =>
      cases hop
      exact fun _ => ⟨fun h => h rfl, trivial, fun _ h => nomatch h.1⟩
  vector := fun _ h => h.elim
  handles := fun _ _ _ _ h => h.elim
  iret := fun _ h => h.elim

/-- The operations of two processes and a sleep lock by number. -/
def script (chan : ℕ) : Script Unit Bool Point where
  entry := .user
  choices := fun locked k i =>
    match locked, k, i with
    | _, .user, 0 => some (.fork fun _ => .user)
    | _, .user, 1 => some (.acquire () .acquiring)
    | _, .user, _ => some (.acquire () .releasing)
    | true, .acquiring, _ => some (.sleep chan () .acquiring)
    | false, .acquiring, _ => some (.access true .unlocking)
    | _, .releasing, _ => some (.access false .waking)
    | _, .waking, _ => some (.wakeup chan .unlocking)
    | _, .unlocking, _ => some (.release () .user)
  locks := allLocks

theorem client_follows (chan : ℕ) : (client chan).Follows (script chan) where
  entry := rfl
  choices := by
    intro p locked k i op h
    cases k with
    | user =>
      match i with
      | 0 => exact .inr (.inr (.inr (.inl (Option.some.inj h).symm)))
      | 1 => exact .inl (Option.some.inj h).symm
      | _ + 2 => exact .inr (.inl (Option.some.inj h).symm)
    | _ => cases locked <;> cases h <;> rfl
  locks := mem_allLocks
  vector := fun _ _ h => nomatch h
  handles := fun _ _ _ h => nomatch h
  iret := fun _ h => nomatch h

end SleepLock

namespace Disk

/-- Points in `virtio_disk_rw` and `virtio_disk_intr`. -/
inductive Point
  /-- Not in the code of the disk. -/
  | user
  /-- `virtio_disk_rw`, with `vdisk_lock` taken. -/
  | submitting
  | waiting
  /-- `virtio_disk_intr`. -/
  | intr
  | completing
  | waking
  | unlocking
  | done
  deriving DecidableEq

/-- What a process does next, given `b->disk`. -/
def next (b : ℕ) : Bool → Point → Op Unit Bool Point → Prop
  | _, .user, op => op = .acquire () .submitting
  | _, .submitting, op => op = .access true .waiting
  | true, .waiting, op => op = .sleep b () .waiting
  | false, .waiting, op => op = .release () .user
  | _, _, _ => False

/-- What the handler does next. -/
def handles (b : ℕ) : Point → Option (Op Unit Bool Point)
  | .intr => some (.acquire () .completing)
  | .completing => some (.access false .waking)
  | .waking => some (.wakeup b .unlocking)
  | .unlocking => some (.release () .done)
  | _ => none

/-- Processes that use one buffer `b`, and the handler of the disk. -/
def client (b : ℕ) : Client Unit Bool Point where
  next := fun _ busy k op => next b busy k op
  entry := .user
  vector := fun k => k = .intr
  handles := fun _ k op => handles b k = some op
  iret := fun k => k = .done

/-- Processes wait while the disk has the buffer, and the handler owes them a wakeup. -/
def monitor (b : ℕ) : Monitor Bool Point where
  holds := fun k => k ≠ .user ∧ k ≠ .intr ∧ k ≠ .done
  inv := fun _ => True
  asserts := fun _ _ => True
  waits := fun chan busy => chan = b ∧ busy = true
  owes := fun k chan => k = .waking ∧ chan = b

/-- The code of `virtio_disk.c` follows the rules. -/
theorem monitor_guards (b : ℕ) : (monitor b).Guards (client b) () where
  entry := fun h => h.1 rfl
  next := by
    intro p busy k op _ hop
    have hop : next b busy k op := hop
    cases k with
    | user =>
      cases hop
      exact ⟨⟨nofun, nofun, nofun⟩, fun _ => trivial⟩
    | submitting =>
      cases hop
      refine ⟨iff_of_true ⟨nofun, nofun, nofun⟩ ⟨nofun, nofun, nofun⟩, fun h => absurd ⟨nofun, nofun, nofun⟩ h,
        fun _ => ⟨trivial, ?_⟩⟩
      rintro chan (⟨h, -⟩ | ⟨⟨h, -⟩, hnot⟩)
      · cases h
      · exact absurd ⟨h, rfl⟩ hnot
    | waiting =>
      cases busy with
      | true =>
        cases hop
        exact ⟨⟨nofun, nofun, nofun⟩, ⟨nofun, nofun, nofun⟩, trivial, ⟨rfl, rfl⟩, (fun _ h => nomatch h.1),
          fun _ _ => trivial⟩
      | false =>
        cases hop
        exact fun _ => ⟨fun h => h.1 rfl, trivial, fun _ h => nomatch h.1⟩
    | _ => cases busy <;> cases hop
  vector := by
    rintro k rfl h
    exact h.2.1 rfl
  handles := by
    intro busy k op _ hop
    have hop : handles b k = some op := hop
    cases k with
    | intr =>
      cases hop
      exact ⟨⟨nofun, nofun, nofun⟩, fun _ => trivial⟩
    | completing =>
      cases hop
      refine ⟨iff_of_true ⟨nofun, nofun, nofun⟩ ⟨nofun, nofun, nofun⟩, fun h => absurd ⟨nofun, nofun, nofun⟩ h,
        fun _ => ⟨trivial, ?_⟩⟩
      rintro chan (⟨h, -⟩ | ⟨⟨h, -⟩, -⟩)
      · cases h
      · exact ⟨rfl, h⟩
    | waking =>
      cases hop
      exact ⟨iff_of_true ⟨nofun, nofun, nofun⟩ ⟨nofun, nofun, nofun⟩, fun _ => ⟨trivial, fun _ h => .inl h.2⟩⟩
    | unlocking =>
      cases hop
      exact fun _ => ⟨fun h => h.2.2 rfl, trivial, fun _ h => nomatch h.1⟩
    | _ => cases hop
  iret := by
    rintro k rfl h
    exact h.2.2 rfl

/-- The operations of the processes and the handler by number. -/
def script (b : ℕ) : Script Unit Bool Point where
  entry := .user
  choices := fun busy k _ =>
    match busy, k with
    | _, .user => some (.acquire () .submitting)
    | _, .submitting => some (.access true .waiting)
    | true, .waiting => some (.sleep b () .waiting)
    | false, .waiting => some (.release () .user)
    | _, _ => none
  locks := allLocks
  vector := fun i => if i = 1 then some .intr else none
  handles := fun _ k => handles b k
  iret := fun k => k = .done

theorem client_follows (b : ℕ) : (client b).Follows (script b) where
  entry := rfl
  choices := by
    intro p busy k i op h
    cases busy <;> cases k <;> cases h <;> rfl
  locks := mem_allLocks
  vector := fun _ _ h => (Option.some.inj (Option.ite_none_right_eq_some.1 h).2).symm
  handles := fun _ _ _ h => h
  iret := fun k h => of_decide_eq_true (p := k = .done) h

end Disk

namespace Machine

variable {client : Client L D K} {script : Script L D K} {init r s : Machine C L D K} {cond : D → Prop}

/-- A process is in `sleep` with the lock, and `SLEEPING` on the channel. -/
def SleepsOn (s : Machine C L D K) (l : L) (chan : ℕ) (p : Fin NPROC) : Prop :=
  (s.pc p).sleepLock = some (.client l) ∧ (s.proc p).state = .sleeping ∧ (s.proc p).chan = chan

instance (s : Machine C L D K) (l : L) (chan : ℕ) (p : Fin NPROC) : Decidable (s.SleepsOn l chan p) :=
  inferInstanceAs (Decidable (_ ∧ _))

/-- The schedule of a run in which the condition stays true. -/
theorem exists_stay [DecidablePred cond] {schedule : List (C × ℕ)} (hfollows : client.Follows script)
    (h : (schedule.foldlM (fun a turn => (exec script a turn).filter fun b => cond b.data) s).isSome = true) :
    ∃ events t, Run (fun a e b => Step client a e b ∧ cond b.data) s events t := by
  obtain ⟨t, ht⟩ := Option.isSome_iff_exists.1 h
  refine (Run.of_foldlM ?_ ht).imp fun events hrun => ⟨t, hrun⟩
  intro a turn b hb
  obtain ⟨hexec, hcond⟩ := Option.filter_eq_some_iff.1 hb
  obtain ⟨e, hstep⟩ := exec_step hfollows hexec
  exact ⟨e, hstep, of_decide_eq_true hcond⟩

/-- A schedule in three parts: a process falls asleep, the lock is free and the condition true again, and
the condition stays true. -/
theorem exists_awake (init : Machine C L D K) (l : L) (chan : ℕ) (cond : D → Prop) [DecidablePred cond]
    (p : Fin NPROC) (before after stay : List (C × ℕ)) (hfollows : client.Follows script)
    (h : (before.foldlM (exec script) init).any (fun r => r.SleepsOn l chan p ∧
      (after.foldlM (exec script) r).any (fun s => (s.lock (.client l) = none ∧ cond s.data) ∧
        (stay.foldlM (fun a turn => (exec script a turn).filter fun b => cond b.data) s).isSome = true) = true) =
      true) :
    ∃ r s t events events' events'', Run (Step client) init events r ∧ r.SleepsOn l chan p ∧
      Run (Step client) r events' s ∧ s.lock (.client l) = none ∧ cond s.data ∧
      Run (fun a e b => Step client a e b ∧ cond b.data) s events'' t := by
  obtain ⟨events, r, hrun, hsleeps, hafter⟩ := exists_run hfollows h
  obtain ⟨events', s, hrun', ⟨hfree, htrue⟩, hstay⟩ := exists_run hfollows hafter
  obtain ⟨events'', t, hrun''⟩ := exists_stay hfollows hstay
  exact ⟨r, s, t, events, events', events'', hrun, hsleeps, hrun', hfree, htrue, hrun''⟩

/-- On the first CPU a process waits for the disk; an interrupt of the second CPU, which is idle, announces
that the disk is done, and the second CPU runs the process on. And on the second CPU a process waits for a sleep lock
that another one gives back on the first CPU. -/
theorem no_lost_wakeup_runs :
    (∃ (r s t : Machine Bool Unit Bool Disk.Point) (events events' events'' : List Event),
      Run (Step (Disk.client 8)) (boot (Disk.client 8) false 4096 8192) events r ∧ r.SleepsOn () 8 initproc ∧
      Run (Step (Disk.client 8)) r events' s ∧ s.lock (.client ()) = none ∧ s.data = false ∧
      Run (fun a e b => Step (Disk.client 8) a e b ∧ b.data = false) s events'' t ∧
      ∀ p, ¬t.SleepsOn () 8 p) ∧
    ∃ (r s t : Machine Bool Unit Bool SleepLock.Point) (events events' events'' : List Event),
      Run (Step (SleepLock.client 8)) (boot (SleepLock.client 8) false 4096 8192) events r ∧
      r.SleepsOn () 8 child ∧
      Run (Step (SleepLock.client 8)) r events' s ∧ s.lock (.client ()) = none ∧ s.data = false ∧
      Run (fun a e b => Step (SleepLock.client 8) a e b ∧ b.data = false) s events'' t ∧
      ∀ p, ¬t.SleepsOn () 8 p := by
  have hcond : ∀ busy : Bool, 8 = 8 ∧ busy = true → ¬busy = false := by decide
  constructor
  · obtain ⟨r, s, t, events, events', events'', hrun, hsleeps, hrun', hfree, htrue, hstay⟩ :=
      exists_awake (boot (Disk.client 8) false 4096 8192) () 8 (fun busy => busy = false) initproc
        (.replicate 16 (false, 0)) ((true, 1) :: .replicate 198 (true, 0)) (.replicate 10 (true, 0))
        (Disk.client_follows 8) (by decide +kernel)
    exact ⟨r, s, t, events, events', events'', hrun, hsleeps, hrun', hfree, htrue, hstay,
      no_lost_wakeup _ _ _ 8 _ (Disk.monitor_guards 8) hcond _ s t _ _
        (boot_initial _ _ (by decide) (by decide)) trivial (hrun.append hrun') hfree htrue hstay⟩
  · obtain ⟨r, s, t, events, events', events'', hrun, hsleeps, hrun', hfree, htrue, hstay⟩ :=
      exists_awake (boot (SleepLock.client 8) false 4096 8192) () 8 (fun locked => locked = false) child
        (.replicate 8 (false, 0) ++ .replicate 25 (false, 1) ++ .replicate 18 (true, 1))
        (.replicate 195 (false, 2)) (.replicate 9 (true, 1)) (SleepLock.client_follows 8) (by decide +kernel)
    exact ⟨r, s, t, events, events', events'', hrun, hsleeps, hrun', hfree, htrue, hstay,
      no_lost_wakeup _ _ _ 8 _ (SleepLock.monitor_guards 8) hcond _ s t _ _
        (boot_initial _ _ (by decide) (by decide)) trivial (hrun.append hrun') hfree htrue hstay⟩

end Machine

end Xv6.Sched
