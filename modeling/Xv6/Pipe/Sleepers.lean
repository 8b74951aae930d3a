import Xv6.Pipe.Fifo
import Xv6.Pipe.KilledWriter
import Xv6.Sched.LostWakeup

/-!
# Who sleeps on a pipe

Readers sleep on `&pi->nread` while the pipe is empty and open for writing, writers on `&pi->nwrite` while it
is full and open for reading. All paths through `pipe.c` wake up those for whom they have changed this, but
one: a `pipewrite` that has stored bytes and then finds its process killed gives the lock back without waking
up the readers.
-/

namespace Xv6.Pipe

open Library Sched

variable {C : Type} [DecidableEq C] {d : Shared} {pi : ℕ}

theorem nwriteChan_ne (pi : ℕ) : nwriteChan pi ≠ nreadChan pi := by
  unfold nwriteChan nreadChan
  omega

/-- Readers wait while the pipe is empty, writers while it is full, and so long as the other end is open. -/
def Waits (pi chan : ℕ) (d : Shared) : Prop :=
  (chan = nreadChan pi → d.pipe.Empty ∧ d.pipe.writeopen = true) ∧
    (chan = nwriteChan pi → d.pipe.Full ∧ d.pipe.readopen = true)

/-- What the code has tested since it took the lock. -/
def tested (d : Shared) : Point → Prop
  | .writeTest _ _ stored => stored = true → d.pipe.readopen = true
  | .writeCopy _ _ _ => d.pipe.readopen = true
  | .writeSleep _ _ => d.pipe.Full ∧ d.pipe.readopen = true
  | .readSleep _ => d.pipe.Empty ∧ d.pipe.writeopen = true
  | _ => True

/-- The channel that the code has to wake up before it gives the lock back. -/
def owes (pi : ℕ) : Point → Option ℕ
  | .writeTest _ _ true | .writeCopy _ _ true | .writeAbort true => some (nreadChan pi)
  | .readCopy _ _ => some (nwriteChan pi)
  | .closeWake writable => some (if writable then nreadChan pi else nwriteChan pi)
  | _ => none

/-- How the code uses the lock of the pipe. -/
def monitor (pi : ℕ) : Monitor Shared Point where
  holds := fun k => k.inside = true
  inv := Fifo
  asserts := fun k d => Fifo d ∧ tested d k
  waits := Waits pi
  owes := fun k chan => owes pi k = some chan

/-- Processes that use a pipe, without those that find themselves killed after they have stored a byte. -/
def carefulClient (pi : ℕ) : Client Unit Shared Point where
  next := fun _ d k op => next pi d k op ∧ k ≠ .writeAbort true
  entry := .user 0

omit [DecidableEq C] in
theorem careful_executes {s : Machine C Unit Shared Point} {c : C} {back : Option (Pc Unit Point)} {k : Point}
    {op : Op Unit Shared Point} (h : Machine.Executes (carefulClient pi) s c back k op) :
    Machine.Executes (client pi) s c back k op := by
  cases h with
  | proc p k op hrun hpc hnext => exact .proc p k op hrun hpc hnext.1
  | handler back k op hpc hnext => exact hnext.elim

/-- Their steps are steps of processes that use a pipe. -/
theorem carefulClient_step {s t : Machine C Unit Shared Point} {e : Event}
    (h : Machine.Step (carefulClient pi) s e t) : Machine.Step (client pi) s e t := by
  cases h with
  | clientAcquire c back l k k' hop hfree => exact .clientAcquire s c back l k k' (careful_executes hop) hfree
  | clientRelease c back l k k' hop hheld => exact .clientRelease s c back l k k' (careful_executes hop) hheld
  | access c back d k k' hop => exact .access s c back d k k' (careful_executes hop)
  | wakeup c back chan k k' hop => exact .wakeup s c back chan k k' (careful_executes hop)
  | own c p op k k' hrun hpc hnext => exact .own s c p op k k' hrun hpc hnext.1
  | call c p op k next hrun hpc hnext hcall => exact .call s c p op k next hrun hpc hnext.1 hcall
  | interrupt c next hfree hidle hnext =>
    cases hnext with
    | wakeup chan => exact .interrupt s c _ hfree hidle (.wakeup chan)
    | handler k hstart => exact hstart.elim
  | iret c k back hpc hend => exact hend.elim
  | context c i next hcode => exact .context s c i next hcode
  | read c i next hcode => exact .read s c i next hcode
  | any c value next hcode => exact .any s c value next hcode
  | timer c p hrun hfree => exact .timer s c p hrun hfree
  | _ => constructor <;> assumption

variable {chan : ℕ}

section Rules

variable {k k' : Point}

theorem allows_release (hd : Fifo d) (howes : owes pi k = none) (result : ℤ) :
    (monitor pi).Allows () d k (.release () (.user result) : Op Unit Shared Point) := by
  refine fun _ => ⟨nofun, hd, fun chan h => ?_⟩
  have h : owes pi k = some chan := h
  exact none_elim howes h

theorem allows_wakeup (hd : Fifo d) (htested : tested d k') (hk : k.inside = true) (hk' : k'.inside = true)
    (chan : ℕ) (howes : owes pi k = none ∨ owes pi k = some chan) :
    (monitor pi).Allows () d k (.wakeup chan k' : Op Unit Shared Point) := by
  refine ⟨iff_of_true hk' hk, fun _ => ⟨⟨hd, htested⟩, fun chan' h => .inl ?_⟩⟩
  have h : owes pi k = some chan' := h
  obtain hnone | hsome := howes
  · exact none_elim hnone h
  · rw [hsome] at h
    exact (Option.some.inj h).symm

theorem allows_sleep (hd : Fifo d) (hk : k.inside = true) (hk' : k'.inside = true)
    (hwaits : Waits pi chan d) (howes : owes pi k = none) (htested : ∀ d, tested d k') :
    (monitor pi).Allows () d k (.sleep chan () k' : Op Unit Shared Point) := by
  refine ⟨hk, hk', hd, hwaits, fun chan' h => ?_, fun d hd => ⟨hd, htested d⟩⟩
  have h : owes pi k = some chan' := h
  exact none_elim howes h

theorem allows_keep (hd : Fifo d) (hk : k.inside = true) (hk' : k'.inside = true) (htested : tested d k')
    (howes : owes pi k' = owes pi k) : (monitor pi).Keeps d k k' := by
  refine ⟨iff_of_true hk' hk, fun _ => ⟨⟨hd, htested⟩, fun chan h => ?_⟩⟩
  exact howes.trans h

theorem allows_access {d' : Shared} (hd' : Fifo d') (hk : k.inside = true) (hk' : k'.inside = true)
    (htested : tested d' k') (howes : ∀ chan, owes pi k = some chan → owes pi k' = some chan)
    (hwaits : ∀ chan, Waits pi chan d → owes pi k' = some chan ∨ Waits pi chan d') :
    (monitor pi).Allows () d k (.access d' k' : Op Unit Shared Point) := by
  refine ⟨iff_of_true hk' hk, fun h => absurd hk h, fun _ => ⟨⟨hd', htested⟩, ?_⟩⟩
  rintro chan (h | ⟨hold, hnot⟩)
  · exact howes chan h
  · obtain h | h := hwaits chan hold
    · exact h
    · exact absurd h hnot

end Rules

/-- A byte is stored: only readers who waited for one do not wait any more. -/
theorem waits_store (hfull : ¬d.pipe.Full) {ch : UInt8} (h : Waits pi chan d) :
    some (nreadChan pi) = some chan ∨ Waits pi chan (d.store ch) := by
  by_cases hchan : chan = nreadChan pi
  · exact .inl (by rw [hchan])
  · exact .inr ⟨fun heq => absurd heq hchan, fun heq => absurd (h.2 heq).1 hfull⟩

/-- A byte is taken: only writers who waited for room do not wait any more. -/
theorem waits_deliver (hempty : ¬d.pipe.Empty) (h : Waits pi chan d) :
    some (nwriteChan pi) = some chan ∨ Waits pi chan d.deliver := by
  by_cases hchan : chan = nwriteChan pi
  · exact .inl (by rw [hchan])
  · exact .inr ⟨fun heq => absurd (h.1 heq).1 hempty, fun heq => absurd heq hchan⟩

/-- An end is closed: only those at the other end do not wait any more. -/
theorem waits_close {writable : Bool} (h : Waits pi chan d) :
    some (if writable then nreadChan pi else nwriteChan pi) = some chan ∨
      Waits pi chan (d.close writable) := by
  cases writable with
  | true =>
    by_cases hchan : chan = nreadChan pi
    · exact .inl (by rw [hchan]; rfl)
    · exact .inr ⟨fun heq => absurd heq hchan, h.2⟩
  | false =>
    by_cases hchan : chan = nwriteChan pi
    · exact .inl (by rw [hchan]; rfl)
    · exact .inr ⟨h.1, fun heq => absurd heq hchan⟩

/-- The code of `pipe.c` wakes up whom it owes it, but for the path that the careful client leaves out. -/
theorem monitor_guards (pi : ℕ) : (monitor pi).Guards (carefulClient pi) () where
  entry := nofun
  vector := fun _ h => h.elim
  handles := fun _ _ _ _ h => h.elim
  iret := fun _ h => h.elim
  next := by
    intro p d k op hasserts hop
    obtain ⟨hop, hcareful⟩ : next pi d k op ∧ k ≠ .writeAbort true := hop
    have hlock : HoldsLock (monitor pi) := fun _ => Iff.rfl
    cases k with
    | user result =>
      obtain ⟨n, rfl⟩ | ⟨n, rfl⟩ | ⟨writable, rfl⟩ | hop := hop
      · exact ⟨rfl, fun hd => ⟨hd, nofun⟩⟩
      · exact ⟨rfl, fun hd => ⟨hd, trivial⟩⟩
      · exact ⟨rfl, fun hd => ⟨hd, trivial⟩⟩
      · exact hlock.user hop
    | writeTest n i stored =>
      obtain ⟨hd, htested⟩ := hasserts rfl
      simp only [next] at hop
      split at hop
      · split at hop <;> subst hop
        · rename_i hclosed
          refine allows_release hd ?_ _
          cases stored with
          | false => rfl
          | true =>
            rw [htested rfl] at hclosed
            cases hclosed
        · rename_i hopen
          have hopen : d.pipe.readopen = true := by
            rwa [Bool.not_eq_false] at hopen
          intro killed
          cases killed with
          | true => exact allows_keep hd rfl rfl trivial (by cases stored <;> rfl)
          | false => exact allows_keep hd rfl rfl hopen (by cases stored <;> rfl)
      · subst hop
        refine allows_wakeup hd (by trivial) rfl (by rfl) _ ?_
        cases stored
        · exact .inl rfl
        · exact .inr rfl
    | writeCopy n i stored =>
      obtain ⟨hd, hopen⟩ := hasserts rfl
      have howes : owes pi (.writeCopy n i stored) = none ∨
          owes pi (.writeCopy n i stored) = some (nreadChan pi) := by
        cases stored
        · exact .inl rfl
        · exact .inr rfl
      simp only [next] at hop
      split at hop
      · rename_i hfull
        subst hop
        exact allows_wakeup hd (by exact ⟨hfull, hopen⟩) rfl (by rfl) _ howes
      · rename_i hfull
        obtain rfl | ⟨ch, rfl⟩ := hop
        · exact allows_wakeup hd (by trivial) rfl (by rfl) _ howes
        · refine allows_access (hd.store hfull ch) rfl (by rfl) (fun _ => hopen) ?_ ?_
          · intro chan h
            obtain hnone | hsome := howes
            · exact none_elim hnone h
            · rw [hsome] at h
              exact h
          · exact fun chan h => waits_store hfull h
    | writeSleep n i =>
      obtain ⟨hd, htested⟩ := hasserts rfl
      cases hop
      exact allows_sleep hd rfl (by rfl) ⟨fun h => absurd h (nwriteChan_ne pi), fun _ => htested⟩ rfl
        (by simp [tested])
    | readTest n =>
      obtain ⟨hd, -⟩ := hasserts rfl
      simp only [next] at hop
      split at hop <;> subst hop
      · rename_i htest
        intro killed
        cases killed with
        | true => exact allows_keep hd rfl rfl trivial rfl
        | false => exact allows_keep hd rfl rfl htest rfl
      · exact allows_access hd rfl (by rfl) (by trivial) (by simp [owes]) fun _ h => .inr h
    | readSleep n =>
      obtain ⟨hd, htested⟩ := hasserts rfl
      cases hop
      exact allows_sleep hd rfl (by rfl) ⟨fun _ => htested, fun h => absurd h.symm (nwriteChan_ne pi)⟩ rfl
        fun _ => trivial
    | readCopy n i =>
      obtain ⟨hd, -⟩ := hasserts rfl
      simp only [next] at hop
      split at hop
      · rename_i htest
        obtain rfl | rfl := hop
        · exact allows_wakeup hd (by trivial) rfl (by rfl) _ (.inr rfl)
        · exact allows_access (hd.deliver htest.2) rfl (by rfl) (by trivial) (fun _ h => h)
            fun _ h => waits_deliver htest.2 h
      · subst hop
        exact allows_wakeup hd (by trivial) rfl (by rfl) _ (.inr rfl)
    | closing writable =>
      obtain ⟨hd, -⟩ := hasserts rfl
      cases hop
      exact allows_access (hd.close writable) rfl (by rfl) (by trivial) (by simp [owes]) fun _ h => waits_close h
    | closeWake writable =>
      obtain ⟨hd, -⟩ := hasserts rfl
      cases hop
      exact allows_wakeup hd (by trivial) rfl (by rfl) _ (.inr rfl)
    | writeAbort stored =>
      obtain ⟨hd, -⟩ := hasserts rfl
      cases hop
      refine allows_release hd ?_ _
      cases stored with
      | false => rfl
      | true => exact absurd rfl hcareful
    | writeUnlock | readAbort | readUnlock | closeUnlock =>
      obtain ⟨hd, -⟩ := hasserts rfl
      cases hop
      exact allows_release hd rfl _

/-- In every run of processes that use a pipe, in which no `pipewrite` leaves because its process is killed
after it has stored a byte since it took the lock: while the lock of the pipe is free, a process that is
`SLEEPING` in `sleep(&pi->nread, &pi->lock)` has an empty pipe before it that is open for writing, and one
that is `SLEEPING` in `sleep(&pi->nwrite, &pi->lock)` a full pipe that is open for reading. -/
theorem pipe_sleepers (pi : ℕ) (data : ℕ → UInt8) (init s : Machine C Unit Shared Point)
    (events : List Event) (hinit : Machine.Initial (carefulClient pi) init)
    (hnew : init.data = .pipealloc data) (hrun : Run (Machine.Step (carefulClient pi)) init events s)
    (hfree : s.lock (.client ()) = none) (p : Fin NPROC) (hstate : (s.proc p).state = .sleeping)
    (hlock : (s.pc p).sleepLock = some (.client ())) :
    ((s.proc p).chan = nreadChan pi → s.data.pipe.Empty ∧ s.data.pipe.writeopen = true) ∧
      ((s.proc p).chan = nwriteChan pi → s.data.pipe.Full ∧ s.data.pipe.readopen = true) := by
  have hinv : (monitor pi).inv init.data := by
    rw [hnew]
    exact .pipealloc data
  obtain ⟨-, hg⟩ := Machine.Guarded.of_run (monitor_guards pi) hinit hinv hrun
  obtain ⟨lk, hdozes⟩ := Machine.Asleep.of_run hinit hrun p hstate
  rw [Pc.sleepLock_of_dozes hdozes] at hlock
  cases hlock
  by_contra hnot
  exact hg.dozes_of_free hfree hnot p (.inr ⟨hstate, rfl, hdozes⟩)

theorem carefulClient_follows : (carefulClient 4096).Follows (script false) where
  entry := rfl
  choices := fun _ _ _ _ _ h => ⟨(choices_next h).1, (choices_next h).2 rfl⟩
  locks := mem_allLocks
  vector := fun _ _ h => nomatch h
  handles := fun _ _ _ h => nomatch h
  iret := fun _ h => nomatch h

/-- A child of the first process sleeps in `piperead`, before an empty pipe that is open for writing. -/
theorem pipe_sleepers_reader :
    ∃ s : Machine Bool Unit Shared Point, Machine.Reachable (carefulClient 4096) s ∧
      (s.proc child).state = .sleeping ∧ (s.proc child).chan = nreadChan 4096 ∧
      s.data.pipe.Empty ∧ s.data.pipe.writeopen = true := by
  obtain ⟨events, s, hrun, hfree, hstate, hpc, hchan⟩ := Machine.exists_run carefulClient_follows
    (show (readerSleeps.foldlM (Machine.exec (script false)) pipeBoot).any (fun s => Asleep s) = true by
      decide +kernel)
  have hinit := Machine.boot_initial (C := Bool) (carefulClient 4096) (.pipealloc fun _ => 5)
    (show 4096 ≠ 0 by decide) (show 8192 ≠ 0 by decide)
  refine ⟨s, ⟨_, events, hinit, hrun⟩, hstate, hchan, ?_⟩
  exact (pipe_sleepers 4096 (fun _ => 5) _ s events hinit rfl hrun hfree child hstate hpc).1 hchan

/-- A writer is killed between its first byte and its second: with the lock of the pipe free, the reader
sleeps for a byte that is in the pipe. -/
theorem killed_writer_strands_reader :
    ∃ s : Machine Bool Unit Shared Point, Machine.Reachable (client 4096) s ∧
      s.lock (.client ()) = none ∧ (s.proc child).state = .sleeping ∧
      (s.pc child).sleepLock = some (.client ()) ∧ (s.proc child).chan = nreadChan 4096 ∧
      ¬s.data.pipe.Empty := by
  obtain ⟨events, s, hrun, ⟨hfree, hstate, hpc, hchan⟩, hdata⟩ := Machine.exists_run (client_follows true)
    (show ((readerSleeps ++ writerLeaves).foldlM (Machine.exec (script true)) pipeBoot).any
      (fun s => Asleep s ∧ ¬s.data.pipe.Empty) = true by decide +kernel)
  exact ⟨s, ⟨_, events, Machine.boot_initial _ _ (by decide) (by decide), hrun⟩, hfree, hstate, hpc, hchan, hdata⟩

end Xv6.Pipe
