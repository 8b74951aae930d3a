import Xv6.Pipe.KilledWriter
import Xv6.Sched.Guarded

/-!
# Pipes keep the order of bytes

The pipe is a ring: what was stored is what was delivered followed by what the ring holds. The counters
`nread` and `nwrite` run modulo `2^32`, of which `PIPESIZE` is a divisor.
-/

namespace Xv6.Pipe

open Library Sched

variable {C : Type} [DecidableEq C]

/-- The pipe holds the bytes that were stored and not delivered. -/
structure Fifo (d : Shared) : Prop where
  ring : Ring PIPESIZE d.pipe.data d.stored d.delivered.length
  nread : d.pipe.nread = d.delivered.length % UINT
  nwrite : d.pipe.nwrite = d.stored.length % UINT
  order : d.delivered = d.stored.take d.delivered.length

theorem PIPESIZE_lt : PIPESIZE < UINT := by
  decide

theorem PIPESIZE_dvd : PIPESIZE ∣ UINT := by
  decide

namespace Fifo

variable {d : Shared}

/-- A new pipe. -/
theorem pipealloc (data : ℕ → UInt8) : Fifo (Shared.pipealloc data) where
  ring := .nil PIPESIZE data
  nread := rfl
  nwrite := rfl
  order := rfl

section

variable (h : Fifo d)

include h

/-- The pipe is empty exactly if everything was delivered. -/
theorem empty_iff : d.pipe.Empty ↔ d.delivered.length = d.stored.length := by
  unfold Empty
  rw [h.nread, h.nwrite]
  exact counter_eq_iff h.ring.taken_le h.ring.room PIPESIZE_lt

/-- The pipe is full exactly if it holds `PIPESIZE` bytes. -/
theorem full_iff : d.pipe.Full ↔ d.stored.length = d.delivered.length + PIPESIZE := by
  unfold Full
  rw [h.nread, h.nwrite]
  exact counter_full_iff h.ring.taken_le h.ring.room PIPESIZE_lt

/-- The difference of the counters is the number of bytes in the pipe. -/
theorem count_eq : d.pipe.count = d.stored.length - d.delivered.length := by
  unfold count
  rw [h.nread, h.nwrite]
  exact counter_sub h.ring.taken_le h.ring.room PIPESIZE_lt

/-- What was stored is what was delivered and what the pipe holds. -/
theorem stored_eq : d.stored = d.delivered ++ d.pipe.contents := by
  have hcontents : d.pipe.contents = d.stored.drop d.delivered.length := by
    rw [← h.ring.contents]
    unfold contents
    rw [h.count_eq, h.nread]
    refine List.map_congr_left fun j _ => ?_
    rw [Nat.mod_add_mod, Nat.mod_mod_of_dvd _ PIPESIZE_dvd]
  rw [hcontents]
  calc
    d.stored = d.stored.take d.delivered.length ++ d.stored.drop d.delivered.length :=
      (List.take_append_drop _ _).symm
    _ = d.delivered ++ d.stored.drop d.delivered.length := by rw [← h.order]

/-- A writer stores a byte in a pipe that is not full. -/
theorem store (hfull : ¬d.pipe.Full) (ch : UInt8) : Fifo (d.store ch) where
  ring := by
    have hroom : d.stored.length < d.delivered.length + PIPESIZE :=
      lt_of_le_of_ne h.ring.room fun heq => hfull (h.full_iff.2 heq)
    have hcell : d.pipe.nwrite % PIPESIZE = d.stored.length % PIPESIZE := by
      rw [h.nwrite, Nat.mod_mod_of_dvd _ PIPESIZE_dvd]
    change Ring PIPESIZE (Function.update d.pipe.data (d.pipe.nwrite % PIPESIZE) ch) (d.stored ++ [ch]) _
    rw [hcell]
    exact h.ring.put hroom ch
  nread := h.nread
  nwrite := by
    change (d.pipe.nwrite + 1) % UINT = (d.stored ++ [ch]).length % UINT
    rw [h.nwrite, List.length_append, List.length_singleton, Nat.mod_add_mod]
  order := by
    change d.delivered = (d.stored ++ [ch]).take d.delivered.length
    rw [List.take_append_of_le_length h.ring.taken_le]
    exact h.order

/-- The first byte of a pipe that is not empty is the next one to be delivered. -/
theorem front_eq (hlt : d.delivered.length < d.stored.length) : d.pipe.front = d.stored[d.delivered.length] := by
  unfold front
  rw [h.nread, Nat.mod_mod_of_dvd _ PIPESIZE_dvd]
  exact h.ring.cells d.delivered.length hlt le_rfl

/-- A reader takes a byte off a pipe that is not empty. -/
theorem deliver (hempty : ¬d.pipe.Empty) : Fifo d.deliver := by
  have hlt : d.delivered.length < d.stored.length :=
    lt_of_le_of_ne h.ring.taken_le fun heq => hempty (h.empty_iff.2 heq)
  have hlength : (d.delivered ++ [d.pipe.front]).length = d.delivered.length + 1 := by
    rw [List.length_append, List.length_singleton]
  exact {
    ring := by
      change Ring PIPESIZE d.pipe.data d.stored (d.delivered ++ [d.pipe.front]).length
      rw [hlength]
      exact h.ring.take hlt
    nread := by
      change (d.pipe.nread + 1) % UINT = (d.delivered ++ [d.pipe.front]).length % UINT
      rw [hlength, h.nread, Nat.mod_add_mod]
    nwrite := h.nwrite
    order := by
      change d.delivered ++ [d.pipe.front] = d.stored.take (d.delivered ++ [d.pipe.front]).length
      rw [hlength, List.take_succ_eq_append_getElem hlt, ← h.order, h.front_eq hlt] }

/-- Closing an end leaves the bytes alone. -/
theorem close (writable : Bool) : Fifo (d.close writable) := by
  cases writable <;> exact ⟨h.ring, h.nread, h.nwrite, h.order⟩

end

end Fifo

/-- The points of the code of the pipe. -/
def Point.inside : Point → Bool
  | .user _ => false
  | _ => true

/-- The lock of the pipe protects the bytes. -/
def fifoMonitor : Monitor Shared Point where
  holds := fun k => k.inside = true
  inv := Fifo
  asserts := fun _ => Fifo
  waits := fun _ _ => True
  owes := fun _ _ => False

section Rules

variable {m : Monitor Shared Point} {d : Shared} {pi : ℕ}

/-- The monitor says that the lock is held at all points of the code of the pipe. -/
def HoldsLock (m : Monitor Shared Point) : Prop :=
  ∀ k, m.holds k ↔ k.inside = true

/-- What a process does outside of the code of the pipe follows the rules of every such monitor. -/
theorem HoldsLock.user (h : HoldsLock m) {result : ℤ} {op : Op Unit Shared Point} (hop : userOp op) :
    m.Allows () d (.user result) op := by
  have hnot : ∀ result, ¬m.holds (.user result) := fun result hholds => nomatch (h _).1 hholds
  have hkeeps : m.Keeps d (.user result) (.user 0) :=
    ⟨iff_of_false (hnot 0) (hnot result), fun hholds => absurd hholds (hnot result)⟩
  obtain ⟨pid, rfl⟩ | rfl | ⟨status, rfl⟩ | rfl := hop
  · exact fun _ => hkeeps
  · exact fun _ => hkeeps
  · exact hnot result
  · exact ⟨hnot result, fun _ => hnot 0⟩

end Rules

section FifoRules

variable {d d' : Shared} {k k' : Point}

theorem fifo_release (hd : Fifo d) (result : ℤ) :
    fifoMonitor.Allows () d k (.release () (.user result) : Op Unit Shared Point) :=
  fun _ => ⟨nofun, hd, fun _ h => h⟩

section

variable (hd : Fifo d) (hk : fifoMonitor.holds k) (hk' : fifoMonitor.holds k')

include hd hk hk'

theorem fifo_wakeup (chan : ℕ) : fifoMonitor.Allows () d k (.wakeup chan k' : Op Unit Shared Point) :=
  ⟨iff_of_true hk' hk, fun _ => ⟨hd, fun _ h => absurd h id⟩⟩

theorem fifo_sleep (chan : ℕ) : fifoMonitor.Allows () d k (.sleep chan () k' : Op Unit Shared Point) :=
  ⟨hk, hk', hd, trivial, fun _ h => h, fun _ h => h⟩

theorem fifo_killed {k'' : Point} (hk'' : fifoMonitor.holds k'') :
    fifoMonitor.Allows () d k (.killed fun killed => if killed then k' else k'' : Op Unit Shared Point) := by
  intro killed
  cases killed
  · exact ⟨iff_of_true hk'' hk, fun _ => ⟨hd, fun _ h => absurd h id⟩⟩
  · exact ⟨iff_of_true hk' hk, fun _ => ⟨hd, fun _ h => absurd h id⟩⟩

end

theorem fifo_access (hd' : Fifo d') (hk : fifoMonitor.holds k) (hk' : fifoMonitor.holds k') :
    fifoMonitor.Allows () d k (.access d' k' : Op Unit Shared Point) := by
  refine ⟨iff_of_true hk' hk, fun h => absurd hk h, fun _ => ⟨hd', ?_⟩⟩
  rintro chan (h | ⟨-, h⟩)
  · exact h
  · exact absurd trivial h

end FifoRules

/-- The code of `pipe.c` keeps the order of bytes. -/
theorem fifoMonitor_guards (pi : ℕ) : fifoMonitor.Guards (client pi) () where
  entry := nofun
  vector := fun _ h => h.elim
  handles := fun _ _ _ _ h => h.elim
  iret := fun _ h => h.elim
  next := by
    intro p d k op hasserts hop
    have hop : next pi d k op := hop
    have hlock : HoldsLock fifoMonitor := fun _ => Iff.rfl
    cases k with
    | user result =>
      obtain ⟨n, rfl⟩ | ⟨n, rfl⟩ | ⟨writable, rfl⟩ | hop := hop
      · exact ⟨rfl, id⟩
      · exact ⟨rfl, id⟩
      · exact ⟨rfl, id⟩
      · exact hlock.user hop
    | writeTest n i stored =>
      have hk : fifoMonitor.holds (.writeTest n i stored) := rfl
      have hd := hasserts hk
      simp only [next] at hop
      split at hop
      · split at hop <;> subst hop
        · exact fifo_release hd _
        · exact fifo_killed hd hk (by rfl) (by rfl)
      · subst hop
        exact fifo_wakeup hd hk (by rfl) _
    | writeCopy n i stored =>
      have hk : fifoMonitor.holds (.writeCopy n i stored) := rfl
      have hd := hasserts hk
      simp only [next] at hop
      split at hop
      · subst hop
        exact fifo_wakeup hd hk (by rfl) _
      · rename_i hfull
        obtain rfl | ⟨ch, rfl⟩ := hop
        · exact fifo_wakeup hd hk (by rfl) _
        · exact fifo_access (hd.store hfull ch) hk (by rfl)
    | writeSleep n i =>
      have hk : fifoMonitor.holds (.writeSleep n i) := rfl
      cases hop
      exact fifo_sleep (hasserts hk) hk (by rfl) _
    | readTest n =>
      have hk : fifoMonitor.holds (.readTest n) := rfl
      have hd := hasserts hk
      simp only [next] at hop
      split at hop <;> subst hop
      · exact fifo_killed hd hk (by rfl) (by rfl)
      · exact fifo_access hd hk (by rfl)
    | readSleep n =>
      have hk : fifoMonitor.holds (.readSleep n) := rfl
      cases hop
      exact fifo_sleep (hasserts hk) hk (by rfl) _
    | readCopy n i =>
      have hk : fifoMonitor.holds (.readCopy n i) := rfl
      have hd := hasserts hk
      simp only [next] at hop
      split at hop
      · rename_i htest
        obtain rfl | rfl := hop
        · exact fifo_wakeup hd hk (by rfl) _
        · exact fifo_access (hd.deliver htest.2) hk (by rfl)
      · subst hop
        exact fifo_wakeup hd hk (by rfl) _
    | closing writable =>
      have hk : fifoMonitor.holds (.closing writable) := rfl
      cases hop
      exact fifo_access ((hasserts hk).close writable) hk (by rfl)
    | closeWake writable =>
      have hk : fifoMonitor.holds (.closeWake writable) := rfl
      cases hop
      exact fifo_wakeup (hasserts hk) hk (by rfl) _
    | writeAbort | writeUnlock | readAbort | readUnlock | closeUnlock =>
      cases hop
      exact fifo_release (hasserts rfl) _

/-- In every run of processes that use a pipe, from `pipealloc` on: the bytes delivered to readers are a
prefix of the bytes stored by writers, what is missing is in the pipe in this order, and the difference of
the counters, as a `uint`, is at most `PIPESIZE`. -/
theorem pipe_fifo (pi : ℕ) (data : ℕ → UInt8) (init s : Machine C Unit Shared Point) (events : List Event)
    (hinit : Machine.Initial (client pi) init) (hnew : init.data = .pipealloc data)
    (hrun : Run (Machine.Step (client pi)) init events s) :
    s.data.delivered <+: s.data.stored ∧ s.data.stored = s.data.delivered ++ s.data.pipe.contents ∧
      s.data.pipe.count ≤ PIPESIZE := by
  have hinv : Fifo init.data := by
    rw [hnew]
    exact .pipealloc data
  obtain ⟨-, hg⟩ := Machine.Guarded.of_run (fifoMonitor_guards pi) hinit hinv hrun
  have hd : Fifo s.data := hg.always (fun _ h => h) fun _ _ _ h => h
  refine ⟨⟨_, hd.stored_eq.symm⟩, hd.stored_eq, ?_⟩
  rw [hd.count_eq]
  exact Nat.sub_le_iff_le_add'.2 hd.ring.room

/-- Of two bytes that a child has stored, its parent has taken the first. -/
theorem pipe_fifo_read :
    ∃ (s : Machine Bool Unit Shared Point) (events : List Event),
      Run (Machine.Step (client 4096)) pipeBoot events s ∧ s.data.stored = [7, 9] ∧ s.data.delivered = [7] ∧
      s.data.pipe.contents = [9] ∧ s.data.pipe.count ≤ PIPESIZE := by
  obtain ⟨events, s, hrun, hstored, hdelivered⟩ := exists_byteRead
  have hinit : Machine.Initial (client 4096) pipeBoot := Machine.boot_initial _ _ (by decide) (by decide)
  obtain ⟨-, hcontents, hcount⟩ := pipe_fifo 4096 (fun _ => 5) pipeBoot s events hinit rfl hrun
  rw [hstored, hdelivered, List.cons_append, List.nil_append, List.cons.injEq] at hcontents
  exact ⟨s, events, hrun, hstored, hdelivered, hcontents.2.symm, hcount⟩

end Xv6.Pipe
