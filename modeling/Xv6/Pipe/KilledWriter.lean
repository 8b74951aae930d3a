import Xv6.Pipe.Code
import Xv6.Sched.Execution
import Xv6.Sched.Sleeping

/-!
# A reader, a writer and a parent

Runs of a machine with two CPUs whose processes use one pipe. The first process makes two children. The
first child reads from the empty pipe and falls asleep, the second stores some bytes and is killed by its
parent before it has stored all of them.
-/

namespace Xv6.Pipe

open Library Option Sched Sched.Machine

/-- Operations of processes that use a pipe, by number: the first process forks and kills, one child reads a
byte, the other one writes three. The flag says whether a writer may leave after it has stored a byte. -/
def choices (pi : ℕ) (leave : Bool) (d : Shared) : Point → ℕ → Option (Op Unit Shared Point)
  | .user _, 0 => some (.fork fun _ => .user 0)
  | .user _, 1 => some (.acquire () (.readTest 1))
  | .user _, 2 => some (.acquire () (.writeTest 3 0 false))
  | .user _, _ => some (.kill 3 fun _ => .user 0)
  | .readTest n, _ =>
    if d.pipe.Empty ∧ d.pipe.writeopen = true then
      some (.killed fun killed => if killed then .readAbort else .readSleep n)
    else some (.access d (.readCopy n 0))
  | .readSleep n, _ => some (.sleep (nreadChan pi) () (.readTest n))
  | .readCopy n i, _ =>
    if i < n ∧ ¬d.pipe.Empty then some (.access d.deliver (.readCopy n (i + 1))) else none
  | .writeTest n i stored, _ =>
    if i < n ∧ d.pipe.readopen ≠ false then
      some (.killed fun killed => if killed then .writeAbort stored else .writeCopy n i stored)
    else none
  | .writeCopy n i _, _ =>
    if d.pipe.Full then none
    else some (.access (d.store (if i = 0 then 7 else 9)) (.writeTest n (i + 1) true))
  | .writeAbort _, _ => if leave = true then some (.release () (.user (-1))) else none
  | _, _ => none

/-- The code of the pipe allows these operations. -/
theorem choices_next {pi : ℕ} {leave : Bool} {d : Shared} {k : Point} {i : ℕ} {op : Op Unit Shared Point}
    (h : choices pi leave d k i = some op) : next pi d k op ∧ (leave = false → k ≠ .writeAbort true) := by
  unfold choices at h
  split at h
  · cases h
    exact ⟨.inr (.inr (.inr (.inr (.inl rfl)))), fun _ => nofun⟩
  · cases h
    exact ⟨.inr (.inl ⟨1, rfl⟩), fun _ => nofun⟩
  · cases h
    exact ⟨.inl ⟨3, rfl⟩, fun _ => nofun⟩
  · cases h
    exact ⟨.inr (.inr (.inr (.inl ⟨3, rfl⟩))), fun _ => nofun⟩
  · refine ⟨?_, fun _ => nofun⟩
    rw [next]
    split at h <;> simp_all
  · cases h
    exact ⟨rfl, fun _ => nofun⟩
  · obtain ⟨hmore, ⟨⟩⟩ := ite_none_right_eq_some.1 h
    refine ⟨?_, fun _ => nofun⟩
    rw [next, if_pos hmore]
    exact .inr rfl
  · obtain ⟨⟨hlt, hopen⟩, ⟨⟩⟩ := ite_none_right_eq_some.1 h
    exact ⟨by rw [next, if_pos hlt, if_neg hopen], fun _ => nofun⟩
  · obtain ⟨hroom, ⟨⟩⟩ := ite_none_left_eq_some.1 h
    refine ⟨?_, fun _ => nofun⟩
    rw [next, if_neg hroom]
    exact .inr ⟨_, rfl⟩
  · obtain ⟨hleave, ⟨⟩⟩ := ite_none_right_eq_some.1 h
    refine ⟨rfl, fun hstay => ?_⟩
    rw [hleave] at hstay
    cases hstay
  · cases h

/-- The first process, on the first CPU, makes two children; the first child, on the second CPU, falls
asleep before the empty pipe. -/
def readerSleeps : List (Bool × ℕ) :=
  .replicate 7 (false, 1) ++ (false, 0) :: .replicate 22 (false, 1) ++ (false, 0) :: .replicate 25 (false, 1) ++
    .replicate 22 (true, 1)

/-- The second child stores a byte, and is killed before it stores another one. -/
def writerLeaves : List (Bool × ℕ) :=
  .replicate 12 (true, 2) ++ .replicate 11 (false, 3) ++ .replicate 5 (true, 1)

/-- The second child stores two bytes and is killed, and its parent takes the first byte. -/
def byteRead : List (Bool × ℕ) :=
  .replicate 17 (true, 2) ++ .replicate 11 (false, 3) ++ .replicate 5 (true, 1) ++ .replicate 3 (false, 1)

/-- How these processes are executed. -/
def script (leave : Bool) : Script Unit Shared Point where
  entry := .user 0
  choices := choices 4096 leave
  locks := allLocks

theorem client_follows (leave : Bool) : (client 4096).Follows (script leave) where
  entry := rfl
  choices := fun _ _ _ _ _ h => (choices_next h).1
  locks := mem_allLocks
  vector := fun _ _ h => nomatch h
  handles := fun _ _ _ h => nomatch h
  iret := fun _ h => nomatch h

/-- The booted machine with a new pipe. -/
def pipeBoot : Machine Bool Unit Shared Point := boot (client 4096) (.pipealloc fun _ => 5) 4096 8192

/-- The reader sleeps in `piperead`. -/
def Asleep (s : Machine Bool Unit Shared Point) : Prop :=
  s.lock (.client ()) = none ∧ (s.proc child).state = .sleeping ∧
    (s.pc child).sleepLock = some (.client ()) ∧ (s.proc child).chan = nreadChan 4096

instance (s : Machine Bool Unit Shared Point) : Decidable (Asleep s) :=
  inferInstanceAs (Decidable (_ ∧ _))

/-- Of two bytes that were stored, the first is delivered. -/
theorem exists_byteRead : ∃ events s, Run (Step (client 4096)) pipeBoot events s ∧
    s.data.stored = [7, 9] ∧ s.data.delivered = [7] := by
  have h : ((readerSleeps ++ byteRead).foldlM (exec (script true)) pipeBoot).any
      (fun s => s.data.stored = [7, 9] ∧ s.data.delivered = [7]) = true := by decide +kernel
  exact exists_run (client_follows true) h

end Xv6.Pipe
