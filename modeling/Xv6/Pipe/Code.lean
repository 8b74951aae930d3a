import Xv6.Library.Ring
import Xv6.Sched.Machine

/-!
# Pipes

The code of `pipe.c` as a client of the process table: processes call `pipewrite`, `piperead` and `pipeclose`
on one pipe, any number of them at the same time, and otherwise fork, exit, wait and kill. Every operation on
the lock, every call of a function of `proc.c` and every change of the pipe is a step of its own.

User memory is not modelled: `copyin` fails or yields any byte, and `copyout` fails or succeeds. The page of
the pipe is not given back when both ends are closed; by then nobody has the pipe open.
-/

namespace Xv6

open Library Sched

/-- `struct pipe`, without its lock. -/
structure Pipe where
  data : ℕ → UInt8
  nread : ℕ
  nwrite : ℕ
  readopen : Bool
  writeopen : Bool

namespace Pipe

def PIPESIZE : ℕ := 512

/-- The number of values of a `uint`. -/
def UINT : ℕ := 2 ^ 32

/-- The test of the loop of `piperead`. -/
def Empty (pi : Pipe) : Prop := pi.nread = pi.nwrite

/-- The test of the loop of `pipewrite`. -/
def Full (pi : Pipe) : Prop := pi.nwrite = (pi.nread + PIPESIZE) % UINT

instance (pi : Pipe) : Decidable pi.Empty := inferInstanceAs (Decidable (_ = _))

instance (pi : Pipe) : Decidable pi.Full := inferInstanceAs (Decidable (_ = _))

/-- `pi->data[pi->nwrite++ % PIPESIZE] = ch`. -/
def store (pi : Pipe) (ch : UInt8) : Pipe :=
  { pi with data := Function.update pi.data (pi.nwrite % PIPESIZE) ch, nwrite := (pi.nwrite + 1) % UINT }

/-- `pi->data[pi->nread % PIPESIZE]`. -/
def front (pi : Pipe) : UInt8 := pi.data (pi.nread % PIPESIZE)

/-- `pi->nread++`. -/
def advance (pi : Pipe) : Pipe := { pi with nread := (pi.nread + 1) % UINT }

/-- `(pi->nwrite - pi->nread)` as a `uint`. -/
def count (pi : Pipe) : ℕ := (pi.nwrite + UINT - pi.nread) % UINT

/-- The bytes from `nread` up to `nwrite`. -/
def contents (pi : Pipe) : List UInt8 :=
  (List.range pi.count).map fun j => pi.data ((pi.nread + j) % UINT % PIPESIZE)

/-- The pipe, with the bytes that writers have stored and those that were delivered to readers, in the order
in which this happened. -/
structure Shared where
  pipe : Pipe
  stored : List UInt8
  delivered : List UInt8

namespace Shared

/-- A writer stores a byte. -/
def store (d : Shared) (ch : UInt8) : Shared :=
  { d with pipe := d.pipe.store ch, stored := d.stored ++ [ch] }

/-- A reader has copied the first byte out and takes it off the pipe. -/
def deliver (d : Shared) : Shared :=
  { d with pipe := d.pipe.advance, delivered := d.delivered ++ [d.pipe.front] }

/-- One end is closed. -/
def close (d : Shared) (writable : Bool) : Shared :=
  { d with pipe := if writable then { d.pipe with writeopen := false } else { d.pipe with readopen := false } }

/-- The pipe that `pipealloc` sets up in a page. -/
def pipealloc (data : ℕ → UInt8) : Shared where
  pipe := { data, nread := 0, nwrite := 0, readopen := true, writeopen := true }
  stored := []
  delivered := []

end Shared

/-- Points in the code of `pipe.c`. -/
inductive Point
  /-- Not in the code of the pipe, with the value that the last call has returned. -/
  | user (result : ℤ)
  /-- The loop of `pipewrite`. The flag says whether a byte was stored since the lock was taken. -/
  | writeTest (n i : ℤ) (stored : Bool)
  | writeAbort (stored : Bool)
  | writeCopy (n i : ℤ) (stored : Bool)
  | writeSleep (n i : ℤ)
  | writeUnlock (i : ℤ)
  /-- The first loop of `piperead`. -/
  | readTest (n : ℤ)
  | readAbort
  | readSleep (n : ℤ)
  /-- The second loop of `piperead`. -/
  | readCopy (n i : ℤ)
  | readUnlock (i : ℤ)
  /-- `pipeclose`. -/
  | closing (writable : Bool)
  | closeWake (writable : Bool)
  | closeUnlock

/-- `&pi->nread`, behind the lock and the data. -/
def nreadChan (pi : ℕ) : ℕ := pi + 536

/-- `&pi->nwrite`. -/
def nwriteChan (pi : ℕ) : ℕ := pi + 540

/-- What a process does outside of the code of the pipe. -/
def userOp (op : Op Unit Shared Point) : Prop :=
  (∃ pid, op = .kill pid fun _ => .user 0) ∨ op = .fork (fun _ => .user 0) ∨ (∃ status, op = .exit status) ∨
    op = .wait fun _ => .user 0

/-- What a process does next. -/
def next (pi : ℕ) (d : Shared) : Point → Op Unit Shared Point → Prop
  | .user _, op => (∃ n, op = .acquire () (.writeTest n 0 false)) ∨ (∃ n, op = .acquire () (.readTest n)) ∨
    (∃ writable, op = .acquire () (.closing writable)) ∨ userOp op
  -- pipewrite
  | .writeTest n i stored, op =>
    if i < n then
      if d.pipe.readopen = false then op = .release () (.user (-1))
      else op = .killed fun killed => if killed then .writeAbort stored else .writeCopy n i stored
    else op = .wakeup (nreadChan pi) (.writeUnlock i)
  | .writeAbort _, op => op = .release () (.user (-1))
  | .writeCopy n i _, op =>
    if d.pipe.Full then op = .wakeup (nreadChan pi) (.writeSleep n i)
    else op = .wakeup (nreadChan pi) (.writeUnlock i) ∨
      ∃ ch, op = .access (d.store ch) (.writeTest n (i + 1) true)
  | .writeSleep n i, op => op = .sleep (nwriteChan pi) () (.writeTest n i false)
  | .writeUnlock i, op => op = .release () (.user i)
  -- piperead
  | .readTest n, op =>
    if d.pipe.Empty ∧ d.pipe.writeopen = true then
      op = .killed fun killed => if killed then .readAbort else .readSleep n
    else op = .access d (.readCopy n 0)
  | .readAbort, op => op = .release () (.user (-1))
  | .readSleep n, op => op = .sleep (nreadChan pi) () (.readTest n)
  | .readCopy n i, op =>
    if i < n ∧ ¬d.pipe.Empty then
      op = .wakeup (nwriteChan pi) (.readUnlock (if i = 0 then -1 else i)) ∨
        op = .access d.deliver (.readCopy n (i + 1))
    else op = .wakeup (nwriteChan pi) (.readUnlock i)
  | .readUnlock i, op => op = .release () (.user i)
  -- pipeclose
  | .closing writable, op => op = .access (d.close writable) (.closeWake writable)
  | .closeWake writable, op =>
    op = .wakeup (if writable then nreadChan pi else nwriteChan pi) .closeUnlock
  | .closeUnlock, op => op = .release () (.user 0)

/-- Processes that use one pipe, at address `pi`. -/
def client (pi : ℕ) : Client Unit Shared Point where
  next := fun _ d k op => next pi d k op
  entry := .user 0

end Pipe

end Xv6
