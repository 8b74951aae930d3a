import Mathlib.Data.Int.Notation
import Xv6.Kernel.Param
import Xv6.Library.ByteWords
import Xv6.Library.WriteTrace

/-!
# The redo log of `log.c`

The on-disk log is a header block at `start`, holding a count `n` and the home block numbers,
followed by the logged block contents. The state keeps the `struct log` fields, the disk, the
buffer cache as far as the log sees it (contents and pin counts) and a ghost trace of the disk
writes in the order they were issued. Every `bwrite` replaces one block of the disk atomically.

`begin_op`, `end_op` and `log_write` run under `log.lock`, so each is one step; where the source
sleeps the step is refused and may be retried, and where it panics it returns the panic.
-/

namespace Xv6.Log

open Library

/-- The contents of one disk block. -/
abbrev Block := Bytes BSIZE

/-- The disk, one block per number. -/
abbrev Disk := ℕ → Block

/-- A C `int` read from a stored 32-bit word. -/
def intOfWord (word : ℕ) : ℤ := (BitVec.ofNat 32 word).toInt

/-- The 32-bit word that stores a C `int`. -/
def wordOfInt (value : ℤ) : ℕ := (BitVec.ofInt 32 value).toNat

/-- `struct logheader`. -/
structure LogHeader where
  n : ℤ
  block : Fin LOGBLOCKS → BitVec 32

namespace LogHeader

/-- How often a loop `for (i = 0; i < lh.n; i++)` runs its body. -/
def count (lh : LogHeader) : ℕ := lh.n.toNat

/-- The block number in entry `i`; the entries past the end of the array are never used. -/
def blockAt (lh : LogHeader) (i : ℕ) : ℕ :=
  if h : i < LOGBLOCKS then (lh.block ⟨i, h⟩).toNat else 0

/-- Store a block number in entry `i`. -/
def setBlock (lh : LogHeader) (i : ℕ) (blockno : BitVec 32) : LogHeader :=
  { lh with block := fun j => if j.val = i then blockno else lh.block j }

/-- The block numbers `block[0..n)`. -/
def entries (lh : LogHeader) : List ℕ := (List.range lh.count).map lh.blockAt

end LogHeader

/-- `struct log` with the disk and the buffers below it, and the trace of the disk writes. -/
structure LogState where
  start : ℕ
  outstanding : ℤ
  committing : Bool
  lh : LogHeader
  disk : Disk
  cache : ℕ → Option Block
  pins : ℕ → ℕ
  writes : List (ℕ × Block)

/-- The panics of `log.c`. -/
inductive LogPanic
  | tooBigTransaction
  | logWriteOutsideOfTrans
  | logCommitting
  deriving DecidableEq, Repr

namespace LogState

/-- `bread`: the cached contents of a block if there are any, else those on disk. -/
def bread (s : LogState) (blockno : ℕ) : Block := (s.cache blockno).getD (s.disk blockno)

/-- `bwrite` of a buffer with the given contents. -/
def bwrite (s : LogState) (blockno : ℕ) (data : Block) : LogState :=
  { s with
    disk := Function.update s.disk blockno data
    cache := Function.update s.cache blockno (some data)
    writes := s.writes ++ [(blockno, data)] }

/-- `bpin`. -/
def bpin (s : LogState) (blockno : ℕ) : LogState :=
  { s with pins := Function.update s.pins blockno (s.pins blockno + 1) }

/-- `bunpin`. -/
def bunpin (s : LogState) (blockno : ℕ) : LogState :=
  { s with pins := Function.update s.pins blockno (s.pins blockno - 1) }

/-- One iteration of the loop of `write_log`. -/
def writeLogStep (s : LogState) (tail : ℕ) : LogState :=
  let source := s.bread (s.lh.blockAt tail)
  s.bwrite (s.start + tail + 1) source

/-- `write_log`: copy the modified blocks from the cache to the log. -/
def writeLog (s : LogState) : LogState := (List.range s.lh.count).foldl writeLogStep s

/-- The header block that `write_head` builds from the buffer it read. -/
def headBytes (lh : LogHeader) (buf : Block) : Block :=
  (List.range lh.count).foldl (fun hb i => hb.setWord 4 (i + 1) (lh.blockAt i))
    (buf.setWord 4 0 (wordOfInt lh.n))

/-- `write_head`: write the in-memory header to disk. -/
def writeHead (s : LogState) : LogState := s.bwrite s.start (headBytes s.lh (s.bread s.start))

/-- The header that `read_head` leaves in memory, given the one there before. -/
def parseHead (lh : LogHeader) (buf : Block) : LogHeader :=
  let n := intOfWord (buf.getWord 4 0)
  (List.range n.toNat).foldl (fun lh i => lh.setBlock i (BitVec.ofNat 32 (buf.getWord 4 (i + 1))))
    { lh with n }

/-- `read_head`: read the log header from disk into memory. -/
def readHead (s : LogState) : LogState := { s with lh := parseHead s.lh (s.bread s.start) }

/-- One iteration of the loop of `install_trans`. -/
def installTransStep (recovering : Bool) (s : LogState) (tail : ℕ) : LogState :=
  let lbuf := s.bread (s.start + tail + 1)
  let dst := s.lh.blockAt tail
  let s := s.bwrite dst lbuf
  if recovering then s else s.bunpin dst

/-- `install_trans`: copy the committed blocks from the log to their home location. -/
def installTrans (recovering : Bool) (s : LogState) : LogState :=
  (List.range s.lh.count).foldl (installTransStep recovering) s

/-- `log.lh.n = 0`. -/
def clearHead (s : LogState) : LogState := { s with lh := { s.lh with n := 0 } }

/-- `recover_from_log`. -/
def recoverFromLog (s : LogState) : LogState :=
  (installTrans true s.readHead).clearHead.writeHead

/-- `commit`. -/
def commit (s : LogState) : LogState :=
  if s.lh.n > 0 then (installTrans false s.writeLog.writeHead).clearHead.writeHead else s

/-- The in-memory state after a crash and reboot: nothing but the disk survives. -/
def boot (start : ℕ) (disk : Disk) : LogState where
  start
  outstanding := 0
  committing := false
  lh := { n := 0, block := fun _ => 0 }
  disk
  cache := fun _ => none
  pins := fun _ => 0
  writes := []

/-- `begin_op`, one evaluation of its loop body; `none` when the caller has to sleep. -/
def beginOp (s : LogState) : Option LogState :=
  if s.committing then none
  else if s.lh.n + (s.outstanding + 1) * MAXOPBLOCKS > LOGBLOCKS then none
  else some { s with outstanding := s.outstanding + 1 }

/-- The critical section of `end_op` before the commit; the flag is `do_commit`. -/
def endOp (s : LogState) : Except LogPanic (LogState × Bool) :=
  let s := { s with outstanding := s.outstanding - 1 }
  if s.committing then .error .logCommitting
  else if s.outstanding = 0 then .ok ({ s with committing := true }, true)
  else .ok (s, false)

/-- The critical section of `end_op` after the commit. -/
def endCommit (s : LogState) : LogState := { s with committing := false }

/-- The index at which the search loop of `log_write` stops. -/
def absorbIndex (s : LogState) (blockno : BitVec 32) : ℕ :=
  s.lh.entries.idxOf blockno.toNat

/-- `log_write` of the buffer of block `blockno`. -/
def logWrite (s : LogState) (blockno : BitVec 32) : Except LogPanic LogState :=
  if s.lh.n ≥ LOGBLOCKS then .error .tooBigTransaction
  else if s.outstanding < 1 then .error .logWriteOutsideOfTrans
  else
    let i := s.absorbIndex blockno
    let s := { s with lh := s.lh.setBlock i blockno }
    if (i : ℤ) = s.lh.n then
      let s := s.bpin blockno.toNat
      .ok { s with lh := { s.lh with n := s.lh.n + 1 } }
    else .ok s

end LogState

end Xv6.Log
