import Xv6.Library.Runs
import Xv6.Log.Admission

/-!
# The buffer cache of `bio.c`

A pool of `NBUF` buffers, kept in the order of their last use, caches blocks of the disk. `bget`,
`brelse`, `bpin` and `bunpin` change the pool under `bcache.lock`, so each critical section is one
step; waiting for the sleep-lock of a buffer, reading the disk and the two halves of `brelse` are
steps of their own. Any finite number of processes take these steps in any order, and a buffer that
was modified is written or logged before it is released.

Under the pool lies the log of `Xv6.Log.Journal`, whose cache has room for every block: its `bread`
is what the pool is meant to return.
-/

namespace Xv6.Bio

open Function Library Log

/-- The device of every block that the file system reads. -/
def rootDev : BitVec 32 := BitVec.ofNat 32 ROOTDEV

/-- What the holder of a buffer has done with its contents. -/
inductive BufUse
  | clean
  | dirty
  | flushed
  deriving DecidableEq

/-- `struct buf`. The sleep-lock is its holder; `use` belongs to the holder, not to the source. -/
structure Buf (P : Type*) where
  valid : Bool
  dev : BitVec 32
  blockno : BitVec 32
  holder : Option P
  refcnt : ℕ
  data : Block
  use : BufUse

/-- Whether a buffer is the one of a block. -/
def Buf.isFor {P : Type*} (b : Buf P) (dev blockno : BitVec 32) : Bool :=
  b.dev = dev ∧ b.blockno = blockno

/-- `bcache`: the buffers, and their order from the most recently used to the least. -/
structure Bcache (P : Type*) where
  buf : Fin NBUF → Buf P
  lru : List (Fin NBUF)

/-- The panics of `bio.c`. -/
inductive BioPanic
  | noBuffers
  deriving DecidableEq, Repr

namespace Bcache

variable {P : Type*}

/-- Change one buffer. -/
def modifyBuf (c : Bcache P) (b : Fin NBUF) (f : Buf P → Buf P) : Bcache P :=
  { c with buf := update c.buf b (f (c.buf b)) }

/-- `binit`: every buffer is put in front of the ones before it. -/
def binit : Bcache P where
  buf := fun _ => { valid := false, dev := 0, blockno := 0, holder := none, refcnt := 0,
                    data := fun _ => 0, use := .clean }
  lru := (List.finRange NBUF).foldl (fun lru b => b :: lru) []

/-- The critical section of `bget`: the buffer of the block if there is one, else the least recently
used buffer without references. -/
def bget (c : Bcache P) (dev blockno : BitVec 32) : Except BioPanic (Fin NBUF × Bcache P) :=
  match c.lru.find? fun b => (c.buf b).isFor dev blockno with
  | some b => .ok (b, c.modifyBuf b fun buf => { buf with refcnt := buf.refcnt + 1 })
  | none =>
    match c.lru.reverse.find? fun b => (c.buf b).refcnt = 0 with
    | some b => .ok (b, c.modifyBuf b fun buf => { buf with dev, blockno, valid := false, refcnt := 1 })
    | none => .error .noBuffers

/-- `acquiresleep` on a free buffer. -/
def acquire (c : Bcache P) (p : P) (b : Fin NBUF) : Bcache P :=
  c.modifyBuf b fun buf => { buf with holder := some p, use := .clean }

/-- The rest of `bread` once the buffer is locked. -/
def fill (c : Bcache P) (disk : Disk) (b : Fin NBUF) : Bcache P :=
  if (c.buf b).valid then c
  else c.modifyBuf b fun buf => { buf with data := disk buf.blockno.toNat, valid := true }

/-- The holder changes the contents of its buffer. -/
def write (c : Bcache P) (b : Fin NBUF) (data : Block) : Bcache P :=
  c.modifyBuf b fun buf => { buf with data, use := .dirty }

/-- The holder notes what it did with the contents of its buffer. -/
def mark (c : Bcache P) (b : Fin NBUF) (use : BufUse) : Bcache P :=
  c.modifyBuf b fun buf => { buf with use }

/-- `bpin`. -/
def bpin (c : Bcache P) (b : Fin NBUF) : Bcache P :=
  c.modifyBuf b fun buf => { buf with refcnt := buf.refcnt + 1 }

/-- `bunpin`. -/
def bunpin (c : Bcache P) (b : Fin NBUF) : Bcache P :=
  c.modifyBuf b fun buf => { buf with refcnt := buf.refcnt - 1 }

/-- The `releasesleep` of `brelse`. -/
def unlock (c : Bcache P) (b : Fin NBUF) : Bcache P :=
  c.modifyBuf b fun buf => { buf with holder := none, use := .clean }

/-- The critical section of `brelse`: a buffer that nobody waits for becomes the most recently used. -/
def put (c : Bcache P) (b : Fin NBUF) : Bcache P :=
  let c := c.modifyBuf b fun buf => { buf with refcnt := buf.refcnt - 1 }
  if (c.buf b).refcnt = 0 then { c with lru := b :: c.lru.erase b } else c

end Bcache

/-- Where a process is inside `bread` or `brelse`. -/
inductive BufPoint
  | running
  | waiting (b : Fin NBUF) (blockno : BitVec 32)
  | reading (b : Fin NBUF) (blockno : BitVec 32)
  | releasing (b : Fin NBUF)
  deriving DecidableEq

/-- What a process is doing with the log; a commit carries the number of blocks already installed. -/
inductive LogUse
  | outside
  | inOp
  | commit (tail : ℕ)
  deriving DecidableEq

/-- What a step shows: the contents that a `bread` returns or a holder writes, and which process takes
a buffer, logs a block, or starts or ends its use of the log. -/
inductive BufEvent (P : Type*)
  | bget (p : P)
  | bread (blockno : BitVec 32) (data : Block)
  | modify (blockno : BitVec 32) (data : Block)
  | logWrite (p : P) (blockno : BitVec 32)
  | beginOp (p : P)
  | endOp (p : P)
  | silent

/-- The contents of a block after an event. -/
def BufEvent.contents {P : Type*} (blockno : ℕ) (last : Block) : BufEvent P → Block
  | .modify n data => if n.toNat = blockno then data else last
  | _ => last

/-- The contents last written to a block, given those on the disk at the start. -/
def lastWritten {P : Type*} (disk : Disk) (events : List (BufEvent P)) (blockno : ℕ) : Block :=
  events.foldl (BufEvent.contents blockno) (disk blockno)

/-- The pool, the log below it, and the processes. -/
structure CacheSystem (P : Type*) where
  cache : Bcache P
  log : LogState
  point : P → BufPoint
  logUse : P → LogUse

namespace CacheSystem

variable {P : Type*} [DecidableEq P]

/-- The state before recovery: no block is cached and the log is empty. -/
def init (start : ℕ) (disk : Disk) : CacheSystem P where
  cache := Bcache.binit
  log := LogState.boot start disk
  point := fun _ => .running
  logUse := fun _ => .outside

/-- The process runs outside `bread` and `brelse`, and holds the buffer. -/
def Holds (s : CacheSystem P) (p : P) (b : Fin NBUF) : Prop :=
  s.point p = .running ∧ (s.cache.buf b).holder = some p

/-- The number of the block that a buffer caches. -/
def blockno (s : CacheSystem P) (b : Fin NBUF) : BitVec 32 := (s.cache.buf b).blockno

/-- The interleaved steps of the processes. The reads, copies and writes of `write_log`,
`write_head` and recovery are made of the steps on buffers. -/
inductive Step : CacheSystem P → BufEvent P → CacheSystem P → Prop
  | bget (s : CacheSystem P) (p : P) (n : BitVec 32) (b : Fin NBUF) (cache : Bcache P)
      (hp : s.point p = .running) (hget : s.cache.bget rootDev n = .ok (b, cache)) :
      Step s (.bget p) { s with cache, point := update s.point p (.waiting b n) }
  | acquire (s : CacheSystem P) (p : P) (n : BitVec 32) (b : Fin NBUF) (hp : s.point p = .waiting b n)
      (hfree : (s.cache.buf b).holder = none) :
      Step s .silent
        { s with cache := s.cache.acquire p b, point := update s.point p (.reading b n) }
  | bread (s : CacheSystem P) (p : P) (n : BitVec 32) (b : Fin NBUF) (hp : s.point p = .reading b n) :
      Step s (.bread n ((s.cache.fill s.log.disk b).buf b).data)
        { s with cache := s.cache.fill s.log.disk b, point := update s.point p .running }
  | modify (s : CacheSystem P) (p : P) (b : Fin NBUF) (data : Block) (hp : s.Holds p b) :
      Step s (.modify (s.blockno b) data)
        { s with
          cache := s.cache.write b data
          log := { s.log with
                   cache := update s.log.cache (s.blockno b).toNat (some data) } }
  | bwrite (s : CacheSystem P) (p : P) (b : Fin NBUF) (hp : s.Holds p b) :
      Step s .silent
        { s with
          cache := s.cache.mark b .flushed
          log := s.log.bwrite (s.blockno b).toNat (s.cache.buf b).data }
  | logWrite (s : CacheSystem P) (p : P) (b : Fin NBUF) (log : LogState) (hp : s.Holds p b)
      (hlog : s.log.logWrite (s.blockno b) = .ok log) :
      Step s (.logWrite p (s.blockno b))
        { s with
          cache := if (s.log.absorbIndex (s.blockno b) : ℤ) = s.log.lh.n
            then (s.cache.mark b .clean).bpin b else s.cache.mark b .clean
          log }
  | unlock (s : CacheSystem P) (p : P) (b : Fin NBUF) (hp : s.Holds p b)
      (hclean : (s.cache.buf b).use ≠ .dirty) :
      Step s .silent
        { s with cache := s.cache.unlock b, point := update s.point p (.releasing b) }
  | put (s : CacheSystem P) (p : P) (b : Fin NBUF) (hp : s.point p = .releasing b) :
      Step s .silent { s with cache := s.cache.put b, point := update s.point p .running }
  | beginOp (s : CacheSystem P) (p : P) (log : LogState) (hp : s.logUse p = .outside)
      (hlog : s.log.beginOp = some log) :
      Step s (.beginOp p) { s with log, logUse := update s.logUse p .inOp }
  | endOp (s : CacheSystem P) (p : P) (log : LogState) (hp : s.logUse p = .inOp)
      (hlog : s.log.endOp = .ok (log, false)) :
      Step s (.endOp p) { s with log, logUse := update s.logUse p .outside }
  | endOpCommit (s : CacheSystem P) (p : P) (log : LogState) (hp : s.logUse p = .inOp)
      (hlog : s.log.endOp = .ok (log, true)) :
      Step s (.endOp p) { s with log, logUse := update s.logUse p (.commit 0) }
  | bunpin (s : CacheSystem P) (p : P) (b : Fin NBUF) (tail : ℕ) (hlog : s.logUse p = .commit tail)
      (htail : tail < s.log.lh.count) (hp : s.Holds p b)
      (hblock : (s.blockno b).toNat = s.log.lh.blockAt tail)
      (hflushed : (s.cache.buf b).use = .flushed) :
      Step s .silent
        { s with
          cache := s.cache.bunpin b
          log := s.log.bunpin (s.log.lh.blockAt tail)
          logUse := update s.logUse p (.commit (tail + 1)) }
  | clearHead (s : CacheSystem P) (p : P) (tail : ℕ) (hlog : s.logUse p = .commit tail)
      (htail : s.log.lh.count ≤ tail) :
      Step s .silent { s with log := s.log.clearHead }
  | endCommit (s : CacheSystem P) (p : P) (tail : ℕ) (hlog : s.logUse p = .commit tail)
      (hempty : s.log.lh.n = 0) :
      Step s (.endOp p)
        { s with log := s.log.endCommit, logUse := update s.logUse p .outside }

end CacheSystem

end Xv6.Bio
