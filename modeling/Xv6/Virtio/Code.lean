import Mathlib.Data.List.Basic
import Mathlib.Logic.Function.Basic
import Xv6.Kernel.Param

/-!
# The virtio disk

The driver of `virtio_disk.c` with the device that it drives. Any number of processes call `virtio_disk_rw`,
each with a buffer whose sleep-lock it holds, as `bread` and `bwrite` do; the interrupt handler runs on any
hart. Taking and giving back the lock, and every access of the driver to what it shares with the device, is a
step of its own. A process that sleeps may be woken up at any time.

The device takes the heads of chains from the ring of available chains as far as the driver has announced
them, and completes chains in any order: it walks the chain, writes a status of zero where the last
descriptor says, and puts the head into the ring of used chains. The data of the blocks is left out.
-/

namespace Xv6.Virtio

open Function

/-- The number of descriptors, and of entries of both rings. -/
abbrev NUM : ℕ := 8

/-- The number of values of the indices of the rings. -/
abbrev UINT16 : ℕ := 2 ^ 16

abbrev VRING_DESC_F_NEXT : ℕ := 1
abbrev VRING_DESC_F_WRITE : ℕ := 2
abbrev VIRTIO_BLK_T_IN : ℕ := 0
abbrev VIRTIO_BLK_T_OUT : ℕ := 1

/-- What a descriptor points to. -/
inductive Addr (B : Type*)
  | null
  | ops (i : ℕ)
  | data (b : B)
  | status (i : ℕ)

/-- `struct virtq_desc`. -/
structure Desc (B : Type*) where
  addr : Addr B
  len : ℕ
  flags : ℕ
  next : ℕ

/-- `struct virtio_blk_req`. -/
structure Req where
  type : ℕ
  reserved : ℕ
  sector : ℕ

/-- What the driver keeps for a chain, at the number of its head. -/
structure Info (B : Type*) where
  b : Option B
  status : ℕ

/-- A ring of chains, with the index of the next entry. -/
structure Queue where
  idx : ℕ
  ring : ℕ → ℕ

/-- Put a number into the entry for the index. -/
def Queue.store (q : Queue) (id : ℕ) : Queue := { q with ring := update q.ring (q.idx % NUM) id }

/-- Count the index on. -/
def Queue.advance (q : Queue) : Queue := { q with idx := (q.idx + 1) % UINT16 }

/-- `struct disk`, without its lock. -/
structure Disk (B : Type*) where
  desc : ℕ → Desc B
  avail : Queue
  used : Queue
  free : ℕ → Bool
  usedIdx : ℕ
  info : ℕ → Info B
  ops : ℕ → Req

/-- The descriptors of a request. -/
structure Chain where
  head : ℕ
  data : ℕ
  status : ℕ
deriving DecidableEq

/-- The numbers of the descriptors. -/
def Chain.idx (c : Chain) : List ℕ := [c.head, c.data, c.status]

namespace Disk

variable {B : Type*}

/-- Find a free descriptor and mark it. -/
def allocDesc (d : Disk B) : Option (ℕ × Disk B) :=
  ((List.range NUM).find? d.free).map fun i => (i, { d with free := update d.free i false })

/-- Mark a descriptor as free. -/
def freeDesc (d : Disk B) (i : ℕ) : Except String (Disk B) :=
  if NUM ≤ i then .error "free_desc 1"
  else if d.free i then .error "free_desc 2"
  else .ok { d with
    desc := update d.desc i ⟨.null, 0, 0, 0⟩
    free := update d.free i true }

/-- Free descriptors one after the other. -/
def freeAll (d : Disk B) : List ℕ → Except String (Disk B)
  | [] => .ok d
  | i :: idx => do
    let d ← d.freeDesc i
    freeAll d idx

/-- Free a chain. A chain has at most `NUM` descriptors, as one that is visited twice is free by then. -/
def freeChain (d : Disk B) : ℕ → ℕ → Except String (Disk B)
  | 0, _ => .error "free_chain"
  | fuel + 1, i => do
    let flag := (d.desc i).flags
    let nxt := (d.desc i).next
    let d ← d.freeDesc i
    if flag &&& VRING_DESC_F_NEXT ≠ 0 then d.freeChain fuel nxt else .ok d

/-- The loop of `alloc3_desc`: `n` more descriptors, or none at all. -/
def allocMore (d : Disk B) : ℕ → List ℕ → Except String (Option (List ℕ) × Disk B)
  | 0, idx => .ok (some idx, d)
  | n + 1, idx =>
    match d.allocDesc with
    | some (i, d) => d.allocMore n (idx ++ [i])
    | none => do
      let d ← d.freeAll idx
      .ok (none, d)

/-- Three descriptors, or none. -/
def alloc3Desc (d : Disk B) : Except String (Option (List ℕ) × Disk B) := d.allocMore 3 []

/-- Format the three descriptors of a request. -/
def format (d : Disk B) (blockno : B → ℕ) (b : B) (write : Bool) (c : Chain) : Disk B :=
  let req : Req := {
    type := if write then VIRTIO_BLK_T_OUT else VIRTIO_BLK_T_IN
    reserved := 0
    sector := blockno b * (BSIZE / 512) % UINT32 }
  let desc := update d.desc c.head ⟨.ops c.head, 16, VRING_DESC_F_NEXT, c.data⟩
  let flags := (if write then 0 else VRING_DESC_F_WRITE) ||| VRING_DESC_F_NEXT
  let desc := update desc c.data ⟨.data b, BSIZE, flags, c.status⟩
  let desc := update desc c.status ⟨.status c.head, 1, VRING_DESC_F_WRITE, 0⟩
  { d with
    ops := update d.ops c.head req
    desc
    info := update d.info c.head ⟨some b, 0xff⟩ }

/-- The driver has seen the end of a request. -/
def clearInfo (d : Disk B) (i : ℕ) : Disk B :=
  { d with info := update d.info i { d.info i with b := none } }

/-- The buffer of the next used chain. A null pointer is a fault. -/
def usedBuf (d : Disk B) : Except String B :=
  let id := d.used.ring (d.usedIdx % NUM)
  if (d.info id).status ≠ 0 then .error "virtio_disk_intr status"
  else match (d.info id).b with
    | none => .error "kerneltrap"
    | some b => .ok b

/-- The second descriptor of a chain, as the device finds it. -/
def dataDesc (d : Disk B) (head : ℕ) : Desc B := d.desc (d.desc head).next

/-- The third one. -/
def statusDesc (d : Disk B) (head : ℕ) : Desc B := d.desc (d.dataDesc head).next

/-- The device has completed a chain: it writes the status, and the head into the ring. -/
def complete (d : Disk B) (head : ℕ) : Disk B :=
  let info := match (d.statusDesc head).addr with
    | .status i => update d.info i { d.info i with status := 0 }
    | _ => d.info
  { d with info, used := (d.used.store head).advance }

end Disk

/-- Points in the code of `virtio_disk_rw`. -/
inductive Point (B : Type*)
  | out
  /-- About to take the lock. -/
  | enter (b : B) (write : Bool)
  /-- The loop that allocates descriptors, and its sleep. -/
  | alloc (b : B) (write : Bool)
  | full (b : B) (write : Bool)
  /-- The descriptors are there; the request is formatted, put into the ring and announced. -/
  | format (b : B) (write : Bool) (c : Chain)
  | store (b : B) (c : Chain)
  | announce (b : B) (c : Chain)
  /-- The loop that waits for the end of the request, and its sleep. -/
  | wait (b : B) (c : Chain)
  | asleep (b : B) (c : Chain)
  /-- The request has ended. -/
  | done (b : B) (c : Chain)
  | free (b : B) (c : Chain)
  | leave (b : B)

/-- Who has the lock. -/
inductive Owner (P : Type*)
  | nobody
  | proc (p : P)
  | intr

/-- The device: the index of the next entry of the ring of available chains, and the chains at work. -/
structure Device where
  idx : ℕ
  busy : List ℕ

/-- The state of the system. The flags are the fields `disk` of the buffers. -/
structure System (P B : Type*) where
  disk : Disk B
  flag : B → Bool
  sleeplock : B → Option P
  lock : Owner P
  pc : P → Point B
  device : Device
  panic : Option String

/-- What happens in a step. The device completes a chain with the data at an address. -/
inductive Event (P B : Type*)
  | driver (p : P)
  | handler
  | clear (id : ℕ) (b : B)
  | take (head : ℕ)
  | complete (head : ℕ) (data : Addr B)

section Steps

variable {P B : Type*} [DecidableEq P] [DecidableEq B]

namespace System

/-- A process goes on to a point. -/
def goto (s : System P B) (p : P) (point : Point B) : System P B :=
  { s with pc := update s.pc p point }

end System

/-- The steps of the system, for processes, buffers and their block numbers. -/
inductive Step (blockno : B → ℕ) : System P B → Event P B → System P B → Prop
  /-- `acquiresleep` and `releasesleep` of a buffer, outside of the driver. -/
  | hold {s : System P B} {p : P} {b : B} (hpc : s.pc p = .out) (hfree : s.sleeplock b = none) :
      Step blockno s (.driver p) { s with sleeplock := update s.sleeplock b (some p) }
  | drop {s : System P B} {p : P} {b : B} (hpc : s.pc p = .out) (hheld : s.sleeplock b = some p) :
      Step blockno s (.driver p) { s with sleeplock := update s.sleeplock b none }
  /-- A call of `virtio_disk_rw`. -/
  | call {s : System P B} {p : P} {b : B} {write : Bool} (hpc : s.pc p = .out)
      (hheld : s.sleeplock b = some p) : Step blockno s (.driver p) (s.goto p (.enter b write))
  | enter {s : System P B} {p : P} {b : B} {write : Bool} (hpc : s.pc p = .enter b write)
      (hlock : s.lock = .nobody) :
      Step blockno s (.driver p) { s.goto p (.alloc b write) with lock := .proc p }
  | alloc {s : System P B} {p : P} {b : B} {write : Bool} {d : Disk B} {head data status : ℕ}
      (hpc : s.pc p = .alloc b write) (halloc : s.disk.alloc3Desc = .ok (some [head, data, status], d)) :
      Step blockno s (.driver p) { s.goto p (.format b write ⟨head, data, status⟩) with disk := d }
  /-- `sleep` gives the lock back. -/
  | full {s : System P B} {p : P} {b : B} {write : Bool} {d : Disk B} (hpc : s.pc p = .alloc b write)
      (halloc : s.disk.alloc3Desc = .ok (none, d)) :
      Step blockno s (.driver p) { s.goto p (.full b write) with disk := d, lock := .nobody }
  | allocPanic {s : System P B} {p : P} {b : B} {write : Bool} {msg : String}
      (hpc : s.pc p = .alloc b write) (halloc : s.disk.alloc3Desc = .error msg) :
      Step blockno s (.driver p) { s with panic := some msg }
  | retry {s : System P B} {p : P} {b : B} {write : Bool} (hpc : s.pc p = .full b write)
      (hlock : s.lock = .nobody) :
      Step blockno s (.driver p) { s.goto p (.alloc b write) with lock := .proc p }
  | format {s : System P B} {p : P} {b : B} {write : Bool} {c : Chain} (hpc : s.pc p = .format b write c) :
      Step blockno s (.driver p) { s.goto p (.store b c) with
        disk := s.disk.format blockno b write c
        flag := update s.flag b true }
  | store {s : System P B} {p : P} {b : B} {c : Chain} (hpc : s.pc p = .store b c) :
      Step blockno s (.driver p) { s.goto p (.announce b c) with
        disk := { s.disk with avail := s.disk.avail.store c.head } }
  | announce {s : System P B} {p : P} {b : B} {c : Chain} (hpc : s.pc p = .announce b c) :
      Step blockno s (.driver p) { s.goto p (.wait b c) with
        disk := { s.disk with avail := s.disk.avail.advance } }
  /-- `sleep` gives the lock back. -/
  | sleep {s : System P B} {p : P} {b : B} {c : Chain} (hpc : s.pc p = .wait b c) (hflag : s.flag b = true) :
      Step blockno s (.driver p) { s.goto p (.asleep b c) with lock := .nobody }
  | wake {s : System P B} {p : P} {b : B} {c : Chain} (hpc : s.pc p = .asleep b c)
      (hlock : s.lock = .nobody) :
      Step blockno s (.driver p) { s.goto p (.wait b c) with lock := .proc p }
  | done {s : System P B} {p : P} {b : B} {c : Chain} (hpc : s.pc p = .wait b c) (hflag : s.flag b = false) :
      Step blockno s (.driver p) (s.goto p (.done b c))
  | clearInfo {s : System P B} {p : P} {b : B} {c : Chain} (hpc : s.pc p = .done b c) :
      Step blockno s (.driver p) { s.goto p (.free b c) with disk := s.disk.clearInfo c.head }
  | free {s : System P B} {p : P} {b : B} {c : Chain} {d : Disk B} (hpc : s.pc p = .free b c)
      (hfree : s.disk.freeChain (NUM + 1) c.head = .ok d) :
      Step blockno s (.driver p) { s.goto p (.leave b) with disk := d }
  | freePanic {s : System P B} {p : P} {b : B} {c : Chain} {msg : String} (hpc : s.pc p = .free b c)
      (hfree : s.disk.freeChain (NUM + 1) c.head = .error msg) :
      Step blockno s (.driver p) { s with panic := some msg }
  | leave {s : System P B} {p : P} {b : B} (hpc : s.pc p = .leave b) :
      Step blockno s (.driver p) { s.goto p .out with lock := .nobody }
  /-- `virtio_disk_intr`. -/
  | intr {s : System P B} (hlock : s.lock = .nobody) : Step blockno s .handler { s with lock := .intr }
  | used {s : System P B} {b : B} (hlock : s.lock = .intr) (hidx : s.disk.usedIdx ≠ s.disk.used.idx)
      (hbuf : s.disk.usedBuf = .ok b) :
      Step blockno s (.clear (s.disk.used.ring (s.disk.usedIdx % NUM)) b) { s with
        flag := update s.flag b false
        disk := { s.disk with usedIdx := (s.disk.usedIdx + 1) % UINT16 } }
  | usedPanic {s : System P B} {msg : String} (hlock : s.lock = .intr)
      (hidx : s.disk.usedIdx ≠ s.disk.used.idx) (hbuf : s.disk.usedBuf = .error msg) :
      Step blockno s .handler { s with panic := some msg }
  | ret {s : System P B} (hlock : s.lock = .intr) (hidx : s.disk.usedIdx = s.disk.used.idx) :
      Step blockno s .handler { s with lock := .nobody }
  /-- The device. -/
  | take {s : System P B} (hidx : s.device.idx ≠ s.disk.avail.idx) :
      Step blockno s (.take (s.disk.avail.ring (s.device.idx % NUM))) { s with
        device := ⟨(s.device.idx + 1) % UINT16, s.device.busy ++ [s.disk.avail.ring (s.device.idx % NUM)]⟩ }
  | complete {s : System P B} {head : ℕ} (hbusy : head ∈ s.device.busy) :
      Step blockno s (.complete head (s.disk.dataDesc head).addr) { s with
        disk := s.disk.complete head
        device := { s.device with busy := s.device.busy.erase head } }

/-- The system after `virtio_disk_init`, with nothing in the buffers. -/
def init (P B : Type*) : System P B where
  disk := {
    desc := fun _ => ⟨.null, 0, 0, 0⟩
    avail := ⟨0, fun _ => 0⟩
    used := ⟨0, fun _ => 0⟩
    free := fun _ => true
    usedIdx := 0
    info := fun _ => ⟨none, 0⟩
    ops := fun _ => ⟨0, 0, 0⟩ }
  flag := fun _ => false
  sleeplock := fun _ => none
  lock := .nobody
  pc := fun _ => .out
  device := ⟨0, []⟩
  panic := none

end Steps

end Xv6.Virtio
