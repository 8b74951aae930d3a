import Xv6.Kernel.State
import Xv6.Vm.UserCopy

/-!
# The life of a process

`proc.c` and `crear_memoria_compartida.c`: page tables of processes, allocation and release of slots,
`fork`, `exit`, `wait`, and the page that a process shares with its child.
-/

namespace Xv6

open Library Vm

variable [KernelImage]

/-- A user page table with the trampoline and the trapframe only. -/
def procPagetable (trapframe : ℕ) : VmM (Option ℕ) := do
  match ← uvmcreate with
  | none => pure none
  | some pagetable => do
    let r ← mappages pagetable TRAMPOLINE PGSIZE KernelImage.trampoline (PTE_R ||| PTE_X)
    if r < 0 then do
      uvmfree pagetable 0
      pure none
    else do
      let r ← mappages pagetable TRAPFRAME PGSIZE trapframe (PTE_R ||| PTE_W)
      if r < 0 then do
        uvmunmap pagetable TRAMPOLINE 1 false
        uvmfree pagetable 0
        pure none
      else pure (some pagetable)

/-- Free a page table and the user memory below `sz`. -/
def procFreepagetable (pagetable sz : ℕ) : VmM Unit := do
  uvmunmap pagetable TRAMPOLINE 1 false
  uvmunmap pagetable TRAPFRAME 1 false
  uvmfree pagetable sz

/-- The part of `freeproc` for a process that shares the page. -/
def freeShared (p : Proc) : KernelM Unit :=
  if p.usarMemoriaCompartida && p.shmVa != 0 then do
    modify fun k => { k with refcount := k.refcount - 1 }
    onPhys (uvmunmap p.pagetable p.shmVa 1 false)
    let k ← get
    if k.refcount = 0 then do
      onPhys (kfree k.sharedPage)
      modify fun k => { k with sharedPage := 0 }
    else pure ()
  else pure ()

/-- The part of `freeproc` for the page of `map_ro`. -/
def freeMapRo (p : Proc) : VmM Unit :=
  if p.mapRoVa ≠ 0 then uvmunmap p.pagetable p.mapRoVa 1 true else pure ()

/-- One iteration of the loop of `freeproc` over a region. -/
def freeRegionPage (pagetable va : ℕ) : VmM Unit := do
  match ← walk pagetable va false with
  | none => pure ()
  | some pte => do
    let w ← readPte pte
    if hasFlag w PTE_V then uvmunmap pagetable va 1 true else pure ()

/-- The loop of `freeproc` over a region with `n` pages left. -/
def freeRegionLoop (pagetable : ℕ) : ℕ → ℕ → VmM Unit
  | 0, _ => pure ()
  | n + 1, va => do
    freeRegionPage pagetable va
    freeRegionLoop pagetable n (va + PGSIZE)

/-- The part of `freeproc` for the region of `mapzero`. -/
def freeRegion (p : Proc) : VmM Unit :=
  if p.vr.active then
    freeRegionLoop p.pagetable (pagesTo p.vr.start (p.vr.start + toUInt64 p.vr.size)) p.vr.start
  else pure ()

/-- The part of `freeproc` for the trapframe. -/
def freeTrapframe (p : Proc) : VmM Unit :=
  if p.trapframe ≠ 0 then kfree p.trapframe else pure ()

/-- The part of `freeproc` for the address space. -/
def freeSpace (p : Proc) : KernelM Unit :=
  if p.pagetable ≠ 0 then do
    freeShared p
    onPhys (freeMapRo p)
    onPhys (freeRegion p)
    onPhys (procFreepagetable p.pagetable p.sz)
  else pure ()

/-- Release a slot and everything that hangs from it. -/
def freeproc (i : Fin NPROC) : KernelM Unit := do
  let p := (← get).proc i
  onPhys (freeTrapframe p)
  freeSpace p
  modify fun k =>
    k.setProc i { Proc.empty with mapRoVa := if p.pagetable ≠ 0 then 0 else p.mapRoVa }

/-- The first free slot. -/
def Kernel.unusedSlot (k : Kernel) : Option (Fin NPROC) :=
  (List.finRange NPROC).find? fun i => (k.proc i).state = .unused

/-- Take a free slot and give it a trapframe and a page table. -/
def allocproc : KernelM (Option (Fin NPROC)) := do
  let k ← get
  match k.unusedSlot with
  | none => pure none
  | some i => do
    let p := { k.proc i with pid := k.nextpid, state := .used }
    modify fun k => { k.setProc i p with nextpid := k.nextpid + 1 }
    match ← onPhys kalloc with
    | none => do
      modify fun k => k.setProc i { p with trapframe := 0 }
      freeproc i
      pure none
    | some trapframe => do
      modify fun k => k.setProc i { p with trapframe := trapframe }
      match ← onPhys (procPagetable trapframe) with
      | none => do
        modify fun k => k.setProc i { p with trapframe := trapframe, pagetable := 0 }
        freeproc i
        pure none
      | some pagetable => do
        modify fun k => k.setProc i { p with
          trapframe := trapframe, pagetable := pagetable, pagefaultCount := 0,
          vr := ⟨0, 0, false⟩ }
        pure (some i)

/-- Grow or shrink the memory of a process by `n` bytes. -/
def growproc (p : Proc) (n : ℤ) : VmM (ℤ × Proc) :=
  let newsz := toUInt64 (p.sz + n)
  if 0 < n then
    if TRAPFRAME < newsz then pure (-1, p)
    else do
      let sz ← uvmalloc p.pagetable p.sz newsz PTE_W
      if sz = 0 then pure (-1, p) else pure (0, { p with sz := sz })
  else if n < 0 then do
    let sz ← uvmdealloc p.pagetable p.sz newsz
    pure (0, { p with sz := sz })
  else pure (0, p)

/-- The page to share: a new cleared one with two users, or the existing one with one more. -/
def takeSharedPage : KernelM (Option ℕ) := do
  let k ← get
  if k.sharedPage = 0 then do
    match ← onPhys kalloc with
    | none => pure none
    | some page => do
      onPhys (memset page 0)
      modify fun k => { k with sharedPage := page, refcount := 2 }
      pure (some page)
  else do
    modify fun k => { k with refcount := k.refcount + 1 }
    pure (some k.sharedPage)

/-- Map the shared page into a parent and its child, above the memory of the parent. -/
def crearMemoriaCompartida (i np : Fin NPROC) : KernelM ℤ := do
  match ← takeSharedPage with
  | none => pure (-1)
  | some pa => do
    let k ← get
    let va := PGROUNDUP (k.proc i).sz
    let r ← onPhys (mappages (k.proc i).pagetable va PGSIZE pa (PTE_W ||| PTE_R ||| PTE_U))
    if r < 0 then pure (-1)
    else do
      let r ← onPhys (mappages (k.proc np).pagetable va PGSIZE pa (PTE_W ||| PTE_R ||| PTE_U))
      if r < 0 then pure (-1)
      else do
        let share (p : Proc) : Proc :=
          { p with sz := va + PGSIZE, shmVa := va, usarMemoriaCompartida := true }
        modify fun k => k.setProc i (share (k.proc i))
        modify fun k => k.setProc np (share (k.proc np))
        pure 0

/-- The bytes of `struct trapframe`. -/
def trapframeBytes : ℕ := 288

/-- Copy the saved registers of a parent to its child and make `fork` return zero there. -/
def copyTrapframe (src dst : ℕ) : VmM Unit := modify fun s =>
  let copied := writeBytes (s.mem dst) 0 (readBytes (s.mem src) 0 trapframeBytes)
  s.setPage dst (copied.setWord 8 14 0)

/-- The part of `fork` after the child's memory has been copied. -/
def finishFork (i np : Fin NPROC) : KernelM ℤ := do
  let k ← get
  let p := k.proc i
  onPhys (copyTrapframe p.trapframe (k.proc np).trapframe)
  modify fun k => k.setProc np { k.proc np with
    sz := p.sz, name := p.name, traceMask := p.traceMask, parent := some i }
  let pid := (k.proc np).pid
  if p.usarMemoriaCompartida then do
    let _ ← crearMemoriaCompartida i np
    modify fun k => k.setProc np { k.proc np with usarMemoriaCompartida := true }
    modify fun k => k.setProc np { k.proc np with state := .runnable }
    pure pid
  else do
    modify fun k => k.setProc np { k.proc np with state := .runnable }
    pure pid

/-- Create a copy of a process. -/
def kfork (i : Fin NPROC) : KernelM ℤ := do
  match ← allocproc with
  | none => pure (-1)
  | some np => do
    let k ← get
    let r ← onPhys (uvmcopy (k.proc i).pagetable (k.proc np).pagetable (k.proc i).sz)
    if r < 0 then do
      freeproc np
      pure (-1)
    else finishFork i np

/-- Give the children of a process to the first one. -/
def reparent (i : Fin NPROC) : KernelM Unit := modify fun k =>
  { k with proc := fun j =>
      if (k.proc j).parent = some i then { k.proc j with parent := some k.initproc } else k.proc j }

/-- End a process; its slot is kept until its parent waits for it. -/
def kexit (i : Fin NPROC) (status : ℤ) : KernelM Unit := do
  let k ← get
  if i = k.initproc then panic .initExiting
  else do
    reparent i
    modify fun k => k.setProc i { k.proc i with xstate := status, state := .zombie }

/-- The four bytes of an `int`. -/
def intBytes (x : ℤ) : List UInt8 := (List.range 4).map (byteOfWord (toUInt64 x))

/-- The outcome of `wait`: the process goes on with a result, or it sleeps. -/
inductive WaitResult
  | returned (pid : ℤ)
  | sleeps
  deriving DecidableEq

/-- Collect an ended child of a process. -/
def kwait (i : Fin NPROC) (addr : ℕ) : KernelM WaitResult := do
  let k ← get
  match (List.finRange NPROC).find? fun j =>
      (k.proc j).parent = some i ∧ (k.proc j).state = .zombie with
  | some j => do
    let r ← if addr ≠ 0 then
        onPhys (copyout (k.proc i) (k.proc i).pagetable addr (intBytes (k.proc j).xstate))
      else pure 0
    if r < 0 then pure (.returned (-1))
    else do
      freeproc j
      pure (.returned (k.proc j).pid)
  | none =>
    if (∀ j, (k.proc j).parent ≠ some i) ∨ (k.proc i).killed then pure (.returned (-1))
    else pure .sleeps

end Xv6
