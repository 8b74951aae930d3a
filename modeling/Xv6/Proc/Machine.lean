import Xv6.Proc.Exec
import Xv6.Proc.Syscalls
import Xv6.Vm.WalkSpec

/-!
# The kernel as a transition system

A runnable process performs one operation at a time: a system call, a user access or a copy that the
kernel makes for it. The kernel moves to the state in which the operation returns; an operation that
panics has no successor.
-/

namespace Xv6

open Library Vm

/-- The operations of a process. -/
inductive Op
  | sbrk (n : BitVec 32)
  | mapzero (size : BitVec 32)
  | mapRo (va : BitVec 64)
  | setshm
  | fork
  | exec (path : List UInt8) (file : Option ExecFile) (argv : List (List UInt8))
  | exit (status : BitVec 32)
  | wait (addr : BitVec 64)
  | load (va : BitVec 64)
  | store (va : BitVec 64) (byte : UInt8)
  | copyin (va len : BitVec 64)
  | copyout (va : BitVec 64) (bytes : List UInt8)

/-- What an operation returns to the process. -/
inductive Outcome
  /-- The 64-bit result of a system call. -/
  | result (value : ℕ)
  /-- The process has been put to sleep. -/
  | sleeps
  /-- The process does not return from the operation. -/
  | gone
  /-- The byte that was loaded. -/
  | loaded (byte : UInt8)
  /-- The byte was stored. -/
  | stored
  /-- What the kernel has copied from the process, if it could. -/
  | copiedIn (bytes : Option (List UInt8))
  /-- Whether the kernel could copy to the process. -/
  | copiedOut (ok : Bool)
  deriving DecidableEq

variable [KernelImage]

/-- Run a computation on a process, which may change its record. -/
def onProc {α : Type} (i : Fin NPROC) (x : Proc → VmM (α × Proc)) : KernelM α := do
  let k ← get
  let (a, p) ← onPhys (x (k.proc i))
  modify fun k => k.setProc i p
  pure a

/-- How a positive `sbrk` gets its pages: when they are first touched, or at once. -/
inductive Scheme
  | lazy
  | eager
  deriving DecidableEq

/-- `sbrk` without lazy allocation. -/
def sysSbrkEager (p : Proc) (n : ℤ) : VmM (ℕ × Proc) := do
  let (r, p') ← growproc p n
  pure (if r < 0 then minusOne else p.sz, p')

/-- Run one operation of a process. -/
def runOp (scheme : Scheme) (i : Fin NPROC) : Op → KernelM Outcome
  | .sbrk n => do
    let r ← onProc i fun p => match scheme with
      | .lazy => sysSbrk p n.toInt
      | .eager => sysSbrkEager p n.toInt
    pure (.result r)
  | .mapzero size => do
    let r ← onProc i fun p => pure (sysMapzero p size.toInt)
    pure (.result r)
  | .mapRo va => do
    let r ← onProc i fun p => sysMapRo p va.toNat
    pure (.result r)
  | .setshm => do
    onProc i fun p => pure ((), sysSetshm p)
    pure (.result 0)
  | .fork => do
    let pid ← kfork i
    pure (.result (toUInt64 pid))
  | .exec path file argv => do
    let r ← onProc i fun p => kexec p path file argv
    pure (.result (toUInt64 r))
  | .exit status => do
    kexit i status.toInt
    pure .gone
  | .wait addr => do
    match ← kwait i addr.toNat with
    | .returned pid => pure (.result (toUInt64 pid))
    | .sleeps => pure .sleeps
  | .load va => do
    match ← onProc i fun p => userLoad p va.toNat with
    | some byte => pure (.loaded byte)
    | none => do
      kexit i (-1)
      pure .gone
  | .store va byte => do
    if ← onProc i fun p => userStore p va.toNat byte then pure .stored
    else do
      kexit i (-1)
      pure .gone
  | .copyin va len => do
    let r ← onProc i fun p => do
      let r ← copyin p p.pagetable va.toNat len.toNat
      pure (r, p)
    pure (.copiedIn r)
  | .copyout va bytes => do
    let r ← onProc i fun p => do
      let r ← copyout p p.pagetable va.toNat bytes
      pure (r, p)
    pure (.copiedOut (decide (0 ≤ r)))

/-- A runnable process performs an operation, with its outcome. -/
def Kernel.Step (scheme : Scheme) (k : Kernel) (i : Fin NPROC) (op : Op) (o : Outcome)
    (k' : Kernel) : Prop :=
  (k.proc i).state = .runnable ∧ runOp scheme i op k = .ok (o, k')

/-- One move of the kernel: a process, its operation and the outcome. -/
structure Event where
  proc : Fin NPROC
  op : Op
  outcome : Outcome

/-- The moves of the kernel as a transition system. -/
def Kernel.Moves (scheme : Scheme) (k : Kernel) (e : Event) (k' : Kernel) : Prop :=
  k.Step scheme e.proc e.op e.outcome k'

/-- Set up the first process. -/
def userinit : KernelM Unit := do
  match ← allocproc with
  | none => panic .kerneltrap
  | some i => modify fun k =>
      { k.setProc i { k.proc i with state := .runnable } with initproc := i }

/-- The kernel before its first process: some pages are free, and every slot is empty. -/
structure Kernel.Fresh (k : Kernel) : Prop where
  free : FreeOk k.phys.freelist
  exhausted : k.phys.exhausted = false
  slots : ∀ i, k.proc i = Proc.empty
  shared : k.sharedPage = 0
  refcount : k.refcount = 0

/-- The kernel just after it has started. -/
def Kernel.Boot (k : Kernel) : Prop := ∃ k₀ : Kernel, k₀.Fresh ∧ userinit k₀ = .ok ((), k)

end Xv6
