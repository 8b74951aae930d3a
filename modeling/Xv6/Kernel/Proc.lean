import Mathlib.Algebra.Group.Int.Defs
import Xv6.Kernel.Param

/-!
# The process record

`struct proc` of `proc.h`, without the lock, the kernel stack, the saved context, the open files and
the current directory. A null page table or trapframe is zero, as in the source.
-/

namespace Xv6

/-- The states of a slot of the process table. -/
inductive ProcState
  | unused
  | used
  | sleeping
  | runnable
  | running
  | zombie
  deriving DecidableEq, Repr

/-- The region reserved by the last `mapzero`. -/
structure VRegion where
  start : ℕ
  size : ℤ
  active : Bool
  deriving DecidableEq, Repr

/-- A slot of the process table. -/
structure Proc where
  /-- The address of the shared page, zero if there is none. -/
  shmVa : ℕ
  usarMemoriaCompartida : Bool
  traceMask : ℤ
  /-- The address of the read-only page, zero if there is none. -/
  mapRoVa : ℕ
  state : ProcState
  chan : ℕ
  killed : Bool
  xstate : ℤ
  pid : ℕ
  parent : Option (Fin NPROC)
  /-- The size of the process memory in bytes. -/
  sz : ℕ
  pagetable : ℕ
  trapframe : ℕ
  /-- The bytes of the name, without its final zero. -/
  name : List UInt8
  pagefaultCount : ℕ
  vr : VRegion
  deriving DecidableEq

/-- The slot as it is before its first use, and as `freeproc` leaves it. -/
def Proc.empty : Proc where
  shmVa := 0
  usarMemoriaCompartida := false
  traceMask := 0
  mapRoVa := 0
  state := .unused
  chan := 0
  killed := false
  xstate := 0
  pid := 0
  parent := none
  sz := 0
  pagetable := 0
  trapframe := 0
  name := []
  pagefaultCount := 0
  vr := ⟨0, 0, false⟩

/-- The low 32 bits of a number as an `int`. -/
def toInt32 (x : ℕ) : ℤ := (BitVec.ofNat 32 x).toInt

/-- An `int` widened to a 64-bit unsigned number. -/
def toUInt64 (x : ℤ) : ℕ := (x % 2 ^ 64).toNat

end Xv6
