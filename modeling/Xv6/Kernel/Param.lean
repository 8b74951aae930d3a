import Mathlib.Algebra.Group.Nat.Defs

/-!
# Kernel parameters

The constants of `param.h`, `fs.h`, `riscv.h` and `memlayout.h` that the modelled code uses.
-/

namespace Xv6

/-- Bytes of a disk block. -/
def BSIZE : ℕ := 1024

/-- The most blocks one file-system operation may write. -/
def MAXOPBLOCKS : ℕ := 10

/-- Data blocks in the on-disk log. -/
def LOGBLOCKS : ℕ := MAXOPBLOCKS * 3

/-- Buffers of the disk block cache. -/
def NBUF : ℕ := MAXOPBLOCKS * 3

/-- The device number of the file system's disk. -/
def ROOTDEV : ℕ := 1

/-- Bytes of a page. -/
abbrev PGSIZE : ℕ := 4096

/-- One beyond the highest virtual address. -/
abbrev MAXVA : ℕ := 2 ^ 38

/-- The page of the trampoline code, the highest one of every address space. -/
abbrev TRAMPOLINE : ℕ := MAXVA - PGSIZE

/-- The page of the trapframe, just below the trampoline. -/
abbrev TRAPFRAME : ℕ := TRAMPOLINE - PGSIZE

/-- The first address of physical memory. -/
abbrev KERNBASE : ℕ := 0x80000000

/-- The end of the physical memory that the kernel uses. -/
abbrev PHYSTOP : ℕ := KERNBASE + 128 * 1024 * 1024

/-- The most processes there can be. -/
abbrev NPROC : ℕ := 64

/-- The most arguments of `exec`. -/
abbrev MAXARG : ℕ := 32

/-- Pages of the user stack. -/
abbrev USERSTACK : ℕ := 1

/-- The bound of 64-bit unsigned arithmetic. -/
abbrev UINT64 : ℕ := 2 ^ 64

/-- The bound of 32-bit unsigned arithmetic. -/
abbrev UINT32 : ℕ := 2 ^ 32

end Xv6
