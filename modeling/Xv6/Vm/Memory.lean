import Mathlib.Data.Nat.Bitwise
import Mathlib.Logic.Function.Basic
import Xv6.Kernel.Param
import Xv6.Library.ByteWords
import Xv6.Library.Fallible

/-!
# Physical memory, the page allocator and page-table entries

The physical memory is a function from the base address of a page to its bytes. The allocator keeps
its free pages in a list, as `kalloc.c` does, and every operation of the virtual-memory code is a
computation over this state that may stop with a panic. Page-table entries are the 64-bit words of a
page; the macros of `riscv.h` take them apart.
-/

namespace Xv6.Vm

open Function Library Nat

/-- The bytes of a page. -/
abbrev Page := Bytes PGSIZE

/-- The addresses that the linker gives to the kernel image. -/
class KernelImage where
  /-- The first address after the kernel, `end` in the source. -/
  kend : ℕ
  /-- The page of the trampoline code. -/
  trampoline : ℕ
  trampoline_aligned : trampoline % PGSIZE = 0
  kernbase_le_trampoline : KERNBASE ≤ trampoline
  trampoline_lt_kend : trampoline < kend
  kend_le_phystop : kend ≤ PHYSTOP

/-- A kernel image with addresses as a linker may choose them, for concrete runs. -/
abbrev linkedImage : KernelImage where
  kend := 0x80025000
  trampoline := 0x80007000
  trampoline_aligned := rfl
  kernbase_le_trampoline := by decide
  trampoline_lt_kend := by decide
  kend_le_phystop := by decide

/-- The messages with which the kernel panics. -/
inductive Panic
  | kfree
  | walk
  | mappagesVaNotAligned
  | mappagesSizeNotAligned
  | mappagesSize
  | mappagesRemap
  | uvmunmapNotAligned
  | freewalkLeaf
  | freewalkDepth
  | kerneltrap
  | uvmclear
  | loadsegAddressShouldExist
  | initExiting
  deriving DecidableEq, Repr

/-- Physical memory with the allocator's free list. -/
structure Phys where
  /-- The page with a given base address. -/
  mem : ℕ → Page
  /-- The free pages, the next one to be handed out first. -/
  freelist : List ℕ
  /-- Whether an allocation has failed so far. The kernel does not keep this. -/
  exhausted : Bool

/-- A kernel computation over physical memory. -/
abbrev VmM := Fallible Panic Phys

/-- Stop the kernel. -/
def panic {S α : Type} (message : Panic) : Fallible Panic S α := throw message

/-- Replace the page at an address. -/
def Phys.setPage (s : Phys) (pa : ℕ) (page : Page) : Phys :=
  { s with mem := Function.update s.mem pa page }

@[simp] theorem setPage_mem_self (s : Phys) (pa : ℕ) (page : Page) : (s.setPage pa page).mem pa = page := by
  change update s.mem pa page pa = page
  exact update_self pa page s.mem

variable {pa x : ℕ}

theorem setPage_mem_of_ne (s : Phys) (h : x ≠ pa) (page : Page) : (s.setPage pa page).mem x = s.mem x := by
  change update s.mem pa page x = s.mem x
  exact update_of_ne h page s.mem

/-- A page filled with one byte. -/
def filled (c : UInt8) : Page := fun _ => c

/-- Fill the page at `pa` with a byte. -/
def memset (pa : ℕ) (c : UInt8) : VmM Unit := modify fun s => s.setPage pa (filled c)

/-- The memory after a page has been filled with junk and put on the free list. -/
def Phys.free (s : Phys) (pa : ℕ) : Phys :=
  { s with freelist := pa :: s.freelist, mem := Function.update s.mem pa (filled 1) }

@[simp] theorem free_freelist (s : Phys) (pa : ℕ) : (s.free pa).freelist = pa :: s.freelist := rfl

@[simp] theorem free_exhausted (s : Phys) (pa : ℕ) : (s.free pa).exhausted = s.exhausted := rfl

theorem free_mem_of_ne (s : Phys) (h : x ≠ pa) : (s.free pa).mem x = s.mem x := update_of_ne h _ _

/-- Take a page from the free list. -/
def kalloc : VmM (Option ℕ) := do
  let s ← get
  match s.freelist with
  | [] => do
    set { s with exhausted := true }
    pure none
  | r :: next => do
    set { s with freelist := next }
    memset r 5
    pure (some r)

section Kfree

variable [KernelImage]

/-- The addresses that `kfree` accepts. -/
def PageAddress (pa : ℕ) : Prop := pa % PGSIZE = 0 ∧ KernelImage.kend ≤ pa ∧ pa < PHYSTOP

instance (pa : ℕ) : Decidable (PageAddress pa) := by
  unfold PageAddress
  infer_instance

/-- Put a page on the free list. -/
def kfree (pa : ℕ) : VmM Unit :=
  if pa % PGSIZE ≠ 0 ∨ pa < KernelImage.kend ∨ PHYSTOP ≤ pa then panic .kfree
  else do
    memset pa 1
    modify fun s => { s with freelist := pa :: s.freelist }

end Kfree

/-- The entry is valid. -/
abbrev PTE_V : ℕ := 1
/-- The page can be read. -/
abbrev PTE_R : ℕ := 2
/-- The page can be written. -/
abbrev PTE_W : ℕ := 4
/-- The page can be executed. -/
abbrev PTE_X : ℕ := 8
/-- The page is accessible in user mode. -/
abbrev PTE_U : ℕ := 16

/-- Round up to a multiple of the page size, in 64-bit arithmetic. -/
def PGROUNDUP (sz : ℕ) : ℕ := (sz + PGSIZE - 1) % UINT64 / PGSIZE * PGSIZE

/-- Round down to a multiple of the page size. -/
def PGROUNDDOWN (a : ℕ) : ℕ := a / PGSIZE * PGSIZE

/-- Shift a physical address to its place in an entry. -/
def PA2PTE (pa : ℕ) : ℕ := pa >>> 12 <<< 10

/-- The physical address in an entry. -/
def PTE2PA (pte : ℕ) : ℕ := (pte >>> 10 <<< 12) % UINT64

/-- The flag bits of an entry. -/
def PTE_FLAGS (pte : ℕ) : ℕ := pte &&& 0x3FF

/-- The lowest bit of the index of a level in a virtual address. -/
def PXSHIFT (level : ℕ) : ℕ := 12 + 9 * level

/-- The index of a virtual address into the table of a level. -/
def PX (level va : ℕ) : ℕ := (va >>> PXSHIFT level) &&& 0x1FF

/-- Whether an entry has a flag. -/
def hasFlag (pte flag : ℕ) : Bool := pte &&& flag != 0

/-- The place of an entry: a table page and an index. -/
structure PteRef where
  table : ℕ
  idx : ℕ
  deriving DecidableEq, Repr

/-- The entry at a place of memory. -/
@[irreducible] def pteAt (mem : ℕ → Page) (table idx : ℕ) : ℕ := (mem table).getWord 8 idx

/-- Read an entry. -/
def readPte (pte : PteRef) : VmM ℕ := do return pteAt (← get).mem pte.table pte.idx

/-- The memory after one entry has been overwritten. -/
def setPte (mem : ℕ → Page) (table idx value : ℕ) : ℕ → Page :=
  Function.update mem table ((mem table).setWord 8 idx value)

/-- Write an entry. -/
def writePte (pte : PteRef) (value : ℕ) : VmM Unit :=
  modify fun s => { s with mem := setPte s.mem pte.table pte.idx value }

section Macros

theorem PX_eq (level va : ℕ) : PX level va = va / 2 ^ (12 + 9 * level) % 512 := by
  rw [PX, PXSHIFT, shiftRight_eq_div_pow]
  exact and_two_pow_sub_one_eq_mod _ 9

theorem PX_lt (level va : ℕ) : PX level va < 512 := by
  rw [PX_eq]
  exact mod_lt _ (by decide)

theorem PA2PTE_eq (pa : ℕ) : PA2PTE pa = pa / 4096 * 1024 := by
  rw [PA2PTE, shiftRight_eq_div_pow, shiftLeft_eq]

theorem PTE2PA_eq (pte : ℕ) : PTE2PA pte = pte / 1024 * 4096 % 2 ^ 64 := by
  rw [PTE2PA, shiftRight_eq_div_pow, shiftLeft_eq]

theorem PTE_FLAGS_eq (pte : ℕ) : PTE_FLAGS pte = pte % 1024 := and_two_pow_sub_one_eq_mod _ 10

/-- An entry has the flag of a bit exactly when that bit is set. -/
theorem hasFlag_two_pow (pte k : ℕ) : hasFlag pte (2 ^ k) = pte.testBit k := by
  rw [hasFlag, and_two_pow]
  cases h : pte.testBit k
  · simp
  · simp

/-- A combination has a flag exactly when one of its parts has it. -/
theorem hasFlag_or (a b flag : ℕ) : hasFlag (a ||| b) flag = (hasFlag a flag || hasFlag b flag) := by
  rw [Bool.eq_iff_iff, Bool.or_eq_true]
  simp only [hasFlag, bne_iff_ne, and_or_distrib_right, ne_eq, or_eq_zero_iff]
  exact not_and_or

theorem hasFlag_V (pte : ℕ) : hasFlag pte PTE_V = decide (pte % 2 = 1) := by
  rw [← testBit_zero]
  exact hasFlag_two_pow pte 0

/-- The entry that maps a page with some permissions. -/
def mkPte (pa perm : ℕ) : ℕ := PA2PTE pa ||| perm ||| PTE_V

variable {perm : ℕ}

/-- The parts of an entry made from a page address and permission bits. -/
theorem mkPte_eq (hperm : perm < 1024) : mkPte pa perm = pa / 4096 * 1024 + (perm ||| 1) := by
  have hor : perm ||| 1 < 2 ^ 10 := or_lt_two_pow hperm (by decide)
  rw [mkPte, PA2PTE_eq, lor_assoc]
  change pa / 4096 * 2 ^ 10 ||| (perm ||| 1) = pa / 4096 * 2 ^ 10 + (perm ||| 1)
  rw [mul_comm, ← two_pow_add_eq_or_of_lt hor]

/-- An entry made for a page leads to that page. -/
theorem PTE2PA_mkPte (hpa : pa % 4096 = 0) (hlt : pa < 2 ^ 56) (hperm : perm < 1024) :
    PTE2PA (mkPte pa perm) = pa := by
  have hor : perm ||| 1 < 2 ^ 10 := or_lt_two_pow hperm (by decide)
  rw [PTE2PA_eq, mkPte_eq hperm]
  omega

/-- An entry made with some permissions has them as its flags, with the valid bit. -/
theorem PTE_FLAGS_mkPte (hperm : perm < 1024) : PTE_FLAGS (mkPte pa perm) = perm ||| 1 := by
  have hor : perm ||| 1 < 2 ^ 10 := or_lt_two_pow hperm (by decide)
  rw [PTE_FLAGS_eq, mkPte_eq hperm]
  omega

/-- An entry made for a page fits into its word. -/
theorem mkPte_lt (hlt : pa < 2 ^ 56) (hperm : perm < 1024) : mkPte pa perm < 2 ^ 64 := by
  have hor : perm ||| 1 < 2 ^ 10 := or_lt_two_pow hperm (by decide)
  rw [mkPte_eq hperm]
  omega

/-- An entry made for a page is valid. -/
theorem mkPte_odd (pa perm : ℕ) : mkPte pa perm % 2 = 1 := by
  have hbit : (mkPte pa perm).testBit 0 = true := by simp [mkPte, PTE_V]
  rw [testBit_zero] at hbit
  exact of_decide_eq_true hbit

end Macros

section Entries

variable (mem : ℕ → Page) {t i : ℕ}

/-- A table has 512 entries. -/
theorem pteAt_of_le (t : ℕ) (h : 512 ≤ i) : pteAt mem t i = 0 := by
  rw [pteAt]
  exact getWord_of_size_le _ (by change 4096 ≤ 8 * i; omega)

/-- An entry is a 64-bit word. -/
theorem pteAt_lt (t i : ℕ) : pteAt mem t i < 2 ^ 64 := by
  rw [pteAt]
  exact getWord_lt _ 8 i

/-- The entries after one of them has been overwritten. -/
theorem pteAt_setPte (hi : i < 512) (value t' i' : ℕ) :
    pteAt (setPte mem t i value) t' i' =
      if t' = t ∧ i' = i then value % 2 ^ 64 else pteAt mem t' i' := by
  rw [pteAt, setPte]
  by_cases ht : t' = t
  · subst ht
    rw [update_self, getWord_setWord _ _ (by change 8 * i + 8 ≤ 4096; omega)]
    simp [pteAt]
  · rw [update_of_ne ht, if_neg fun h => ht h.1, pteAt]

/-- The entries after a page has been replaced. -/
theorem pteAt_update_of_ne {page : Page} (h : t ≠ pa) (i : ℕ) : pteAt (update mem pa page) t i = pteAt mem t i := by
  rw [pteAt, pteAt, update_of_ne h]

/-- The entries of a cleared page. -/
@[simp] theorem pteAt_update_zero (pa i : ℕ) : pteAt (update mem pa (filled 0)) pa i = 0 := by
  rw [pteAt, update_self]
  exact getWord_zero 8 i

/-- Overwriting an entry changes no other page. -/
theorem setPte_of_ne (value : ℕ) (h : x ≠ t) : setPte mem t i value x = mem x := update_of_ne h _ _

end Entries

end Xv6.Vm
