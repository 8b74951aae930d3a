import Xv6.Vm.PageTable
import Xv6.Vm.Translation

/-!
# Lazy allocation and copies between kernel and user memory

`vmfault` gives a process a page that `sbrk` only promised. `copyout` and `copyin` move bytes page by
page and let `vmfault` fill the holes. A user access goes through the translation of the hardware.
-/

namespace Xv6.Vm

open Library

/-- The bytes of a page after some of them have been overwritten from an offset on. -/
def writeBytes (page : Page) (off : ℕ) (bytes : List UInt8) : Page :=
  fun j => if off ≤ j.val ∧ j.val < off + bytes.length then bytes.getD (j.val - off) 0 else page j

theorem at_writeBytes (page : Page) (off : ℕ) (bytes : List UInt8) {j : ℕ} (hj : j < 4096) :
    (writeBytes page off bytes).at j =
      if off ≤ j ∧ j < off + bytes.length then bytes.getD (j - off) 0 else page.at j := by
  rw [Bytes.at_of_lt _ hj, Bytes.at_of_lt _ hj, writeBytes]

/-- `n` bytes of a page from an offset on. -/
def readBytes (page : Page) (off n : ℕ) : List UInt8 := (List.range n).map fun k => page.at (off + k)

/-- The page that the hardware reaches for a user access which needs the given permission. -/
def hwTranslate (mem : ℕ → Page) (pagetable va flag : ℕ) : Option ℕ :=
  if va < MAXVA then
    (leaf mem pagetable (va / PGSIZE)).bind fun w =>
      if hasFlag w PTE_U && hasFlag w flag then some (PTE2PA w) else none
  else none

variable [KernelImage]

/-- Allocate and map a page at an address below the size of the process; zero means failure. -/
def vmfault (p : Proc) (pagetable va : ℕ) : VmM ℕ :=
  if p.sz ≤ va then pure 0
  else do
    if ← ismapped pagetable (PGROUNDDOWN va) then pure 0
    else do
      let mem ← allocMap p.pagetable (PGROUNDDOWN va) (PTE_W ||| PTE_U ||| PTE_R) fun _ => filled 0
      pure (mem.getD 0)

/-- The physical address of the user page at `va0`, allocated now if it was only promised. -/
def userPage (p : Proc) (pagetable va0 : ℕ) : VmM ℕ := do
  let pa0 ← walkaddr pagetable va0
  if pa0 = 0 then vmfault p pagetable va0 else pure pa0

/-- Copy bytes to a user address; `p` is the current process. -/
def copyout (p : Proc) (pagetable dstva : ℕ) (src : List UInt8) : VmM ℤ :=
  if _hlen : src.length = 0 then pure 0
  else
    let va0 := PGROUNDDOWN dstva
    if MAXVA ≤ va0 then pure (-1)
    else do
      let pa0 ← userPage p pagetable va0
      if pa0 = 0 then pure (-1)
      else do
        match ← walk pagetable va0 false with
        | none => panic .kerneltrap
        | some pte => do
          let w ← readPte pte
          if !hasFlag w PTE_W then pure (-1)
          else do
            let n := min (PGSIZE - (dstva - va0)) src.length
            modify fun s => s.setPage pa0 (writeBytes (s.mem pa0) (dstva - va0) (src.take n))
            copyout p pagetable (va0 + PGSIZE) (src.drop n)
termination_by src.length
decreasing_by
  have hoff : dstva - PGROUNDDOWN dstva < 4096 := by
    rw [PGROUNDDOWN]
    change dstva - dstva / 4096 * 4096 < 4096
    omega
  rw [List.length_drop]
  change src.length - min (4096 - (dstva - PGROUNDDOWN dstva)) src.length < src.length
  omega

/-- Copy `len` bytes from a user address; `p` is the current process. -/
def copyin (p : Proc) (pagetable srcva len : ℕ) : VmM (Option (List UInt8)) :=
  if _hlen : len = 0 then pure (some [])
  else
    let va0 := PGROUNDDOWN srcva
    do
      let pa0 ← userPage p pagetable va0
      if pa0 = 0 then pure none
      else do
        let n := min (PGSIZE - (srcva - va0)) len
        let bytes := readBytes ((← get).mem pa0) (srcva - va0) n
        let rest ← copyin p pagetable ((va0 + PGSIZE) % UINT64) (len - n)
        pure (rest.map fun tail => bytes ++ tail)
termination_by len
decreasing_by
  have hoff : srcva - PGROUNDDOWN srcva < 4096 := by
    rw [PGROUNDDOWN]
    change srcva - srcva / 4096 * 4096 < 4096
    omega
  change len - min (4096 - (srcva - PGROUNDDOWN srcva)) len < len
  omega

/-- The inner loop of `copyinstr`: the bytes of a page up to a NUL, which is copied, or `n` of them. -/
def scanString (page : Page) : ℕ → ℕ → List UInt8 × Bool
  | _, 0 => ([], false)
  | off, n + 1 =>
    if page.at off = 0 then ([0], true)
    else
      let (rest, gotNull) := scanString page (off + 1) n
      (page.at off :: rest, gotNull)

/-- Copy a string of at most `max` bytes from a user address, its NUL included; the result is the return
value and what has been written to the destination. -/
def copyinstr (pagetable srcva max : ℕ) : VmM (ℤ × List UInt8) :=
  if _hmax : max = 0 then pure (-1, [])
  else
    let va0 := PGROUNDDOWN srcva
    do
      let pa0 ← walkaddr pagetable va0
      if pa0 = 0 then pure (-1, [])
      else do
        let n := min (PGSIZE - (srcva - va0)) max
        let (bytes, gotNull) := scanString ((← get).mem pa0) (srcva - va0) n
        if gotNull then pure (0, bytes)
        else do
          let (r, rest) ← copyinstr pagetable ((va0 + PGSIZE) % UINT64) (max - n)
          pure (r, bytes ++ rest)
termination_by max
decreasing_by
  have hoff : srcva - PGROUNDDOWN srcva < 4096 := by
    rw [PGROUNDDOWN]
    change srcva - srcva / 4096 * 4096 < 4096
    omega
  change max - min (4096 - (srcva - PGROUNDDOWN srcva)) max < max
  omega

end Xv6.Vm
