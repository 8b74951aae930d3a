import Xv6.Proc.Lifecycle

/-!
# Memory system calls and page faults

The system calls of `sysproc.c` that change the memory of a process, and the page-fault branch of
`usertrap`. A user load or store that the hardware cannot translate enters that branch and is then
tried once more.
-/

namespace Xv6

open Library Vm

/-- The value `-1` of a 64-bit result. -/
def minusOne : ℕ := UINT64 - 1

/-- Reserve the page that a process will share with its next child. -/
def sysSetshm (p : Proc) : Proc := { p with usarMemoriaCompartida := true }

/-- Reserve a region whose pages are filled with `'A'` when they are first touched. -/
def sysMapzero (p : Proc) (size : ℤ) : ℕ × Proc :=
  if size ≤ 0 then (minusOne, p)
  else
    let aligned := PGROUNDUP (toUInt64 size)
    (p.sz, { p with
      vr := ⟨p.sz, toInt32 aligned, true⟩
      sz := (p.sz + aligned) % UINT64 })

/-- The text that `map_ro` leaves in its page. -/
def mapRoMessage : List UInt8 :=
  "Hola desde el kernel xv6 - pagina solo lectura".toUTF8.toList

/-- The page of `map_ro`: the text with its final zero. -/
def mapRoPage : Page := writeBytes (filled 0) 0 (mapRoMessage ++ [0])

variable [KernelImage]

/-- Move the end of the memory of a process. Growing only moves it; the pages come later. -/
def sysSbrk (p : Proc) (n : ℤ) : VmM (ℕ × Proc) :=
  let addr := p.sz
  if 0 < n then
    if toUInt64 (addr + n) < addr ∨ TRAPFRAME < toUInt64 (addr + n) then pure (minusOne, p)
    else pure (addr, { p with sz := toUInt64 (p.sz + n) })
  else if n < 0 then do
    let (r, p') ← growproc p n
    if r < 0 then pure (minusOne, p') else pure (addr, p')
  else pure (addr, p)

/-- Map a read-only page with a text for the user. -/
def sysMapRo (p : Proc) (addr : ℕ) : VmM (ℕ × Proc) := do
  let va := PGROUNDDOWN addr
  if ← ismapped p.pagetable va then pure (minusOne, p)
  else do
    match ← allocMap p.pagetable va (PTE_R ||| PTE_U) fun _ => mapRoPage with
    | none => pure (minusOne, p)
    | some _ => pure (0, { p with mapRoVa := va })

/-- The first address after a region, in 64-bit arithmetic. -/
def VRegion.limit (vr : VRegion) : ℕ := (vr.start + toUInt64 vr.size) % UINT64

/-- The address is in the region of the process. -/
def Proc.InRegion (p : Proc) (va : ℕ) : Prop :=
  p.vr.active = true ∧ p.vr.start ≤ va ∧ va < p.vr.limit

instance (p : Proc) (va : ℕ) : Decidable (p.InRegion va) := by
  unfold Proc.InRegion
  infer_instance

/-- The byte with which the pages of a region are filled, `'A'`. -/
def regionByte : UInt8 := 65

/-- The page-fault branch of `usertrap` for an address. -/
def pageFault (p : Proc) (va : ℕ) : VmM Proc :=
  if p.InRegion va then do
    match ← allocMap p.pagetable (PGROUNDDOWN va) (PTE_W ||| PTE_R ||| PTE_U)
        fun _ => filled regionByte with
    | none => pure { p with killed := true }
    | some _ => pure { p with pagefaultCount := p.pagefaultCount + 1 }
  else if va = 0 ∨ p.sz ≤ va then pure { p with killed := true }
  else do
    let result ← vmfault p p.pagetable va
    if result = 0 then pure { p with killed := true }
    else pure { p with pagefaultCount := p.pagefaultCount + 1 }

/-- The page for a user access that needs a permission, after a page fault if there has to be one. -/
def userAccess (p : Proc) (va flag : ℕ) : VmM (Option ℕ × Proc) := do
  match hwTranslate (← get).mem p.pagetable va flag with
  | some pa => pure (some pa, p)
  | none => do
    let p' ← pageFault p va
    if p'.killed then pure (none, p')
    else pure (hwTranslate (← get).mem p.pagetable va flag, p')

/-- A user load; there is no value if the process is killed for it. -/
def userLoad (p : Proc) (va : ℕ) : VmM (Option UInt8 × Proc) := do
  let (pa, p') ← userAccess p va PTE_R
  match pa with
  | none => pure (none, p')
  | some pa => do
    let s ← get
    pure (some ((s.mem pa).at (va % PGSIZE)), p')

/-- A user store; it tells whether the store was done. -/
def userStore (p : Proc) (va : ℕ) (byte : UInt8) : VmM (Bool × Proc) := do
  let (pa, p') ← userAccess p va PTE_W
  match pa with
  | none => pure (false, p')
  | some pa => do
    modify fun s => s.setPage pa (writeBytes (s.mem pa) (va % PGSIZE) [byte])
    pure (true, p')

end Xv6
