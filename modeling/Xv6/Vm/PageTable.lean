import Xv6.Kernel.Proc
import Xv6.Vm.Memory

/-!
# The page-table code of `vm.c`

The functions that walk, extend, shrink, copy and free a page table. The loops of the source count
pages, so each of them recurses on the number of pages that are left.
-/

namespace Xv6.Vm

open Library

/-- The loop of `walk`, standing at the table of a level. -/
def walkFrom (alloc : Bool) (va : ℕ) : ℕ → ℕ → VmM (Option PteRef)
  | 0, pagetable => pure (some ⟨pagetable, PX 0 va⟩)
  | level + 1, pagetable => do
    let pte := ⟨pagetable, PX (level + 1) va⟩
    let w ← readPte pte
    if hasFlag w PTE_V then walkFrom alloc va level (PTE2PA w)
    else if !alloc then pure none
    else do
      match ← kalloc with
      | none => pure none
      | some mem => do
        memset mem 0
        writePte pte (PA2PTE mem ||| PTE_V)
        walkFrom alloc va level mem

/-- The place of the entry for `va`, creating the tables on the way to it if `alloc` is set. -/
def walk (pagetable va : ℕ) (alloc : Bool) : VmM (Option PteRef) :=
  if MAXVA ≤ va then panic .walk else walkFrom alloc va 2 pagetable

/-- The physical address of the user page at `va`, or zero. -/
def walkaddr (pagetable va : ℕ) : VmM ℕ :=
  if MAXVA ≤ va then pure 0
  else do
    match ← walk pagetable va false with
    | none => pure 0
    | some pte => do
      let w ← readPte pte
      if !hasFlag w PTE_V then pure 0
      else if !hasFlag w PTE_U then pure 0
      else pure (PTE2PA w)

/-- Whether the page of `va` is mapped. -/
def ismapped (pagetable va : ℕ) : VmM Bool := do
  match ← walk pagetable va false with
  | none => pure false
  | some pte => do
    let w ← readPte pte
    pure (hasFlag w PTE_V)

/-- The loop of `mappages` with `n` pages left. -/
def mappagesLoop (pagetable perm : ℕ) : ℕ → ℕ → ℕ → VmM ℤ
  | 0, _, _ => pure 0
  | n + 1, a, pa => do
    match ← walk pagetable a true with
    | none => pure (-1)
    | some pte => do
      let w ← readPte pte
      if hasFlag w PTE_V then panic .mappagesRemap
      else do
        writePte pte (mkPte pa perm)
        mappagesLoop pagetable perm n (a + PGSIZE) ((pa + PGSIZE) % UINT64)

/-- Map `size` bytes at `va` to the physical addresses from `pa` on. -/
def mappages (pagetable va size pa perm : ℕ) : VmM ℤ :=
  if va % PGSIZE ≠ 0 then panic .mappagesVaNotAligned
  else if size % PGSIZE ≠ 0 then panic .mappagesSizeNotAligned
  else if size = 0 then panic .mappagesSize
  else mappagesLoop pagetable perm (size / PGSIZE) va pa

/-- An empty page table. -/
def uvmcreate : VmM (Option ℕ) := do
  match ← kalloc with
  | none => pure none
  | some pagetable => do
    memset pagetable 0
    pure (some pagetable)

variable [KernelImage]

/-- One iteration of `uvmunmap`. -/
def uvmunmapPage (pagetable a : ℕ) (doFree : Bool) : VmM Unit := do
  match ← walk pagetable a false with
  | none => pure ()
  | some pte => do
    let w ← readPte pte
    if !hasFlag w PTE_V then pure ()
    else if doFree then do
      kfree (PTE2PA w)
      writePte pte 0
    else writePte pte 0

/-- The loop of `uvmunmap` with `n` pages left. -/
def uvmunmapLoop (pagetable : ℕ) (doFree : Bool) : ℕ → ℕ → VmM Unit
  | 0, _ => pure ()
  | n + 1, a => do
    uvmunmapPage pagetable a doFree
    uvmunmapLoop pagetable doFree n (a + PGSIZE)

/-- The pages from `a` to the 64-bit address `limit`. -/
def pagesTo (a limit : ℕ) : ℕ := (limit % UINT64 - a + (PGSIZE - 1)) / PGSIZE

/-- Remove the mappings of `npages` pages from `va` on, and free their pages if asked to. -/
def uvmunmap (pagetable va npages : ℕ) (doFree : Bool) : VmM Unit :=
  if va % PGSIZE ≠ 0 then panic .uvmunmapNotAligned
  else uvmunmapLoop pagetable doFree (pagesTo va (va + npages * PGSIZE)) va

/-- Shrink a process from `oldsz` to `newsz` bytes. -/
def uvmdealloc (pagetable oldsz newsz : ℕ) : VmM ℕ :=
  if oldsz ≤ newsz then pure oldsz
  else if PGROUNDUP newsz < PGROUNDUP oldsz then do
    let npages := toUInt64 (toInt32 ((PGROUNDUP oldsz - PGROUNDUP newsz) / PGSIZE))
    uvmunmap pagetable (PGROUNDUP newsz) npages true
    pure newsz
  else pure newsz

/-- Allocate a page, give it its contents and map it at `va`: the steps that `uvmalloc`, `uvmcopy`,
`vmfault`, `usertrap` and `sys_map_ro` share. The contents may depend on other pages. -/
def allocMap (pagetable va perm : ℕ) (contents : (ℕ → Page) → Page) : VmM (Option ℕ) := do
  match ← kalloc with
  | none => pure none
  | some mem => do
    modify fun s => s.setPage mem (contents s.mem)
    let r ← mappages pagetable va PGSIZE mem perm
    if r ≠ 0 then do
      kfree mem
      pure none
    else pure (some mem)

/-- The loop of `uvmalloc` with `n` pages left; it fails after undoing the pages from `oldsz` on. -/
def uvmallocLoop (pagetable oldsz xperm : ℕ) : ℕ → ℕ → VmM Bool
  | 0, _ => pure true
  | n + 1, a => do
    match ← allocMap pagetable a (PTE_R ||| PTE_U ||| xperm) fun _ => filled 0 with
    | none => do
      let _ ← uvmdealloc pagetable a oldsz
      pure false
    | some _ => uvmallocLoop pagetable oldsz xperm n (a + PGSIZE)

/-- Grow a process from `oldsz` to `newsz` bytes; zero means failure. -/
def uvmalloc (pagetable oldsz newsz xperm : ℕ) : VmM ℕ :=
  if newsz < oldsz then pure oldsz
  else do
    let base := PGROUNDUP oldsz
    let ok ← uvmallocLoop pagetable base xperm ((newsz - base + (PGSIZE - 1)) / PGSIZE) base
    if ok then pure newsz else pure 0

/-- One iteration of the loop of `freewalk`, given how tables below are freed. -/
def freewalkEntry (freeChild : ℕ → VmM Unit) (pagetable i : ℕ) : VmM Unit := do
  let w ← readPte ⟨pagetable, i⟩
  if hasFlag w PTE_V && !hasFlag w (PTE_R ||| PTE_W ||| PTE_X) then do
    freeChild (PTE2PA w)
    writePte ⟨pagetable, i⟩ 0
  else if hasFlag w PTE_V then panic .freewalkLeaf
  else pure ()

/-- Free the tables of a tree of the given height. A tree of a page table has height two; the
recursion of the source has no bound, and running past this one is reported as a panic of its own. -/
def freewalk : ℕ → ℕ → VmM Unit
  | 0, pagetable => do
    (List.range 512).forM (freewalkEntry (fun _ => panic .freewalkDepth) pagetable)
    kfree pagetable
  | height + 1, pagetable => do
    (List.range 512).forM (freewalkEntry (freewalk height) pagetable)
    kfree pagetable

/-- Free the user pages below `sz` and then the tables. -/
def uvmfree (pagetable sz : ℕ) : VmM Unit := do
  if 0 < sz then do
    uvmunmap pagetable 0 (PGROUNDUP sz / PGSIZE) true
    freewalk 2 pagetable
  else freewalk 2 pagetable

/-- The loop of `uvmcopy` with `n` pages left. -/
def uvmcopyLoop (old new : ℕ) : ℕ → ℕ → VmM ℤ
  | 0, _ => pure 0
  | n + 1, i => do
    match ← walk old i false with
    | none => uvmcopyLoop old new n (i + PGSIZE)
    | some pte => do
      let w ← readPte pte
      if !hasFlag w PTE_V then uvmcopyLoop old new n (i + PGSIZE)
      else do
        match ← allocMap new i (PTE_FLAGS w) fun mem => mem (PTE2PA w) with
        | none => do
          uvmunmap new 0 (i / PGSIZE) true
          pure (-1)
        | some _ => uvmcopyLoop old new n (i + PGSIZE)

/-- Copy the memory of a process into the page table of its child. -/
def uvmcopy (old new sz : ℕ) : VmM ℤ := uvmcopyLoop old new ((sz + (PGSIZE - 1)) / PGSIZE) 0

/-- Take user access from the page at `va`. -/
def uvmclear (pagetable va : ℕ) : VmM Unit := do
  match ← walk pagetable va false with
  | none => panic .uvmclear
  | some pte => do
    let w ← readPte pte
    writePte pte (w &&& (UINT64 - 1 - PTE_U))

end Xv6.Vm
