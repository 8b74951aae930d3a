import Xv6.Kernel.Param
import Xv6.Library.Circle
import Xv6.Library.Tiling

/-!
# The user's memory allocator

The allocator of `user/umalloc.c`. Blocks of memory start with a header, and sizes count headers. The free
blocks are linked to a circle through the static header `base`, in the order of their addresses. Memory
comes from `sbrk`, of which nothing is known here but its answers: what it has granted so far is recorded
beside the memory, and its answer may depend on that record. A loop that runs out of fuel has no result.
-/

namespace Xv6.Heap

open Library

/-- The union `header`: the next free block, and the size of this one in headers. -/
structure Header where
  ptr : ℕ
  size : ℕ
deriving DecidableEq, Repr

/-- The size of a header in bytes. -/
abbrev HEADER : ℕ := 16

/-- The headers in memory, the static `freep` and the ranges that `sbrk` has granted. -/
structure Heap where
  header : ℕ → Header
  freep : ℕ
  ranges : List Span

/-- What `sbrk` answers to a request for bytes, after the ranges that it has granted; `none` is `SBRK_ERROR`. -/
abbrev Sbrk : Type := List Span → ℕ → Option ℕ

namespace Heap

/-- The field `s.ptr` of the header at an address. -/
def ptr (h : Heap) (a : ℕ) : ℕ := (h.header a).ptr

/-- The field `s.size` of the header at an address. -/
def size (h : Heap) (a : ℕ) : ℕ := (h.header a).size

/-- Write the field `s.ptr`. -/
def setPtr (h : Heap) (a v : ℕ) : Heap :=
  { h with header := Function.update h.header a { h.header a with ptr := v } }

/-- Write the field `s.size`. -/
def setSize (h : Heap) (a v : ℕ) : Heap :=
  { h with header := Function.update h.header a { h.header a with size := v } }

/-- The condition under which `free` stops its search at `p`, where `bp` belongs. -/
def stops (h : Heap) (bp p : ℕ) : Bool :=
  (p < bp && bp < h.ptr p) || (h.ptr p ≤ p && (p < bp || bp < h.ptr p))

/-- The first half of an insertion: join the block to the upper neighbour, or link it to that. -/
def joinUpper (h : Heap) (bp p : ℕ) : Heap :=
  if bp + HEADER * h.size bp = h.ptr p then
    let h := h.setSize bp ((h.size bp + h.size (h.ptr p)) % UINT32)
    h.setPtr bp (h.ptr (h.ptr p))
  else h.setPtr bp (h.ptr p)

/-- The second half of an insertion: join the block to the lower neighbour, or link that to it. -/
def joinLower (h : Heap) (bp p : ℕ) : Heap :=
  if p + HEADER * h.size p = bp then
    let h := h.setSize p ((h.size p + h.size bp) % UINT32)
    h.setPtr p (h.ptr bp)
  else h.setPtr p bp

/-- Put a block back into the list of free blocks. -/
def free (h : Heap) (fuel ap : ℕ) : Option Heap := do
  let bp := ap - HEADER
  let p ← seek (h.stops bp) h.ptr fuel h.freep
  some { (h.joinUpper bp p).joinLower bp p with freep := p }

/-- The number of headers that `morecore` asks for. -/
def moreUnits (nu : ℕ) : ℕ := if nu < 4096 then 4096 else nu

/-- The argument of `sbrk`, an `int` made from a 64-bit product; a negative one grants nothing. -/
def asked (nu : ℕ) : ℤ := (BitVec.ofNat 32 (nu * HEADER)).toInt

/-- Ask the kernel for memory and free it; the result is the new `freep`, or a null pointer. -/
def morecore (sbrk : Sbrk) (h : Heap) (fuel nu : ℕ) : Option (Heap × ℕ) :=
  let nu := moreUnits nu
  let bytes := nu * HEADER % UINT32
  match sbrk h.ranges bytes with
  | none => some (h, 0)
  | some p => do
    let h := { h with ranges := ⟨p, (asked nu).toNat⟩ :: h.ranges }
    let h ← (h.setSize p nu).free fuel (p + HEADER)
    some (h, h.freep)

/-- Take a block from the list, or the end of it if it is larger; the result is the block's memory. -/
def take (h : Heap) (nunits prevp p : ℕ) : Heap × ℕ :=
  if h.size p = nunits then
    ({ h.setPtr prevp (h.ptr p) with freep := prevp }, p + HEADER)
  else
    let h := h.setSize p ((h.size p + UINT32 - nunits) % UINT32)
    let p := p + HEADER * h.size p
    ({ h.setSize p nunits with freep := prevp }, p + HEADER)

/-- The loop of `malloc`: look for a block that is large enough, and once around ask for more memory. -/
def mallocLoop (sbrk : Sbrk) (limit nunits : ℕ) : ℕ → Heap → ℕ → ℕ → Option (Heap × ℕ)
  | 0, _, _, _ => none
  | fuel + 1, h, prevp, p =>
    if nunits ≤ h.size p then
      some (h.take nunits prevp p)
    else if p = h.freep then
      match h.morecore sbrk limit nunits with
      | none => none
      | some (h, p) =>
        if p = 0 then some (h, 0) else mallocLoop sbrk limit nunits fuel h p (h.ptr p)
    else mallocLoop sbrk limit nunits fuel h p (h.ptr p)

end Heap

/-- The number of headers for some bytes, with one for the header of the block. -/
def units (nbytes : ℕ) : ℕ := ((nbytes + HEADER - 1) / HEADER + 1) % UINT32

namespace Heap

/-- The first call of `malloc` makes the list, with nothing but `base` in it. -/
def init (base : ℕ) (h : Heap) : Heap :=
  if h.freep = 0 then { (h.setPtr base base).setSize base 0 with freep := base } else h

/-- Allocate memory for some bytes. -/
def malloc (base : ℕ) (sbrk : Sbrk) (h : Heap) (fuel nbytes : ℕ) : Option (Heap × ℕ) :=
  let h := h.init base
  mallocLoop sbrk fuel (units nbytes) fuel h h.freep (h.ptr h.freep)

end Heap

end Xv6.Heap
