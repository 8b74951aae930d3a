import Mathlib.Data.List.Pairwise
import Xv6.Heap.Allocation
import Xv6.Library.Runs

/-!
# A program and its heap

A program calls `malloc` and `free` in any order and writes to the memory that it has got. The free blocks
are always a circle in the order of their addresses in which no two blocks have a border, and together with
the allocated blocks they are the memory that came from `sbrk`, each byte in one block.
-/

namespace Xv6.Heap

open Function Heap Library List

/-- Memory that the program has got from `malloc`, with the size it has asked for. -/
structure Allocation where
  address : ℕ
  bytes : ℕ
deriving DecidableEq, Repr

/-- The block of an allocation. -/
def Allocation.block (x : Allocation) : Span := ⟨x.address - HEADER, HEADER * units x.bytes⟩

/-- The heap and what is allocated of it. -/
structure State where
  heap : Heap
  live : List Allocation

/-- The most bytes of one request. -/
abbrev REQUEST : ℕ := 2 ^ 30

/-- What a program does with its heap. -/
inductive Event
  | malloc (nbytes : ℕ)
  | free (ap : ℕ)
  | write
deriving DecidableEq, Repr

/-- The steps of a program: the calls with their results, and writes to allocated memory. -/
inductive Step (base : ℕ) : State → Event → State → Prop
  | malloc {s : State} {h : Heap} {nbytes a : ℕ} (sbrk : Sbrk) (hsbrk : Fresh base sbrk)
      (hbytes : nbytes < REQUEST) (hcall : Settles (s.heap.malloc base sbrk · nbytes) (some (h, a))) :
      Step base s (.malloc nbytes) ⟨h, if a = 0 then s.live else ⟨a, nbytes⟩ :: s.live⟩
  | free {s : State} {h : Heap} {x : Allocation} (hlive : x ∈ s.live)
      (hcall : Settles (s.heap.free · x.address) (some h)) :
      Step base s (.free x.address) ⟨h, s.live.erase x⟩
  | write {s : State} {header : ℕ → Header}
      (hkept : ∀ a, (∀ x ∈ s.live, x.block.stop ≤ a ∨ a + HEADER ≤ x.address) →
        header a = s.heap.header a) :
      Step base s .write ⟨{ s.heap with header }, s.live⟩

/-- A program has no heap when it starts. -/
def start (header : ℕ → Header) : State := ⟨⟨header, 0, []⟩, []⟩

/-- What an allocation is: memory behind a header, for a request that is not too large. -/
def Allocation.Ok (x : Allocation) : Prop := HEADER ≤ x.address ∧ x.bytes < REQUEST

/-- The free blocks of a heap with a list, and the allocations. -/
structure InUse (base : ℕ) (s : State) (ring : List Span) : Prop where
  listed : Listed base s.heap ring (s.live.map Allocation.block)
  ok : ∀ x ∈ s.live, x.Ok

/-- A heap is not there yet, or in use. -/
inductive State.Inv (base : ℕ) (s : State) : Prop
  | unused (hfreep : s.heap.freep = 0) (hranges : s.heap.ranges = []) (hlive : s.live = [])
  | inUse {ring : List Span} (h : InUse base s ring)

variable {base : ℕ} {s s' : State} {ring : List Span}

/-- The units of a request do not overflow. -/
theorem units_eq {n : ℕ} (hn : n < UINT32) : units n = (n + 15) / 16 + 1 := by
  change n < 2 ^ 32 at hn
  rw [units, Nat.mod_eq_of_lt]
  · rfl
  · change (n + 16 - 1) / 16 + 1 < 2 ^ 32
    omega

theorem units_lt {n : ℕ} (hn : n < REQUEST) : units n < 2 ^ 27 := by
  rw [units_eq (hn.trans (by decide))]
  change n < 2 ^ 30 at hn
  omega

variable {h : Heap}

/-- The first call makes a list without free blocks. -/
theorem listed_init (hfreep : h.freep = 0) (hranges : h.ranges = []) :
    Listed base (h.init base) [⟨base, 0⟩] [] := by
  have heq : h.init base = { (h.setPtr base base).setSize base 0 with freep := base } := if_pos hfreep
  have hsize : (h.init base).size base = 0 := by
    rw [heq]
    change (setSize _ _ _).size base = 0
    rw [size_setSize, update_self]
  have hptr : (h.init base).ptr base = base := by
    rw [heq]
    change (setSize _ _ _).ptr base = base
    rw [ptr_setSize, ptr_setPtr, update_self]
  have hnone : (h.init base).ranges = [] := by
    rw [heq]
    exact hranges
  have hblocks : Blocks base (h.init base) [⟨base, 0⟩] [] := {
    head := rfl
    sorted := pairwise_singleton _ _
    sized := by
      intro t ht
      rw [mem_singleton.1 ht, hsize]
      rfl
    pos_ring := by
      intro t ht hlt
      rw [mem_singleton.1 ht] at hlt
      exact absurd hlt (lt_irrefl _)
    pos_live := fun t ht => absurd ht not_mem_nil
    tiles := by
      rw [hnone]
      exact Tiles.empty_iff.2 .nil
    above := by
      rw [hnone]
      exact fun r hr => absurd hr not_mem_nil
    small := by
      rw [hnone]
      decide }
  refine ⟨hblocks, ⟨hptr, trivial⟩, ?_⟩
  rw [heq]
  exact mem_cons_self

/-- `malloc` of fewer units than overflow the argument of `sbrk`. -/
theorem malloc_listed (hbase : 0 < base) (hl : Listed base (s.heap.init base) ring (s.live.map Allocation.block))
    {sbrk : Sbrk} (hsbrk : Fresh base sbrk) {n : ℕ} (hn : n < UINT32) (hlt : units n < 2 ^ 27) :
    ∃ h a ring', Settles (s.heap.malloc base sbrk · n) (some (h, a)) ∧ (a = 0 ∨ HEADER ≤ a) ∧
      Listed base h ring' ((if a = 0 then s.live else ⟨a, n⟩ :: s.live).map Allocation.block) := by
  obtain ⟨h', a, hcall, hcases⟩ := mallocLoop_spec hbase hl hsbrk (units_eq hn ▸ Nat.succ_pos _) hlt
  rcases hcases with ⟨rfl, rfl⟩ | ⟨t, ring', rfl, hlen, hl'⟩
  · exact ⟨_, 0, ring, hcall, .inl rfl, hl⟩
  · refine ⟨h', _, ring', hcall, .inr (Nat.le_add_left _ _), ?_⟩
    have hblock : Allocation.block ⟨t.start + HEADER, n⟩ = t := by
      rw [Allocation.block, Nat.add_sub_cancel, ← hlen]
    rw [if_neg (Nat.add_pos_right _ (by decide)).ne', map_cons, hblock]
    exact hl'

/-- `malloc` on a heap in use, or on one that is not there yet. -/
theorem malloc_spec (hbase : 0 < base) (hinv : s.Inv base) {sbrk : Sbrk} (hsbrk : Fresh base sbrk) {n : ℕ}
    (hn : n < REQUEST) :
    ∃ h a, Settles (s.heap.malloc base sbrk · n) (some (h, a)) ∧
      State.Inv base ⟨h, if a = 0 then s.live else ⟨a, n⟩ :: s.live⟩ := by
  have hlisted : ∃ ring, Listed base (s.heap.init base) ring (s.live.map Allocation.block) := by
    cases hinv with
    | unused hfreep hranges hlive =>
      rw [hlive]
      exact ⟨_, listed_init hfreep hranges⟩
    | @inUse ring h =>
      obtain ⟨u, hu, heq⟩ := mem_map.1 h.listed.freep
      have hne : s.heap.freep ≠ 0 := heq ▸ (hbase.trans_le (h.listed.base_le hu)).ne'
      rw [init, if_neg hne]
      exact ⟨ring, h.listed⟩
  have hok : ∀ x ∈ s.live, x.Ok := by
    cases hinv with
    | unused hfreep hranges hlive =>
      rw [hlive]
      exact fun x hx => absurd hx not_mem_nil
    | inUse h => exact h.ok
  obtain ⟨ring, hl⟩ := hlisted
  obtain ⟨h', a, ring', hcall, ha, hl'⟩ := malloc_listed hbase hl hsbrk (hn.trans (by decide)) (units_lt hn)
  refine ⟨h', a, hcall, .inUse ⟨hl', ?_⟩⟩
  change ∀ x ∈ ite _ _ _, _
  split
  next => exact hok
  next hne => exact forall_mem_cons.2 ⟨⟨ha.resolve_left hne, hn⟩, hok⟩

variable {live : List Span}

/-- The other order of the allocated blocks. -/
theorem Listed.perm {live' : List Span} (hl : Listed base h ring live)
    (hp : live.Perm live') : Listed base h ring live' := by
  have hperm := hp.append_left ring
  exact ⟨⟨hl.head, hl.sorted, fun t ht => hl.sized t (hperm.mem_iff.2 ht), hl.pos_ring,
    fun t ht => hl.pos_live t (hp.mem_iff.2 ht), hl.tiles.perm hperm, hl.above, hl.small⟩,
    hl.circle, hl.freep⟩

variable {x : Allocation}

/-- `free` of an allocation. -/
theorem free_allocation (hinv : s.Inv base) (hx : x ∈ s.live) :
    ∃ h, Settles (s.heap.free · x.address) (some h) ∧ State.Inv base ⟨h, s.live.erase x⟩ := by
  cases hinv with
  | unused hfreep hranges hlive => exact absurd (hlive ▸ hx) not_mem_nil
  | @inUse ring hin =>
    have hperm := (perm_cons_erase hx).map Allocation.block
    rw [map_cons] at hperm
    obtain ⟨h', hcall, ring', hl', -⟩ := free_spec (hin.listed.perm hperm)
    have haddress : x.block.start + HEADER = x.address := Nat.sub_add_cancel (hin.ok x hx).1
    rw [haddress] at hcall
    exact ⟨h', settles_of_le ring.length hcall, .inUse ⟨hl', fun y hy => hin.ok y (mem_of_mem_erase hy)⟩⟩

/-- The list depends on the headers of the blocks, on `freep` and on the ranges. -/
theorem Listed.congr {h' : Heap} (hl : Listed base h ring live)
    (hheader : ∀ t ∈ ring ++ live, h'.header t.start = h.header t.start) (hfreep : h'.freep = h.freep)
    (hranges : h'.ranges = h.ranges) : Listed base h' ring live := by
  have hsized : ∀ t ∈ ring ++ live, t.length = HEADER * h'.size t.start := by
    intro t ht
    rw [size, hheader t ht]
    exact hl.sized t ht
  refine ⟨⟨hl.head, hl.sorted, hsized, hl.pos_ring, hl.pos_live, hranges ▸ hl.tiles, hranges ▸ hl.above,
    hranges ▸ hl.small⟩, hl.circle.congr fun a ha => ?_, hfreep ▸ hl.freep⟩
  obtain ⟨t, ht, rfl⟩ := mem_map.1 ha
  exact congrArg Header.ptr (hheader t (mem_append_left live ht))

variable {t : Span}

/-- No header of a block is in the memory of an allocation. -/
theorem InUse.outside (hin : InUse base s ring) (ht : t ∈ ring ++ s.live.map Allocation.block)
    (hx : x ∈ s.live) : x.block.stop ≤ t.start ∨ t.start + HEADER ≤ x.address := by
  have hb := hin.listed.toBlocks
  have hxmem : x.block ∈ ring ++ s.live.map Allocation.block := mem_append_right ring (mem_map_of_mem hx)
  have hxpos : 0 < x.block.length := hb.pos_live _ (mem_map_of_mem hx)
  have haddress : x.block.start + HEADER = x.address := Nat.sub_add_cancel (hin.ok x hx).1
  have hle : x.block.start ≤ x.address := haddress ▸ Nat.le_add_right _ _
  by_cases heq : t = x.block
  · exact .inr (heq ▸ haddress.le)
  · have hapart : Span.Apart t x.block := hb.tiles.apart.forall ht hxmem heq
    by_cases hlt : t.start < x.block.start
    · refine .inr (le_trans ?_ hle)
      -- a block that has bytes has room for its header; `base` is below all ranges
      by_cases hpos : 0 < t.length
      · have hstop : t.start + t.length ≤ x.block.start := hapart.stop_le hlt.le hxpos
        have hsize : t.length = 16 * s.heap.size t.start := hb.sized t ht
        change t.start + 16 ≤ _
        omega
      · cases mem_append.1 ht with
        | inl hring =>
          have hbase := (hb.eq_or_pos hring).resolve_right fun h => hpos h.2
          rw [hbase]
          exact hb.above_of_mem hxmem (Span.start_mem hxpos)
        | inr hlive => exact absurd (hb.pos_live t hlive) hpos
    · refine .inl (hapart.symm.stop_le (not_lt.1 hlt) ?_)
      cases mem_append.1 ht with
      | inl hring =>
        have habove := hb.above_of_mem hxmem (Span.start_mem hxpos)
        refine hb.pos_ring t hring (lt_of_lt_of_le ?_ (not_lt.1 hlt))
        exact (Nat.lt_add_of_pos_right (by decide)).trans_le habove
      | inr hlive => exact hb.pos_live t hlive

/-- Writes to allocated memory are not seen by the allocator. -/
theorem write_inv (hinv : s.Inv base) {header : ℕ → Header}
    (hkept : ∀ a, (∀ x ∈ s.live, x.block.stop ≤ a ∨ a + HEADER ≤ x.address) →
      header a = s.heap.header a) : State.Inv base ⟨{ s.heap with header }, s.live⟩ := by
  cases hinv with
  | unused hfreep hranges hlive => exact .unused hfreep hranges hlive
  | inUse hin =>
    have hheader : ∀ t ∈ _ ++ s.live.map Allocation.block, header t.start = s.heap.header t.start :=
      fun t ht => hkept t.start fun x hx => hin.outside ht hx
    exact .inUse ⟨hin.listed.congr hheader rfl rfl, hin.ok⟩

/-- Every step keeps the heap right. -/
theorem Step.inv (hbase : 0 < base) {e : Event} (hstep : Step base s e s') (hinv : s.Inv base) : s'.Inv base := by
  cases hstep with
  | malloc sbrk hsbrk hbytes hcall =>
    obtain ⟨h', a', hcall', hinv'⟩ := malloc_spec hbase hinv hsbrk hbytes
    cases hcall.unique hcall'
    exact hinv'
  | free hlive hcall =>
    obtain ⟨h', hcall', hinv'⟩ := free_allocation hinv hlive
    cases hcall.unique hcall'
    exact hinv'
  | write hkept => exact write_inv hinv hkept

/-- The block at an address, as its header has it. -/
def Heap.block (h : Heap) (a : ℕ) : Span := ⟨a, HEADER * h.size a⟩

/-- A heap with the free blocks at the given addresses is as it should be. -/
structure WellFormed (base : ℕ) (s : State) (free : List ℕ) : Prop where
  /-- The list is a circle through `base`, once it is there. -/
  circle : s.heap.freep = 0 ∧ free = [] ∨
    Chain s.heap.ptr (base :: free) base ∧ s.heap.freep ∈ base :: free
  /-- The addresses grow from `base` to the end of the list. -/
  increasing : (base :: free).Pairwise (· < ·)
  /-- No free block ends where a free block starts. -/
  gaps : ∀ a ∈ free, ∀ b ∈ free, (s.heap.block a).stop ≠ b
  /-- Every allocation has the bytes that were asked for. -/
  enough : ∀ x ∈ s.live, HEADER ≤ x.address ∧
    x.address + x.bytes ≤ (s.heap.block (x.address - HEADER)).stop
  /-- The free and the allocated blocks do not overlap and are together what `sbrk` has granted. -/
  tiles : Tiles (free.map s.heap.block ++ s.live.map fun x => s.heap.block (x.address - HEADER))
    s.heap.ranges

/-- A block of the heap is what its header says. -/
theorem Blocks.block_eq (hb : Blocks base h ring live) (ht : t ∈ ring ++ live) : h.block t.start = t := by
  rw [block, ← hb.sized t ht]

/-- No free block ends where a free block starts. -/
theorem Blocks.stop_ne {free : List Span} (hb : Blocks base h (⟨base, 0⟩ :: free) live)
    {u : Span} (ht : t ∈ free) (hu : u ∈ free) : t.stop ≠ u.start := by
  have hpos : 0 < t.length := hb.pos_ring t (mem_cons_of_mem _ ht) (rel_of_pairwise_cons hb.start_lt ht)
  intro heq
  have hlt : t.start < u.start := heq ▸ Nat.lt_add_of_pos_right hpos
  obtain ⟨l, r, rfl⟩ := append_of_mem ht
  obtain ⟨-, hright, hacross⟩ := pairwise_append.1 (pairwise_cons.1 hb.sorted).2
  cases mem_append.1 hu with
  | inl hu =>
    have hle : u.start ≤ u.stop := Nat.le_add_right _ _
    exact absurd (hle.trans_lt (hacross u hu t mem_cons_self)) hlt.not_gt
  | inr hu =>
    cases mem_cons.1 hu with
    | inl h => exact hlt.ne' (congrArg Span.start h)
    | inr hu => exact (rel_of_pairwise_cons hright hu).ne heq

/-- A list of the free blocks, with allocations that have a size. -/
theorem Listed.wellFormed (hl : Listed base s.heap ring (s.live.map Allocation.block))
    (hok : ∀ x ∈ s.live, HEADER ≤ x.address ∧ x.bytes < UINT32) : ∃ free, WellFormed base s free := by
  obtain ⟨free, rfl⟩ := hl.ring_eq
  have hb := hl.toBlocks
  have hfree : ∀ t ∈ free, s.heap.block t.start = t := fun t ht =>
    hb.block_eq (mem_append_left _ (mem_cons_of_mem _ ht))
  have hlive : ∀ x ∈ s.live, s.heap.block (x.address - HEADER) = x.block := fun x hx =>
    hb.block_eq (mem_append_right _ (mem_map_of_mem hx))
  refine ⟨free.map Span.start, .inr ⟨hl.circle, hl.freep⟩, ?_, ?_, ?_, ?_⟩
  · exact pairwise_map.2 hb.start_lt
  · intro a ha b hb'
    obtain ⟨t, ht, rfl⟩ := mem_map.1 ha
    obtain ⟨u, hu, rfl⟩ := mem_map.1 hb'
    rw [hfree t ht]
    exact hb.stop_ne ht hu
  · intro x hx
    obtain ⟨haddress, hbytes⟩ := hok x hx
    refine ⟨haddress, ?_⟩
    rw [hlive x hx]
    change _ ≤ x.address - HEADER + HEADER * units x.bytes
    rw [units_eq hbytes]
    change 16 ≤ _ at haddress
    change _ ≤ x.address - 16 + 16 * _
    omega
  · have hmap : (free.map Span.start).map s.heap.block = free := by
      rw [map_map]
      exact (map_congr_left hfree).trans (map_id free)
    rw [hmap, map_congr_left hlive]
    exact Tiles.empty_iff.1 hb.tiles

theorem State.Inv.wellFormed (hinv : s.Inv base) : ∃ free, WellFormed base s free := by
  cases hinv with
  | unused hfreep hranges hlive =>
    refine ⟨[], .inl ⟨hfreep, rfl⟩, pairwise_singleton _ _, fun a ha => absurd ha not_mem_nil,
      fun x hx => absurd (hlive ▸ hx) not_mem_nil, ?_⟩
    rw [hlive, hranges]
    exact .nil
  | inUse hin => exact hin.listed.wellFormed fun x hx => ⟨(hin.ok x hx).1, (hin.ok x hx).2.trans (by decide)⟩

/-- In every run of a program the heap is as it should be: the free blocks are a circle through `base` in
the order of their addresses without borders between them, the allocations have their bytes, and free and
allocated blocks divide the memory from `sbrk`. All calls that the program can make return. -/
theorem heap_wellFormed (hbase : 0 < base) {header : ℕ → Header} {events : List Event}
    (hrun : Run (Step base) (start header) events s) :
    (∃ free, WellFormed base s free) ∧
      (∀ sbrk n, Fresh base sbrk → n < REQUEST → ∃ r, Settles (s.heap.malloc base sbrk · n) (some r)) ∧
      ∀ x ∈ s.live, ∃ h, Settles (s.heap.free · x.address) (some h) := by
  have hinv : s.Inv base := hrun.invariant (State.Inv base) (.unused rfl rfl rfl)
    fun _ _ _ hinv hstep => hstep.inv hbase hinv
  refine ⟨hinv.wellFormed, fun sbrk n hsbrk hn => ?_, fun x hx => ?_⟩
  · obtain ⟨h, a, hcall, -⟩ := malloc_spec hbase hinv hsbrk hn
    exact ⟨(h, a), hcall⟩
  · obtain ⟨h, hcall, -⟩ := free_allocation hinv hx
    exact ⟨h, hcall⟩

/-- An `sbrk` that grants one range. -/
def oneRange : Sbrk := fun ranges k => if ranges = [] ∧ k = 65536 then some 4096 else none

theorem oneRange_fresh : Fresh 16 oneRange := by
  intro ranges k a h
  rw [oneRange] at h
  split at h
  next hcond =>
    obtain ⟨rfl, rfl⟩ := hcond
    cases h
    exact ⟨by decide, fun r hr => absurd hr not_mem_nil, by decide⟩
  next => cases h

/-- A program after its first call. -/
theorem heap_wellFormed_first : ∃ s : State, Run (Step 16) (start fun _ => ⟨0, 0⟩) [.malloc 10] s ∧
    (∃ free, WellFormed 16 s free) ∧
      (∀ sbrk n, Fresh 16 sbrk → n < REQUEST → ∃ r, Settles (s.heap.malloc 16 sbrk · n) (some r)) ∧
      ∀ x ∈ s.live, ∃ h, Settles (s.heap.free · x.address) (some h) := by
  have hinv : (start fun _ => ⟨0, 0⟩).Inv 16 := .unused rfl rfl rfl
  have hbytes : 10 < REQUEST := by decide
  obtain ⟨h, a, hcall, -⟩ := malloc_spec (by decide) hinv oneRange_fresh hbytes
  have hrun := Run.nil.snoc (Step.malloc oneRange oneRange_fresh hbytes hcall)
  exact ⟨_, hrun, heap_wellFormed (by decide) hrun⟩

/-- An `sbrk` in front of a break in the middle of a page, for one call. -/
def oneCall : Sbrk := fun ranges k => if ranges = [] ∧ k < UINT32 then some 4112 else none

theorem oneCall_fresh : Fresh 16 oneCall := by
  intro ranges k a h
  rw [oneCall] at h
  split at h
  next hcond =>
    obtain ⟨rfl, hk⟩ := hcond
    cases h
    refine ⟨by decide, fun r hr => absurd hr not_mem_nil, ?_⟩
    change 0 + k < LIMIT
    exact (Nat.zero_add k).symm ▸ hk.trans (by decide)
  next => cases h

/-- For a request whose units overflow the argument of `sbrk`, `malloc` returns memory it has not got. -/
theorem malloc_overrun {n : ℕ} (hlarge : 2 ^ 27 ≤ units n) :
    ∃ h : Heap, Settles ((start fun _ => ⟨0, 0⟩).heap.malloc 16 oneCall · n) (some (h, 4112 + HEADER)) ∧
      h.ranges = [⟨4112, (Heap.asked (units n)).toNat⟩] := by
  have hmore : Heap.moreUnits (units n) = units n := if_neg (by omega)
  have hne : units n ≠ 0 := by omega
  have hapart : 4112 + HEADER * units n ≠ 16 := by omega
  have hmod : units n * HEADER % UINT32 < UINT32 := Nat.mod_lt _ (by decide)
  let first := update (fun _ => (⟨0, 0⟩ : Header)) 16 ⟨16, 0⟩
  refine ⟨⟨update (update first 4112 ⟨16, units n⟩) 16 ⟨16, 0⟩, 16, [⟨4112, _⟩]⟩,
    settles_of_le 2 fun fuel hfuel => ?_, rfl⟩
  obtain ⟨k, rfl⟩ : ∃ k, fuel = k + 2 := ⟨fuel - 2, by omega⟩
  simp [Heap.malloc, Heap.init, start, Heap.mallocLoop, Heap.size, Heap.ptr, Heap.setPtr, Heap.setSize,
    Heap.morecore, oneCall, hmore, Heap.free, seek, Heap.stops, Heap.joinUpper, Heap.joinLower, Heap.take,
    hne, hmod, hapart, first]

/-- `malloc` of some bytes on any heap with a list fails, or returns memory that was obtained from `sbrk`, is
large enough and is outside all other blocks. -/
def Enough (n : ℕ) : Prop :=
  ∀ base (s : State) ring sbrk, 0 < base → Listed base (s.heap.init base) ring (s.live.map Allocation.block) →
    (∀ x ∈ s.live, HEADER ≤ x.address ∧ x.bytes < UINT32) → Fresh base sbrk →
    ∃ h a, Settles (s.heap.malloc base sbrk · n) (some (h, a)) ∧
      (a = 0 ∨ ∃ free, WellFormed base ⟨h, ⟨a, n⟩ :: s.live⟩ free)

/-- For a request of fewer than `2 ^ 27` units, and for no other, `malloc` never gives too little; and up to
that number of units `morecore` asks for the size that it records. -/
theorem malloc_enough_iff {n : ℕ} (hn : n < UINT32) : (Enough n ↔ units n < 2 ^ 27) ∧
    ∀ nu, Heap.asked (Heap.moreUnits nu) = (Heap.moreUnits nu * HEADER : ℕ) ↔ Heap.moreUnits nu < 2 ^ 27 := by
  refine ⟨⟨fun hall => not_le.1 fun hlarge => ?_, fun hlt base s ring sbrk hbase hl hok hsbrk => ?_⟩,
    fun nu => asked_eq_iff⟩
  · obtain ⟨h, hcall, hranges⟩ := malloc_overrun hlarge
    obtain ⟨h', a, hcall', hgood⟩ :=
      hall 16 (start fun _ => ⟨0, 0⟩) _ oneCall (by decide) (listed_init rfl rfl) nofun oneCall_fresh
    cases hcall.unique hcall'
    obtain ⟨free, hw⟩ := hgood.resolve_left (by decide)
    have hroom := (hw.enough _ mem_cons_self).2
    have hlen := hw.tiles.length_le (mem_append_right _ mem_cons_self)
    change 4112 + 16 + n ≤ 4112 + (h.block 4112).length at hroom
    change (h.block 4112).length ≤ Span.total h.ranges at hlen
    rw [hranges] at hlen
    change _ ≤ (BitVec.ofNat 32 (units n * 16)).toInt.toNat at hlen
    rw [BitVec.toInt_eq_toNat_cond, BitVec.toNat_ofNat] at hlen
    have hunits := units_eq hn
    change n < 2 ^ 32 at hn
    split at hlen <;> omega
  · obtain ⟨h, a, ring', hcall, ha, hl'⟩ := malloc_listed hbase hl hsbrk hn hlt
    refine ⟨h, a, hcall, or_iff_not_imp_left.2 fun hne => ?_⟩
    rw [if_neg hne] at hl'
    exact Listed.wellFormed hl' (forall_mem_cons.2 ⟨⟨ha.resolve_left hne, hn⟩, hok⟩)

/-- A small request. -/
theorem malloc_enough_ten : (Enough 10 ↔ units 10 < 2 ^ 27) ∧
    ∀ nu, Heap.asked (Heap.moreUnits nu) = (Heap.moreUnits nu * HEADER : ℕ) ↔ Heap.moreUnits nu < 2 ^ 27 :=
  malloc_enough_iff (by decide)

/-- For `2 ^ 32 - 16` bytes `malloc` returns a block although `sbrk` was asked for nothing. -/
theorem malloc_overruns : ∃ h : Heap,
    Settles ((start fun _ => ⟨0, 0⟩).heap.malloc 16 oneCall · (UINT32 - 16)) (some (h, 4112 + HEADER)) ∧
      h.ranges = [⟨4112, 0⟩] :=
  malloc_overrun (by decide)

end Xv6.Heap
