import Mathlib.Data.List.Perm.Lattice
import Xv6.Heap.Code

/-!
# The list of free blocks

The blocks of the heap are spans of bytes. The free ones are, from `base` on, a circle of pointers in the
order of their addresses, with a gap between any two of them; free and allocated blocks tile the ranges
that `sbrk` has granted. `free` and `malloc` keep it so, and both come to an end.
-/

namespace Xv6.Heap

open Function Heap Library List Nat Span

namespace Heap

variable (h : Heap) (a v : ℕ)

@[simp] theorem ptr_setPtr : (h.setPtr a v).ptr = update h.ptr a v := by
  funext b
  by_cases hb : b = a
  · subst hb
    simp only [ptr, setPtr, update_self]
  · simp only [ptr, setPtr, update_of_ne hb]

@[simp] theorem size_setPtr : (h.setPtr a v).size = h.size := by
  funext b
  by_cases hb : b = a
  · subst hb
    simp only [size, setPtr, update_self]
  · simp only [size, setPtr, update_of_ne hb]

@[simp] theorem ptr_setSize : (h.setSize a v).ptr = h.ptr := by
  funext b
  by_cases hb : b = a
  · subst hb
    simp only [ptr, setSize, update_self]
  · simp only [ptr, setSize, update_of_ne hb]

@[simp] theorem size_setSize : (h.setSize a v).size = update h.size a v := by
  funext b
  by_cases hb : b = a
  · subst hb
    simp only [size, setSize, update_self]
  · simp only [size, setSize, update_of_ne hb]

end Heap

/-- The most bytes of a heap whose sizes the headers can count. -/
abbrev LIMIT : ℕ := 2 ^ 35

/-- The size of a block of the heap fits into its header. -/
theorem size_mod {tiles ranges : List Span} (htiles : Tiles tiles ranges) (hsmall : total ranges < LIMIT)
    {t : Span} (ht : t ∈ tiles) {n : ℕ} (hn : t.length = HEADER * n) : t.length = HEADER * (n % UINT32) := by
  have hle := htiles.length_le ht
  have hlt : n < UINT32 := by
    change t.length = 16 * n at hn
    change total ranges < 2 ^ 35 at hsmall
    change n < 2 ^ 32
    omega
  rw [mod_eq_of_lt hlt, hn]

/-- The blocks of a heap: those in the list, from `base` on, and the others. -/
structure Blocks (base : ℕ) (h : Heap) (ring live : List Span) : Prop where
  head : ring.head? = some ⟨base, 0⟩
  sorted : ring.Pairwise fun t u => t.stop < u.start
  sized : ∀ t ∈ ring ++ live, t.length = HEADER * h.size t.start
  pos_ring : ∀ t ∈ ring, base < t.start → 0 < t.length
  pos_live : ∀ t ∈ live, 0 < t.length
  tiles : Tiles (ring ++ live) h.ranges
  above : ∀ r ∈ h.ranges, base + HEADER ≤ r.start
  small : total h.ranges < LIMIT

variable {base : ℕ} {h h' : Heap} {ring live : List Span} {x : ℕ} {u : Span}

namespace Blocks

section

variable (hb : Blocks base h ring live)

include hb

/-- Every block with bytes is above the static data. -/
theorem above_of_mem {t : Span} (ht : t ∈ ring ++ live) (hx : x ∈ t) : base + HEADER ≤ x := by
  obtain ⟨r, hr, hxr⟩ := (hb.tiles.covers x).1 ⟨t, ht, hx⟩
  exact (hb.above r hr).trans hxr.1

/-- The list starts with `base`. -/
theorem ring_eq : ∃ free, ring = ⟨base, 0⟩ :: free := by
  obtain ⟨free, hfree⟩ := List.head?_eq_some_iff.1 hb.head
  exact ⟨free, hfree⟩

/-- A block in the list is `base`, or has bytes and is above it. -/
theorem eq_or_pos {t : Span} (ht : t ∈ ring) : t = ⟨base, 0⟩ ∨ base < t.start ∧ 0 < t.length := by
  obtain ⟨free, rfl⟩ := hb.ring_eq
  cases mem_cons.1 ht with
  | inl heq => exact .inl heq
  | inr hfree =>
    have hlt : base < t.start := rel_of_pairwise_cons hb.sorted hfree
    exact .inr ⟨hlt, hb.pos_ring t ht hlt⟩

/-- No block of the list is below `base`. -/
theorem base_le {t : Span} (ht : t ∈ ring) : base ≤ t.start := by
  cases hb.eq_or_pos ht with
  | inl heq => exact heq ▸ le_rfl
  | inr hpos => exact hpos.1.le

variable {rest : List Span}

/-- No block starts within another one. -/
theorem start_notMem {t : Span} (hp : (ring ++ live).Perm (t :: rest)) (hu : u ∈ rest) : u.start ∉ t := by
  intro hmem
  have hapart : Span.Apart t u := rel_of_pairwise_cons (hb.tiles.perm hp).apart hu
  have hut : u ∈ ring ++ live := hp.mem_iff.2 (mem_cons_of_mem t hu)
  have hin : 0 < u.length → False := fun hpos =>
    hapart u.start hmem (start_mem hpos)
  cases mem_append.1 hut with
  | inl hring =>
    cases hb.eq_or_pos hring with
    | inl heq =>
      have habove := hb.above_of_mem (hp.mem_iff.2 mem_cons_self) hmem
      rw [heq] at habove
      exact absurd habove (Nat.not_le.2 (Nat.lt_add_of_pos_right (by decide)))
    | inr hpos => exact hin hpos.2
  | inr hlive => exact hin (hb.pos_live u hlive)

/-- A new size at the start of one block is not seen at the others. -/
theorem sized_update {t : Span} (hp : (ring ++ live).Perm (t :: rest)) (hx : x ∈ t)
    (v : ℕ) (hu : u ∈ rest) : u.length = HEADER * update h.size x v u.start := by
  have hne : u.start ≠ x := fun heq => hb.start_notMem hp hu (heq ▸ hx)
  rw [update_of_ne hne]
  exact hb.sized u (hp.mem_iff.2 (mem_cons_of_mem t hu))

/-- The blocks depend on the sizes and on the ranges only. -/
theorem congr (hsize : h'.size = h.size) (hranges : h'.ranges = h.ranges) : Blocks base h' ring live where
  head := hb.head
  sorted := hb.sorted
  sized := hsize ▸ hb.sized
  pos_ring := hb.pos_ring
  pos_live := hb.pos_live
  tiles := hranges ▸ hb.tiles
  above := hranges ▸ hb.above
  small := hranges ▸ hb.small

/-- The order of the list is an order of addresses. -/
theorem start_lt : ring.Pairwise fun t u => t.start < u.start :=
  hb.sorted.imp fun hlt => (le_add_right _ _).trans_lt hlt

end

end Blocks

/-- The list of free blocks is a circle through `base`, and `freep` is in it. -/
structure Listed (base : ℕ) (h : Heap) (ring live : List Span) : Prop extends
    Blocks base h ring live where
  circle : Chain h.ptr (ring.map start) base
  freep : h.freep ∈ ring.map start

/-- An address above the first block of an ordered list, but at none of them, is in a gap. -/
theorem exists_gap {t : Span} {l : List Span} (hsorted : (t :: l).Pairwise fun t u => t.start < u.start)
    (hlt : t.start < x) (hne : ∀ u ∈ t :: l, u.start ≠ x) :
    ∃ m p r, t :: l = m ++ p :: r ∧ p.start < x ∧ ∀ u ∈ r, x < u.start := by
  induction l generalizing t with
  | nil => exact ⟨[], t, [], rfl, hlt, fun u hu => absurd hu not_mem_nil⟩
  | cons u l ih =>
    obtain ⟨hfirst, hrest⟩ := pairwise_cons.1 hsorted
    by_cases hu : u.start < x
    · obtain ⟨m, p, r, heq, hp, hr⟩ := ih hrest hu fun v hv => hne v (mem_cons_of_mem t hv)
      exact ⟨t :: m, p, r, congrArg (t :: ·) heq, hp, hr⟩
    · have hxu : x < u.start := lt_of_le_of_ne (not_lt.1 hu) (hne u (mem_cons_of_mem t mem_cons_self)).symm
      refine ⟨[], t, u :: l, rfl, hlt, ?_⟩
      intro v hv
      cases mem_cons.1 hv with
      | inl heq => exact heq ▸ hxu
      | inr hv => exact hxu.trans (rel_of_pairwise_cons hrest hv)

/-- The pointer of a block in the list. -/
theorem ptr_eq {m r : List Span} {p : Span} (hc : Chain h.ptr ((m ++ p :: r).map start) base) :
    h.ptr p.start = (r.map start).headD base := by
  rw [map_append, map_cons] at hc
  exact (chain_append.1 hc).2.1

namespace Listed

/-- The pointer of a block leads back to `base`, or to the next block of the list. -/
theorem ptr_cases (hl : Listed base h ring live) {t : Span} (ht : t ∈ ring) :
    h.ptr t.start = base ∧ (∀ u ∈ ring, u.start ≤ t.start) ∨
      t.start < h.ptr t.start ∧ ∀ u ∈ ring, t.start < u.start → h.ptr t.start ≤ u.start := by
  obtain ⟨m, r, rfl⟩ := append_of_mem ht
  have hptr := ptr_eq hl.circle
  obtain ⟨-, hafter, hbefore⟩ := pairwise_append.1 hl.start_lt
  obtain ⟨hafter, hrest⟩ := pairwise_cons.1 hafter
  have hm : ∀ u ∈ m, u.start < t.start := fun u hu => hbefore u hu t mem_cons_self
  cases r with
  | nil =>
    refine .inl ⟨hptr, fun u hu => ?_⟩
    cases mem_append.1 hu with
    | inl hu => exact (hm u hu).le
    | inr hu => exact (mem_singleton.1 hu) ▸ le_rfl
  | cons q r =>
    have hq : h.ptr t.start = q.start := hptr
    refine .inr ⟨hq ▸ hafter q mem_cons_self, fun u hu hlt => hq ▸ ?_⟩
    cases mem_append.1 hu with
    | inl hu => exact absurd hlt (hm u hu).not_gt
    | inr hu =>
      cases mem_cons.1 hu with
      | inl heq => exact absurd (heq ▸ hlt) (lt_irrefl _)
      | inr hu =>
        cases mem_cons.1 hu with
        | inl heq => exact heq ▸ le_rfl
        | inr hu => exact (rel_of_pairwise_cons hrest hu).le

/-- The search for the place of an address stops at the block before the gap, and nowhere else. -/
theorem stops_iff (hl : Listed base h ring live) {m r : List Span} {p : Span}
    (hsplit : ring = m ++ p :: r) (hp : p.start < x) (hr : ∀ u ∈ r, x < u.start) (hx : base < x)
    {t : Span} (ht : t ∈ ring) : h.stops x t.start = true ↔ t.start = p.start := by
  have hmem : p ∈ ring := hsplit ▸ mem_append_right m mem_cons_self
  have hsorted := hl.start_lt
  rw [hsplit] at hsorted
  obtain ⟨-, -, hbefore⟩ := pairwise_append.1 hsorted
  -- a block of the list is up to `p`, or above the address
  have hside : ∀ u ∈ ring, u.start ≤ p.start ∨ x < u.start := by
    intro u hu
    rw [hsplit] at hu
    cases mem_append.1 hu with
    | inl hu => exact .inl (hbefore u hu p mem_cons_self).le
    | inr hu =>
      cases mem_cons.1 hu with
      | inl heq => exact .inl (heq ▸ le_rfl)
      | inr hu => exact .inr (hr u hu)
  have hptr : h.ptr p.start = base ∨ x < h.ptr p.start := by
    rw [ptr_eq (hsplit ▸ hl.circle)]
    cases r with
    | nil => exact .inl rfl
    | cons q r => exact .inr (hr q mem_cons_self)
  simp only [stops, Bool.or_eq_true, Bool.and_eq_true, decide_eq_true_eq]
  cases hl.ptr_cases ht with
  | inl hlast =>
    have hle := hlast.2 p hmem
    have hbase := hl.base_le ht
    have := hside t ht
    omega
  | inr hnext =>
    have hle := hnext.2 p hmem
    have := hside t ht
    constructor
    · omega
    · intro heq
      rw [heq] at hnext ⊢
      have hbase := hl.base_le hmem
      omega

end Listed

/-- A block outside the list has its place between `p` and the blocks `r`, past the blocks `m`. -/
structure Placed (base : ℕ) (h : Heap) (l : List Span) (p t : Span) (m r live : List Span) : Prop extends
    Blocks base h (l ++ p :: r) (t :: live) where
  circle : Chain h.ptr ((l ++ (p :: m ++ r)).map start) base
  ptr : h.ptr t.start = (r.map start).headD base
  before : p.stop ≤ t.start
  after : ∀ u ∈ r, t.stop < u.start

namespace Blocks

variable {t : Span}

/-- An allocated block is apart from every free one. -/
theorem apart_ring (hb : Blocks base h ring (t :: live)) (hu : u ∈ ring) : Span.Apart t u :=
  rel_of_pairwise_cons (hb.tiles.perm perm_middle).apart (mem_append_left live hu)

/-- An allocated block has an address of its own. -/
theorem start_ne (hb : Blocks base h ring (t :: live)) {a : ℕ} (ha : a ∈ ring.map start) : a ≠ t.start := by
  intro heq
  obtain ⟨u, hu, rfl⟩ := mem_map.1 ha
  have hin := start_mem (hb.pos_live t mem_cons_self)
  exact hb.start_notMem perm_middle (mem_append_left live hu) (heq ▸ hin)

/-- A block of the list has an address of its own in the list. -/
theorem start_ne_of_split {l r : List Span} {p : Span} (hb : Blocks base h (l ++ p :: r) live) {a : ℕ}
    (ha : a ∈ l.map start ++ r.map start) : a ≠ p.start := by
  obtain ⟨-, hright, hacross⟩ := pairwise_append.1 hb.start_lt
  cases mem_append.1 ha with
  | inl ha =>
    obtain ⟨u, hu, rfl⟩ := mem_map.1 ha
    exact (hacross u hu p mem_cons_self).ne
  | inr ha =>
    obtain ⟨u, hu, rfl⟩ := mem_map.1 ha
    exact (rel_of_pairwise_cons hright hu).ne'

end Blocks

section Insertion

variable {l r m : List Span} {p q t : Span}

/-- A block that is to be freed is linked to the block above it, with which it has no border. -/
theorem Listed.link_upper (hl : Listed base h (l ++ p :: r) (t :: live)) (hp : p.start < t.start)
    (hr : ∀ u ∈ r, t.start < u.start) (hne : t.stop ≠ h.ptr p.start) :
    Placed base (h.setPtr t.start (h.ptr p.start)) l p t [] r live where
  toBlocks := hl.toBlocks.congr (size_setPtr _ _ _) rfl
  circle := by
    rw [ptr_setPtr]
    exact hl.circle.congr fun a ha => update_of_ne (hl.start_ne ha) _ _
  ptr := by
    rw [ptr_setPtr, update_self]
    exact ptr_eq hl.circle
  before := by
    have hapart := hl.apart_ring (mem_append_right l mem_cons_self)
    exact hapart.symm.stop_le hp.le (hl.pos_live t mem_cons_self)
  after := by
    rw [ptr_eq hl.circle] at hne
    have hmem : ∀ u ∈ r, u ∈ l ++ p :: r := fun u hu =>
      mem_append_right l (mem_cons_of_mem p hu)
    have hstop : ∀ u ∈ r, t.stop ≤ u.start := by
      intro u hu
      have hbase := hl.base_le (mem_append_right l mem_cons_self)
      have hpos := hl.pos_ring u (hmem u hu) ((hbase.trans_lt hp).trans (hr u hu))
      exact (hl.apart_ring (hmem u hu)).stop_le (hr u hu).le hpos
    cases r with
    | nil => exact fun u hu => absurd hu not_mem_nil
    | cons q r =>
      have hlt : t.stop < q.start := lt_of_le_of_ne (hstop q mem_cons_self) hne
      have hsorted := (pairwise_cons.1 (pairwise_append.1 hl.start_lt).2.1).2
      intro u hu
      cases mem_cons.1 hu with
      | inl heq => exact heq ▸ hlt
      | inr hu => exact hlt.trans (rel_of_pairwise_cons hsorted hu)

/-- A block that is to be freed takes in the block right above it. -/
theorem Listed.join_upper (hl : Listed base h (l ++ p :: q :: r) (t :: live)) (hp : p.start < t.start)
    (heq : t.stop = q.start) {h' : Heap}
    (hsize : h'.size = update h.size t.start ((h.size t.start + h.size q.start) % UINT32))
    (hptr : h'.ptr = update h.ptr t.start (h.ptr q.start)) (hranges : h'.ranges = h.ranges) :
    Placed base h' l p ⟨t.start, t.length + q.length⟩ [q] r live := by
  have hin := start_mem (hl.pos_live t mem_cons_self)
  have hsub : (l ++ p :: r).Sublist (l ++ p :: q :: r) :=
    (List.Sublist.refl l).append ((sublist_cons_self q r).cons_cons p)
  have hq : q ∈ l ++ p :: q :: r := mem_append_right l (mem_cons_of_mem p mem_cons_self)
  have htiles : Tiles (l ++ p :: r ++ ⟨t.start, t.length + q.length⟩ :: live) h.ranges := by
    have hperm : (l ++ p :: q :: r ++ t :: live).Perm (t :: q :: (l ++ p :: r ++ live)) :=
      perm_iff_count.2 fun a => by
        simp only [count_append, count_cons]
        ac_rfl
    have htiles := hl.tiles.perm hperm
    have hqeq : q = ⟨t.start + t.length, q.length⟩ := congrArg (Span.mk · q.length) heq.symm
    rw [hqeq] at htiles
    exact (Tiles.join_iff.1 htiles).perm perm_middle.symm
  have hpart : t.length + q.length = HEADER * (h.size t.start + h.size q.start) := by
    rw [Nat.mul_add, ← hl.sized t (mem_append_right _ mem_cons_self), ← hl.sized q (mem_append_left _ hq)]
  have hsized : ∀ u ∈ l ++ p :: r ++ live, u.length = HEADER * h'.size u.start := by
    intro u hu
    rw [hsize]
    refine hl.sized_update perm_middle hin _ (mem_append.2 ?_)
    exact (mem_append.1 hu).imp_left fun hu => hsub.subset hu
  obtain ⟨-, hafter, -⟩ := pairwise_append.1 hl.sorted
  obtain ⟨-, hafter⟩ := pairwise_cons.1 hafter
  have hblocks : Blocks base h' (l ++ p :: r) (⟨t.start, t.length + q.length⟩ :: live) := {
    head := by
      have hhead := hl.head
      rw [List.head?_append] at hhead ⊢
      exact hhead
    sorted := hl.sorted.sublist hsub
    sized := by
      intro u hu
      cases mem_cons.1 (perm_middle.mem_iff.1 hu) with
      | inl hu =>
        rw [hu, hsize, update_self]
        exact size_mod htiles hl.small (mem_append_right _ mem_cons_self) hpart
      | inr hu => exact hsized u hu
    pos_ring := fun u hu => hl.pos_ring u (hsub.subset hu)
    pos_live := by
      intro u hu
      cases mem_cons.1 hu with
      | inl hu => exact hu ▸ Nat.add_pos_left (hl.pos_live t mem_cons_self) _
      | inr hu => exact hl.pos_live u (mem_cons_of_mem t hu)
    tiles := hranges ▸ htiles
    above := hranges ▸ hl.above
    small := hranges ▸ hl.small }
  refine ⟨hblocks, ?_, ?_, ?_, ?_⟩
  · rw [hptr]
    exact hl.circle.congr fun a ha => update_of_ne (hl.start_ne ha) _ _
  · have hsplit : l ++ p :: q :: r = (l ++ [p]) ++ q :: r := append_cons l p (q :: r)
    rw [hptr, update_self]
    exact ptr_eq (hsplit ▸ hl.circle)
  · have hapart := hl.apart_ring (mem_append_right l mem_cons_self)
    exact hapart.symm.stop_le hp.le (hl.pos_live t mem_cons_self)
  · intro u hu
    have hlt : q.stop < u.start := rel_of_pairwise_cons hafter hu
    have hstop : (⟨t.start, t.length + q.length⟩ : Span).stop = q.stop := by
      rw [stop, stop, ← heq, stop, add_assoc]
    exact hstop ▸ hlt

/-- The first half of an insertion finds the block its place. -/
theorem joinUpper_placed (hl : Listed base h (l ++ p :: r) (t :: live)) (hp : p.start < t.start)
    (hr : ∀ u ∈ r, t.start < u.start) :
    ∃ t' m r', t'.start = t.start ∧ t.length ≤ t'.length ∧
      Placed base (h.joinUpper t.start p.start) l p t' m r' live := by
  have hstop : t.stop = t.start + HEADER * h.size t.start := by
    rw [stop, hl.sized t (mem_append_right _ mem_cons_self)]
  rw [joinUpper, ← hstop]
  split
  next heq =>
    rw [ptr_eq hl.circle] at heq ⊢
    cases r with
    | nil =>
      -- the pointer leads back to `base`, which is below the block
      have hbase := hl.base_le (mem_append_right l mem_cons_self : p ∈ _)
      have hle : t.start ≤ t.stop := le_add_right _ _
      have heq : t.stop = base := heq
      omega
    | cons q r =>
      refine ⟨⟨t.start, t.length + q.length⟩, [q], r, rfl, le_add_right _ _, hl.join_upper hp heq ?_ ?_ rfl⟩
      · rw [size_setPtr, size_setSize]
        rfl
      · rw [ptr_setPtr, ptr_setSize, ptr_eq hl.circle]
        rfl
  next hne => exact ⟨t, [], r, rfl, le_rfl, hl.link_upper hp hr hne⟩

/-- The block is linked in behind a block with which it has no border. -/
theorem Placed.link_lower (hpl : Placed base h l p t m r live) (hne : p.stop ≠ t.start) :
    Listed base { h.setPtr p.start t.start with freep := p.start } (l ++ p :: t :: r) live := by
  have hlt : p.stop < t.start := lt_of_le_of_ne hpl.before hne
  have hperm : (l ++ p :: r ++ t :: live).Perm (l ++ p :: t :: r ++ live) :=
    perm_iff_count.2 fun a => by
      simp only [count_append, count_cons]
      ac_rfl
  have hsorted : (l ++ p :: t :: r).Pairwise fun t u => t.stop < u.start := by
    obtain ⟨hleft, hright, hacross⟩ := pairwise_append.1 hpl.sorted
    obtain ⟨hfirst, hrest⟩ := pairwise_cons.1 hright
    have hp : ∀ u ∈ t :: r, p.stop < u.start := forall_mem_cons.2 ⟨hlt, hfirst⟩
    have ht : ∀ u ∈ l, u.stop < t.start := fun u hu =>
      (hacross u hu p mem_cons_self).trans_le ((le_add_right _ _).trans hpl.before)
    refine pairwise_append.2 ⟨hleft, .cons hp (.cons hpl.after hrest), ?_⟩
    intro u hu
    have hrest := forall_mem_cons.1 (hacross u hu)
    exact forall_mem_cons.2 ⟨hrest.1, forall_mem_cons.2 ⟨ht u hu, hrest.2⟩⟩
  have hblocks : Blocks base { h.setPtr p.start t.start with freep := p.start } (l ++ p :: t :: r) live := {
    head := by
      have hhead := hpl.head
      rw [List.head?_append] at hhead ⊢
      exact hhead
    sorted := hsorted
    sized := by
      intro u hu
      have hsize := hpl.sized u (hperm.mem_iff.2 hu)
      rw [← size_setPtr h p.start t.start] at hsize
      exact hsize
    pos_ring := by
      intro u hu hbase
      cases mem_cons.1 ((perm_iff_count.2 fun a => by
        simp only [count_append, count_cons]
        ac_rfl : (l ++ p :: t :: r).Perm (t :: (l ++ p :: r))).mem_iff.1 hu) with
      | inl heq => exact heq ▸ hpl.pos_live t mem_cons_self
      | inr hu => exact hpl.pos_ring u hu hbase
    pos_live := fun u hu => hpl.pos_live u (mem_cons_of_mem t hu)
    tiles := hpl.tiles.perm hperm
    above := hpl.above
    small := hpl.small }
  refine ⟨hblocks, ?_, ?_⟩
  · have hcircle := hpl.circle
    have hne : t.start ≠ p.start := (hpl.start_ne (by simp)).symm
    simp only [map_append, map_cons] at hcircle ⊢
    change Chain (h.setPtr p.start t.start).ptr _ _
    rw [ptr_setPtr]
    have hpart : Chain (update h.ptr p.start t.start) (p.start :: [t.start])
        ((r.map start).headD base) := by
      refine ⟨update_self _ _ _, ?_, trivial⟩
      rw [update_of_ne hne]
      exact hpl.ptr
    exact hcircle.splice hpart fun a ha => update_of_ne (hpl.start_ne_of_split ha) _ _
  · exact mem_map_of_mem (mem_append_right l mem_cons_self)

/-- The block is taken in by the block right below it. -/
theorem Placed.join_lower (hpl : Placed base h l p t m r live) (heq : p.stop = t.start) {h' : Heap}
    (hsize : h'.size = update h.size p.start ((h.size p.start + h.size t.start) % UINT32))
    (hptr : h'.ptr = update h.ptr p.start (h.ptr t.start)) (hranges : h'.ranges = h.ranges)
    (hfreep : h'.freep = p.start) : Listed base h' (l ++ ⟨p.start, p.length + t.length⟩ :: r) live := by
  have htiles : Tiles (l ++ ⟨p.start, p.length + t.length⟩ :: r ++ live) h.ranges := by
    have hperm : (l ++ p :: r ++ t :: live).Perm (p :: t :: (l ++ r ++ live)) :=
      perm_iff_count.2 fun a => by
        simp only [count_append, count_cons]
        ac_rfl
    have htiles := hpl.tiles.perm hperm
    have hteq : t = ⟨p.start + p.length, t.length⟩ := congrArg (Span.mk · t.length) heq.symm
    rw [hteq] at htiles
    refine (Tiles.join_iff.1 htiles).perm (perm_iff_count.2 fun a => ?_)
    simp only [count_append, count_cons]
    ac_rfl
  have hmem : p ∈ l ++ p :: r := mem_append_right l mem_cons_self
  have hpos : base < p.start ∧ 0 < p.length := by
    refine (hpl.eq_or_pos hmem).resolve_left fun hp => ?_
    have habove := hpl.above_of_mem (mem_append_right _ mem_cons_self) (start_mem (hpl.pos_live t mem_cons_self))
    rw [← heq, hp] at habove
    exact absurd habove (Nat.not_le.2 (Nat.lt_add_of_pos_right (by decide)))
  have hpart : p.length + t.length = HEADER * (h.size p.start + h.size t.start) := by
    rw [Nat.mul_add, ← hpl.sized p (mem_append_left _ hmem), ← hpl.sized t (mem_append_right _ mem_cons_self)]
  have hstop : (⟨p.start, p.length + t.length⟩ : Span).stop = t.stop := by
    rw [stop, stop, ← heq, stop, add_assoc]
  have hsorted : (l ++ ⟨p.start, p.length + t.length⟩ :: r).Pairwise fun t u => t.stop < u.start := by
    obtain ⟨hleft, hright, hacross⟩ := pairwise_append.1 hpl.sorted
    refine pairwise_append.2 ⟨hleft, .cons (hstop ▸ hpl.after) (pairwise_cons.1 hright).2, ?_⟩
    intro u hu
    have hrest := forall_mem_cons.1 (hacross u hu)
    exact forall_mem_cons.2 ⟨hrest.1, hrest.2⟩
  have hothers : ∀ u, u ∈ l ++ ⟨p.start, p.length + t.length⟩ :: r ++ live →
      u = ⟨p.start, p.length + t.length⟩ ∨ u ∈ l ++ r ++ t :: live := by
    intro u hu
    simp only [mem_append, mem_cons] at hu ⊢
    tauto
  have hblocks : Blocks base h' (l ++ ⟨p.start, p.length + t.length⟩ :: r) live := {
    head := by
      have hhead := hpl.head
      cases l with
      | nil =>
        have hp : p = ⟨base, 0⟩ := Option.some.inj hhead
        exact absurd hpos.1 (hp ▸ lt_irrefl _)
      | cons u l => exact hhead
    sorted := hsorted
    sized := by
      intro u hu
      have hperm : (l ++ p :: r ++ t :: live).Perm (p :: (l ++ r ++ t :: live)) :=
        perm_middle.append_right (t :: live)
      rw [hsize]
      cases hothers u hu with
      | inl heq =>
        rw [heq, update_self]
        exact size_mod htiles hpl.small (mem_append_left _ (mem_append_right l mem_cons_self)) hpart
      | inr hu => exact hpl.sized_update hperm (start_mem hpos.2) _ hu
    pos_ring := by
      intro u hu hbase
      cases mem_append.1 hu with
      | inl hu => exact hpl.pos_ring u (mem_append_left _ hu) hbase
      | inr hu =>
        cases mem_cons.1 hu with
        | inl heq => exact heq ▸ Nat.add_pos_left hpos.2 _
        | inr hu => exact hpl.pos_ring u (mem_append_right l (mem_cons_of_mem p hu)) hbase
    pos_live := fun u hu => hpl.pos_live u (mem_cons_of_mem t hu)
    tiles := hranges ▸ htiles
    above := hranges ▸ hpl.above
    small := hranges ▸ hpl.small }
  refine ⟨hblocks, ?_, ?_⟩
  · have hcircle := hpl.circle
    simp only [map_append, map_cons] at hcircle ⊢
    rw [hptr]
    have hpart : Chain (update h.ptr p.start (h.ptr t.start)) (p.start :: [])
        ((r.map start).headD base) := by
      refine ⟨?_, trivial⟩
      rw [update_self]
      exact hpl.ptr
    exact hcircle.splice hpart fun a ha => update_of_ne (hpl.start_ne_of_split ha) _ _
  · rw [hfreep, map_append, map_cons]
    exact mem_append_right _ mem_cons_self

/-- The second half of an insertion puts the block into the list. -/
theorem joinLower_listed (hpl : Placed base h l p t m r live) :
    ∃ ring', Listed base { h.joinLower t.start p.start with freep := p.start } ring' live ∧
      ∃ u ∈ ring', t.length ≤ u.length := by
  have hstop : p.stop = p.start + HEADER * h.size p.start := by
    rw [stop, hpl.sized p (mem_append_left _ (mem_append_right l mem_cons_self))]
  rw [joinLower, ← hstop]
  split
  next heq =>
    refine ⟨_, hpl.join_lower heq ?_ ?_ rfl rfl, ⟨p.start, p.length + t.length⟩,
      mem_append_right l mem_cons_self, le_add_left _ _⟩
    · change (setPtr _ _ _).size = _
      rw [size_setPtr, size_setSize]
    · change (setPtr _ _ _).ptr = _
      rw [ptr_setPtr, ptr_setSize]
  next hne =>
    exact ⟨_, hpl.link_lower hne, t, mem_append_right l (mem_cons_of_mem p mem_cons_self), le_rfl⟩

end Insertion

/-- `free` of a block that is not in the list puts it there. -/
theorem free_spec {t : Span} (hl : Listed base h ring (t :: live)) :
    ∃ h', (∀ fuel, ring.length ≤ fuel → h.free fuel (t.start + HEADER) = some h') ∧
      ∃ ring', Listed base h' ring' live ∧ ∃ u ∈ ring', t.length ≤ u.length := by
  obtain ⟨free, hring⟩ := hl.ring_eq
  have hbase : base < t.start := by
    have habove := hl.above_of_mem (mem_append_right _ mem_cons_self) (start_mem (hl.pos_live t mem_cons_self))
    exact (Nat.lt_add_of_pos_right (by decide)).trans_le habove
  obtain ⟨l, p, r, hsplit, hp, hr⟩ := exists_gap (hring ▸ hl.start_lt) hbase
    fun u hu => hl.start_ne (mem_map_of_mem (hring ▸ hu))
  rw [← hring] at hsplit
  have hseek : ∀ fuel, ring.length ≤ fuel →
      seek (h.stops t.start) h.ptr fuel h.freep = some p.start := by
    intro fuel hfuel
    have hstarts : ring.map start = base :: free.map start := by rw [hring, map_cons]
    have hmem : p.start ∈ ring.map start := mem_map_of_mem (hsplit ▸ mem_append_right l mem_cons_self)
    have hcircle := hl.circle
    have hfreep := hl.freep
    have hstop : ∀ x ∈ ring.map start, h.stops t.start x = true ↔ x = p.start := by
      intro x hx
      obtain ⟨u, hu, rfl⟩ := mem_map.1 hx
      exact hl.stops_iff hsplit hp hr hbase hu
    rw [hstarts] at hcircle hmem hfreep hstop
    have hlen : (free.map start).length < fuel := by
      rw [hring, length_cons] at hfuel
      rw [length_map]
      exact hfuel
    exact hcircle.seek_circle hfreep hmem hstop hlen
  obtain ⟨t', m, r', hstart, hle, hplaced⟩ := joinUpper_placed (hsplit ▸ hl) hp hr
  obtain ⟨ring', hlisted, u, hu, hlen⟩ := joinLower_listed hplaced
  rw [hstart] at hlisted
  refine ⟨_, fun fuel hfuel => ?_, ring', hlisted, u, hu, hle.trans hlen⟩
  rw [Heap.free, Nat.add_sub_cancel, hseek fuel hfuel]
  rfl

end Xv6.Heap
