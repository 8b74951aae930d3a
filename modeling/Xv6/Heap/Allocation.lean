import Xv6.Heap.FreeList
import Xv6.Library.Fuel

/-!
# Allocation

`malloc` looks around the list for a block that is large enough and takes it or cuts the end off it. If
there is none it asks for more memory, which `free` puts into the list, and then finds a block on the next
way around. In both cases the blocks tile the granted memory as before, with the new block outside the list.
-/

namespace Xv6.Heap

open Function Heap Library List Nat Span

variable {base : ℕ} {h h' : Heap} {ring live l r : List Span} {p q : Span}

/-- A block of the right size is taken out of the list. -/
theorem Listed.unlink (hl : Listed base h (l ++ q :: p :: r) live) (hpos : 0 < p.length) :
    Listed base { h.setPtr q.start (h.ptr p.start) with freep := q.start } (l ++ q :: r) (p :: live) := by
  have hsub : (l ++ q :: r).Sublist (l ++ q :: p :: r) :=
    (List.Sublist.refl l).append ((sublist_cons_self p r).cons_cons q)
  have hperm : (l ++ q :: p :: r ++ live).Perm (l ++ q :: r ++ p :: live) :=
    perm_iff_count.2 fun a => by
      simp only [count_append, count_cons]
      ac_rfl
  have hblocks : Blocks base h (l ++ q :: r) (p :: live) := {
    head := by
      have hhead := hl.head
      rw [List.head?_append] at hhead ⊢
      exact hhead
    sorted := hl.sorted.sublist hsub
    sized := fun u hu => hl.sized u (hperm.mem_iff.2 hu)
    pos_ring := fun u hu => hl.pos_ring u (hsub.subset hu)
    pos_live := forall_mem_cons.2 ⟨hpos, hl.pos_live⟩
    tiles := hl.tiles.perm hperm
    above := hl.above
    small := hl.small }
  refine ⟨hblocks.congr (size_setPtr _ _ _) rfl, ?_, ?_⟩
  · have hcircle := hl.circle
    have hsplit : l ++ q :: p :: r = (l ++ [q]) ++ p :: r := append_cons l q (p :: r)
    have hptr := ptr_eq (hsplit ▸ hl.circle)
    simp only [map_append, map_cons] at hcircle ⊢
    change Chain (h.setPtr q.start (h.ptr p.start)).ptr _ _
    rw [ptr_setPtr]
    have hpart : Chain (update h.ptr q.start (h.ptr p.start)) (q.start :: [])
        ((r.map start).headD base) := by
      refine ⟨?_, trivial⟩
      rw [update_self]
      exact hptr
    have hcircle : Chain h.ptr (l.map start ++ (q.start :: [p.start] ++ r.map start)) base := hcircle
    exact hcircle.splice hpart fun a ha => update_of_ne (hblocks.start_ne_of_split ha) _ _
  · exact mem_map_of_mem (mem_append_right l mem_cons_self)

/-- The end of a larger block is cut off. -/
theorem Listed.cut (hl : Listed base h (l ++ q :: p :: r) live) {m n : ℕ} (hm : 0 < m) (hn : 0 < n)
    (hp : h.size p.start = m + n) {h' : Heap}
    (hsize : h'.size = update (update h.size p.start m) (p.start + HEADER * m) n)
    (hptr : h'.ptr = h.ptr) (hranges : h'.ranges = h.ranges) (hfreep : h'.freep = q.start) :
    Listed base h' (l ++ q :: ⟨p.start, HEADER * m⟩ :: r) (⟨p.start + HEADER * m, HEADER * n⟩ :: live) := by
  have hmem : p ∈ l ++ q :: p :: r := mem_append_right l (mem_cons_of_mem q mem_cons_self)
  have hlen : p.length = HEADER * m + HEADER * n := by
    rw [hl.sized p (mem_append_left live hmem), hp, Nat.mul_add]
  have hmpos : 0 < HEADER * m := Nat.mul_pos (by decide) hm
  have hnpos : 0 < HEADER * n := Nat.mul_pos (by decide) hn
  have hperm : (l ++ q :: p :: r ++ live).Perm (p :: (l ++ q :: r ++ live)) :=
    perm_iff_count.2 fun a => by
      simp only [count_append, count_cons]
      ac_rfl
  have htiles : Tiles (l ++ q :: ⟨p.start, HEADER * m⟩ :: r ++ ⟨p.start + HEADER * m, HEADER * n⟩ :: live)
      h.ranges := by
    have htiles := hl.tiles.perm hperm
    have hpeq : p = ⟨p.start, HEADER * m + HEADER * n⟩ := congrArg (Span.mk p.start) hlen
    rw [hpeq] at htiles
    refine (Tiles.join_iff.2 htiles).perm (perm_iff_count.2 fun a => ?_)
    simp only [count_append, count_cons]
    ac_rfl
  have hothers : ∀ u ∈ l ++ q :: r ++ live, u.length = HEADER * h'.size u.start := by
    intro u hu
    have hout := hl.start_notMem hperm hu
    have hfirst : u.start ≠ p.start := fun heq =>
      hout (heq ▸ start_mem (hlen ▸ Nat.add_pos_left hmpos _))
    have hstop : p.start + HEADER * m < p.stop := by
      rw [stop, hlen]
      exact Nat.add_lt_add_left (Nat.lt_add_of_pos_right hnpos) _
    have hsecond : u.start ≠ p.start + HEADER * m := fun heq =>
      hout (heq ▸ ⟨Nat.le_add_right _ _, hstop⟩)
    rw [hsize, update_of_ne hsecond, update_of_ne hfirst]
    exact hl.sized u (hperm.mem_iff.2 (mem_cons_of_mem p hu))
  have hkept : h'.size p.start = m := by
    rw [hsize, update_of_ne (Nat.ne_of_lt (Nat.lt_add_of_pos_right hmpos)), update_self]
  have hsorted : (l ++ q :: ⟨p.start, HEADER * m⟩ :: r).Pairwise fun t u => t.stop < u.start := by
    obtain ⟨hleft, hright, hacross⟩ := pairwise_append.1 hl.sorted
    obtain ⟨hq, hright⟩ := pairwise_cons.1 hright
    obtain ⟨hp, hright⟩ := pairwise_cons.1 hright
    have hstop : (⟨p.start, HEADER * m⟩ : Span).stop ≤ p.stop := Nat.add_le_add_left (hlen ▸ Nat.le_add_right _ _) _
    have hhead := forall_mem_cons.1 hq
    refine pairwise_append.2 ⟨hleft, .cons (forall_mem_cons.2 ⟨hhead.1, hhead.2⟩)
      (.cons (fun u hu => hstop.trans_lt (hp u hu)) hright), ?_⟩
    intro u hu
    obtain ⟨hfirst, hrest⟩ := forall_mem_cons.1 (hacross u hu)
    obtain ⟨hsecond, hrest⟩ := forall_mem_cons.1 hrest
    exact forall_mem_cons.2 ⟨hfirst, forall_mem_cons.2 ⟨hsecond, hrest⟩⟩
  have hblocks : Blocks base h' (l ++ q :: ⟨p.start, HEADER * m⟩ :: r)
      (⟨p.start + HEADER * m, HEADER * n⟩ :: live) := {
    head := by
      have hhead := hl.head
      rw [List.head?_append] at hhead ⊢
      exact hhead
    sorted := hsorted
    sized := by
      intro u hu
      have hcases : u = ⟨p.start, HEADER * m⟩ ∨ u = ⟨p.start + HEADER * m, HEADER * n⟩ ∨
          u ∈ l ++ q :: r ++ live := by
        simp only [mem_append, mem_cons] at hu ⊢
        tauto
      rcases hcases with rfl | rfl | hu
      · rw [hkept]
      · rw [hsize, update_self]
      · exact hothers u hu
    pos_ring := by
      intro u hu hbase
      have hcases : u = ⟨p.start, HEADER * m⟩ ∨ u ∈ l ++ q :: p :: r := by
        simp only [mem_append, mem_cons] at hu ⊢
        tauto
      cases hcases with
      | inl heq => exact heq ▸ hmpos
      | inr hu => exact hl.pos_ring u hu hbase
    pos_live := forall_mem_cons.2 ⟨hnpos, hl.pos_live⟩
    tiles := hranges ▸ htiles
    above := hranges ▸ hl.above
    small := hranges ▸ hl.small }
  refine ⟨hblocks, ?_, ?_⟩
  · have hcircle := hl.circle
    rw [map_append, map_cons, map_cons] at hcircle ⊢
    exact hptr ▸ hcircle
  · exact hfreep ▸ mem_map_of_mem (mem_append_right l mem_cons_self)

variable {a : ℕ}

/-- A block that is large enough, and not the one it is found from, is taken or cut. -/
theorem take_spec (hl : Listed base h ring live) {n : ℕ} (ha : a ∈ ring.map start) (hn : 0 < n)
    (hfit : n ≤ h.size (h.ptr a)) :
    ∃ t ring', (h.take n a (h.ptr a)).2 = t.start + HEADER ∧ t.length = HEADER * n ∧
      Listed base (h.take n a (h.ptr a)).1 ring' (t :: live) := by
  obtain ⟨q, hq, rfl⟩ := mem_map.1 ha
  obtain ⟨l, r, rfl⟩ := append_of_mem hq
  have hptr := ptr_eq hl.circle
  have hlt : ∀ t ∈ l ++ q :: r, h.size t.start < UINT32 := by
    intro t ht
    have hle := hl.tiles.length_le (mem_append_left live ht)
    have hsize := hl.sized t (mem_append_left live ht)
    have hsmall := hl.small
    change t.length = 16 * _ at hsize
    change _ < 2 ^ 35 at hsmall
    change _ < 2 ^ 32
    omega
  cases r with
  | nil =>
    -- the next block is `base`, which has no bytes
    obtain ⟨free, hring⟩ := hl.ring_eq
    have hbase : (⟨base, 0⟩ : Span) ∈ (l ++ [q]) ++ live := mem_append_left live (hring ▸ mem_cons_self)
    have hsize : 0 = 16 * h.size base := hl.sized _ hbase
    rw [hptr, map_nil, headD_nil] at hfit
    omega
  | cons p r =>
    have hp : h.ptr q.start = p.start := hptr
    have hmem : p ∈ l ++ q :: p :: r := mem_append_right l (mem_cons_of_mem q mem_cons_self)
    have hlen := hl.sized p (mem_append_left live hmem)
    rw [hp] at hfit ⊢
    rw [Heap.take]
    split
    next heq =>
      rw [heq] at hlen
      exact ⟨p, l ++ q :: r, rfl, hlen, hl.unlink (hlen ▸ Nat.mul_pos (by decide) hn)⟩
    next hne =>
      have hmod : (h.size p.start + UINT32 - n) % UINT32 = h.size p.start - n := by
        have := hlt p hmem
        rw [Nat.sub_add_comm hfit, Nat.add_mod_right, Nat.mod_eq_of_lt]
        exact (Nat.sub_le _ _).trans_lt this
      have hsize : (h.setSize p.start ((h.size p.start + UINT32 - n) % UINT32)).size p.start =
          h.size p.start - n := by
        rw [size_setSize, update_self, hmod]
      refine ⟨⟨p.start + HEADER * (h.size p.start - n), HEADER * n⟩, _, ?_, rfl,
        hl.cut (m := h.size p.start - n) (n := n) (by omega) hn (by omega) ?_ ?_ rfl rfl⟩
      · change p.start + HEADER * size _ _ + HEADER = _
        rw [hsize]
      · change (setSize _ _ _).size = _
        rw [size_setSize, hsize, size_setSize, hmod]
      · change (setSize _ _ _).ptr = _
        rw [ptr_setSize, ptr_setSize]

/-- The environment of the allocator: `sbrk` answers with memory above the static data and above all that
it has granted, and does not grant more than the limit. -/
def Fresh (base : ℕ) (sbrk : Sbrk) : Prop :=
  ∀ ranges k a, sbrk ranges k = some a →
    base + HEADER ≤ a ∧ (∀ r ∈ ranges, r.stop ≤ a) ∧ total ranges + k < LIMIT

/-- All blocks start below an address that is above `base` and the granted ranges. -/
theorem Blocks.start_lt_above (hb : Blocks base h ring live) (hbase : base < a)
    (habove : ∀ r ∈ h.ranges, r.stop ≤ a) {u : Span} (hu : u ∈ ring ++ live) : u.start < a := by
  have hpos : 0 < u.length → u.start < a := by
    intro hpos
    obtain ⟨r, hr, hin⟩ := (hb.tiles.covers u.start).1 ⟨u, hu, start_mem hpos⟩
    exact hin.2.trans_le (habove r hr)
  cases mem_append.1 hu with
  | inl hring =>
    cases hb.eq_or_pos hring with
    | inl heq => exact heq ▸ hbase
    | inr h => exact hpos h.2
  | inr hlive => exact hpos (hb.pos_live u hlive)

/-- New memory is a block outside the list. -/
theorem Listed.grow (hl : Listed base h ring live) {sbrk : Sbrk} (hsbrk : Fresh base sbrk) {n : ℕ}
    (hn : 0 < n) (ha : sbrk h.ranges (n * HEADER) = some a) :
    Listed base (setSize { h with ranges := ⟨a, n * HEADER⟩ :: h.ranges } a n) ring
      (⟨a, n * HEADER⟩ :: live) := by
  obtain ⟨hbase, habove, hsmall⟩ := hsbrk _ _ _ ha
  have hlt : base < a := (Nat.lt_add_of_pos_right (by decide)).trans_le hbase
  have hblocks : Blocks base (setSize { h with ranges := ⟨a, n * HEADER⟩ :: h.ranges } a n) ring
      (⟨a, n * HEADER⟩ :: live) := {
    head := hl.head
    sorted := hl.sorted
    sized := by
      intro u hu
      rw [size_setSize]
      cases mem_cons.1 (perm_middle.mem_iff.1 hu) with
      | inl heq => rw [heq, update_self, mul_comm]
      | inr hu =>
        rw [update_of_ne (hl.start_lt_above hlt habove hu).ne]
        exact hl.sized u hu
    pos_ring := hl.pos_ring
    pos_live := forall_mem_cons.2 ⟨Nat.mul_pos hn (by decide), hl.pos_live⟩
    tiles := (hl.tiles.grow habove).perm perm_middle.symm
    above := forall_mem_cons.2 ⟨hbase, hl.above⟩
    small := by
      change total (⟨a, n * HEADER⟩ :: h.ranges) < LIMIT
      rw [total_cons, add_comm]
      exact hsmall }
  refine ⟨hblocks, ?_, hl.freep⟩
  rw [ptr_setSize]
  exact hl.circle

/-- The argument of `sbrk` is the size of the block up to `2 ^ 27` headers. -/
theorem asked_eq_iff {n : ℕ} : asked n = (n * HEADER : ℕ) ↔ n < 2 ^ 27 := by
  change (BitVec.ofNat 32 (n * 16)).toInt = (n * 16 : ℕ) ↔ _
  rw [BitVec.toInt_eq_toNat_cond, BitVec.toNat_ofNat]
  split <;> omega

/-- `morecore` answers with a null pointer, or puts a block of at least the wanted size into the list. -/
theorem morecore_spec (hl : Listed base h ring live) {sbrk : Sbrk} (hsbrk : Fresh base sbrk) {n : ℕ}
    (hn : n < 2 ^ 27) :
    (∀ fuel, h.morecore sbrk fuel n = some (h, 0)) ∨
      ∃ h' ring', (∀ fuel, ring.length ≤ fuel → h.morecore sbrk fuel n = some (h', h'.freep)) ∧
        Listed base h' ring' live ∧ ∃ u ∈ ring', HEADER * n ≤ u.length := by
  have hunits : 0 < moreUnits n ∧ n ≤ moreUnits n ∧ moreUnits n < 2 ^ 27 := by
    rw [moreUnits]
    split <;> omega
  have hmod : moreUnits n * HEADER % UINT32 = moreUnits n * HEADER := by
    apply mod_eq_of_lt
    change _ * 16 < 2 ^ 32
    omega
  cases hs : sbrk h.ranges (moreUnits n * HEADER) with
  | none =>
    refine .inl fun fuel => ?_
    simp only [morecore, hmod, hs]
  | some a =>
    obtain ⟨h', hfree, ring', hlisted, u, hu, hlen⟩ := free_spec (hl.grow hsbrk hunits.1 hs)
    refine .inr ⟨h', ring', fun fuel hfuel => ?_, hlisted, u, hu, ?_⟩
    · have hfree := hfree fuel hfuel
      simp only [morecore, hmod, hs, asked_eq_iff.2 hunits.2.2, Int.toNat_natCast]
      change Option.bind _ _ = _
      rw [hfree]
      rfl
    · rw [mul_comm]
      exact (mul_le_mul_right HEADER hunits.2.1).trans hlen

/-- The way of `malloc` around the list ends at a block that is large enough, or at `freep`. -/
theorem mallocLoop_scan {sbrk : Sbrk} {n : ℕ} {h : Heap} {l : List ℕ}
    (hchain : Chain h.ptr (a :: l) h.freep) (hfreep : h.freep ∉ l) :
    (∃ b ∈ a :: l, n ≤ h.size (h.ptr b) ∧ ∀ limit fuel, l.length < fuel →
        mallocLoop sbrk limit n fuel h a (h.ptr a) = some (h.take n b (h.ptr b))) ∨
      (∀ b ∈ l ++ [h.freep], h.size b < n) ∧ ∀ limit fuel,
        mallocLoop sbrk limit n (fuel + l.length + 1) h a (h.ptr a) =
          (h.morecore sbrk limit n).bind fun (h, p) =>
            if p = 0 then some (h, 0) else mallocLoop sbrk limit n fuel h p (h.ptr p) := by
  induction l generalizing a with
  | nil =>
    have hptr : h.ptr a = h.freep := hchain.1
    by_cases hfit : n ≤ h.size (h.ptr a)
    · refine .inl ⟨a, mem_cons_self, hfit, fun limit fuel hfuel => ?_⟩
      obtain ⟨k, rfl⟩ : ∃ k, fuel = k + 1 := ⟨fuel - 1, by omega⟩
      rw [mallocLoop, if_pos hfit]
    · refine .inr ⟨?_, fun limit fuel => ?_⟩
      · intro b hb
        rw [mem_singleton.1 hb, ← hptr]
        exact not_le.1 hfit
      · rw [length_nil, add_zero, mallocLoop, if_neg hfit, if_pos hptr]
        cases h.morecore sbrk limit n <;> rfl
  | cons c l ih =>
    have hptr : h.ptr a = c := hchain.1
    have hc : c ≠ h.freep := fun heq => hfreep (heq ▸ mem_cons_self)
    by_cases hfit : n ≤ h.size (h.ptr a)
    · refine .inl ⟨a, mem_cons_self, hfit, fun limit fuel hfuel => ?_⟩
      obtain ⟨k, rfl⟩ : ∃ k, fuel = k + 1 := ⟨fuel - 1, by omega⟩
      rw [mallocLoop, if_pos hfit]
    · have hstep : ∀ limit k, mallocLoop sbrk limit n (k + 1) h a (h.ptr a) =
          mallocLoop sbrk limit n k h c (h.ptr c) := by
        intro limit k
        rw [mallocLoop, if_neg hfit, if_neg (hptr ▸ hc), hptr]
      cases ih hchain.2 (fun hmem => hfreep (mem_cons_of_mem c hmem)) with
      | inl hfound =>
        obtain ⟨b, hb, hsize, hloop⟩ := hfound
        refine .inl ⟨b, mem_cons_of_mem a hb, hsize, fun limit fuel hfuel => ?_⟩
        obtain ⟨k, rfl⟩ : ∃ k, fuel = k + 1 := ⟨fuel - 1, by omega⟩
        rw [hstep]
        exact hloop limit k (lt_of_succ_lt_succ hfuel)
      | inr hnone =>
        obtain ⟨hsmall, hloop⟩ := hnone
        refine .inr ⟨forall_mem_cons.2 ⟨hptr ▸ not_le.1 hfit, hsmall⟩, fun limit fuel => ?_⟩
        rw [hstep, length_cons]
        exact hloop limit fuel

/-- The list read from `freep` on. -/
theorem Listed.around (hl : Listed base h ring live) :
    ∃ l, Chain h.ptr (h.freep :: l) h.freep ∧ h.freep ∉ l ∧ (h.freep :: l).Perm (ring.map start) := by
  obtain ⟨free, hring⟩ := hl.ring_eq
  have hcircle := hl.circle
  have hfreep := hl.freep
  have hnodup : (ring.map start).Nodup := pairwise_map.2 (hl.start_lt.imp ne_of_lt)
  rw [hring, map_cons] at hcircle hfreep hnodup ⊢
  obtain ⟨l, hchain, hperm⟩ := hcircle.rotate hfreep
  exact ⟨l, hchain, (nodup_cons.1 (hperm.nodup_iff.2 hnodup)).1, hperm⟩

section Loop

variable {sbrk : Sbrk} {n : ℕ}

/-- With a block that is large enough in the list, the loop of `malloc` takes one. -/
theorem mallocLoop_fits (hl : Listed base h ring live) (hn : 0 < n) (hfit : ∃ u ∈ ring, HEADER * n ≤ u.length) :
    ∃ t ring' h', t.length = HEADER * n ∧ Listed base h' ring' (t :: live) ∧
      ∀ limit fuel, ring.length ≤ fuel →
        mallocLoop sbrk limit n fuel h h.freep (h.ptr h.freep) = some (h', t.start + HEADER) := by
  obtain ⟨l, hchain, hfreep, hperm⟩ := hl.around
  have hlen : l.length + 1 = ring.length := by
    rw [← length_map start, ← hperm.length_eq, length_cons]
  cases mallocLoop_scan hchain hfreep with
  | inl hfound =>
    obtain ⟨b, hb, hsize, hloop⟩ := hfound
    obtain ⟨t, ring', hres, htlen, hlisted⟩ := take_spec hl (hperm.mem_iff.1 hb) hn hsize
    refine ⟨t, ring', _, htlen, hlisted, fun limit fuel hfuel => ?_⟩
    rw [hloop limit fuel (by omega), ← hres]
  | inr hnone =>
    obtain ⟨u, hu, hle⟩ := hfit
    have hmem : u.start ∈ l ++ [h.freep] := by
      have := hperm.mem_iff.2 (mem_map_of_mem hu)
      rw [mem_append, mem_singleton]
      exact (mem_cons.1 this).symm
    have hlt := hnone.1 u.start hmem
    have hsize := hl.sized u (mem_append_left live hu)
    change u.length = 16 * _ at hsize
    change 16 * n ≤ _ at hle
    omega

/-- The loop of `malloc` fails without a change, or takes a block of the right size. -/
theorem mallocLoop_spec (hbase : 0 < base) (hl : Listed base h ring live) (hsbrk : Fresh base sbrk)
    (hn : 0 < n) (hlt : n < 2 ^ 27) :
    ∃ h' a, Settles (fun fuel => mallocLoop sbrk fuel n fuel h h.freep (h.ptr h.freep)) (some (h', a)) ∧
      (a = 0 ∧ h' = h ∨
        ∃ t ring', a = t.start + HEADER ∧ t.length = HEADER * n ∧ Listed base h' ring' (t :: live)) := by
  obtain ⟨l, hchain, hfreep, hperm⟩ := hl.around
  cases mallocLoop_scan hchain hfreep with
  | inl hfound =>
    obtain ⟨b, hb, hsize, hloop⟩ := hfound
    obtain ⟨t, ring', hres, htlen, hlisted⟩ := take_spec hl (hperm.mem_iff.1 hb) hn hsize
    refine ⟨_, _, settles_of_le (l.length + 1) fun fuel hfuel => hloop fuel fuel hfuel,
      .inr ⟨t, ring', hres, htlen, hlisted⟩⟩
  | inr hnone =>
    obtain ⟨-, hloop⟩ := hnone
    cases morecore_spec hl hsbrk hlt with
    | inl hfail =>
      refine ⟨h, 0, settles_of_le (l.length + 1) fun fuel hfuel => ?_, .inl ⟨rfl, rfl⟩⟩
      obtain ⟨k, rfl⟩ : ∃ k, fuel = k + l.length + 1 := ⟨fuel - (l.length + 1), by omega⟩
      rw [hloop, hfail, Option.bind_some]
      rfl
    | inr hmore =>
      obtain ⟨h', ring', hcore, hlisted, hfit⟩ := hmore
      obtain ⟨t, ring'', h'', htlen, hlisted'', hagain⟩ := mallocLoop_fits hlisted hn hfit
      have hne : h'.freep ≠ 0 := by
        obtain ⟨u, hu, heq⟩ := mem_map.1 hlisted.freep
        exact heq ▸ (hbase.trans_le (hlisted.base_le hu)).ne'
      refine ⟨h'', t.start + HEADER, settles_of_le (ring.length + ring'.length + l.length + 1) fun fuel hfuel => ?_,
        .inr ⟨t, ring'', rfl, htlen, hlisted''⟩⟩
      obtain ⟨k, rfl⟩ : ∃ k, fuel = k + l.length + 1 := ⟨fuel - (l.length + 1), by omega⟩
      rw [hloop, hcore _ (by omega), Option.bind_some]
      change (if h'.freep = 0 then _ else _) = _
      rw [if_neg hne, hagain _ _ (by omega)]

end Loop

end Xv6.Heap
