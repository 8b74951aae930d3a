import Mathlib.Data.Fintype.Card
import Mathlib.Data.List.FinRange
import Xv6.Bio.Cache
import Xv6.Library.Circle

/-!
# The list of buffers

The pointers of `bio.c`: `bcache.head` and the buffers form a circle both ways, from the buffer that was
released last to the one that was released first. Each operation is what it does under `bcache.lock`. The
sleep-locks are left out, so that any buffer may be released, pinned and unpinned at any time. The buffer cache
over which the log is modelled, whose order is a list, does the same.
-/

namespace Xv6.Bio.Lru

open Function Library List

/-- The fields of `struct buf` that the list depends on. -/
structure Buf where
  valid : Bool
  dev : BitVec 32
  blockno : BitVec 32
  refcnt : UInt32

/-- `bcache`, where no buffer stands for `&bcache.head`. -/
structure Bcache where
  buf : Fin NBUF → Buf
  next : Option (Fin NBUF) → Option (Fin NBUF)
  prev : Option (Fin NBUF) → Option (Fin NBUF)

/-- The operations of `bio.c` that change `bcache`. -/
inductive Op
  | bget (dev blockno : BitVec 32)
  | brelse (b : Fin NBUF)
  | bpin (b : Fin NBUF)
  | bunpin (b : Fin NBUF)

namespace Bcache

/-- The assignments that put a buffer behind the head. -/
def link (s : Bcache) (b : Fin NBUF) : Bcache :=
  let next := update s.next (some b) (s.next none)
  let prev := update s.prev (some b) none
  { s with
    prev := update prev (next none) (some b)
    next := update next none (some b) }

/-- The assignments that take a buffer out. -/
def unlink (s : Bcache) (b : Fin NBUF) : Bcache :=
  let prev := update s.prev (s.next (some b)) (s.prev (some b))
  { s with prev, next := update s.next (prev (some b)) (s.next (some b)) }

/-- `binit`. -/
def binit (s : Bcache) : Bcache :=
  (List.finRange NBUF).foldl link { s with prev := update s.prev none none, next := update s.next none none }

/-- Change one buffer. -/
def modify (s : Bcache) (b : Fin NBUF) (f : Buf → Buf) : Bcache :=
  { s with buf := update s.buf b (f (s.buf b)) }

/-- A loop from the head along pointers, up to a buffer or the head. -/
def search (follow : Option (Fin NBUF) → Option (Fin NBUF)) (test : Fin NBUF → Bool) : Option (Fin NBUF) :=
  (seek (·.elim true test) follow (NBUF + 1) (follow none)).join

/-- `bget`, without a result if it panics. -/
def bget (s : Bcache) (dev blockno : BitVec 32) : Option (Fin NBUF × Bcache) :=
  match search s.next fun b => (s.buf b).dev = dev ∧ (s.buf b).blockno = blockno with
  | some b => some (b, s.modify b fun buf => { buf with refcnt := buf.refcnt + 1 })
  | none =>
    match search s.prev fun b => (s.buf b).refcnt = 0 with
    | some b => some (b, s.modify b fun _ => ⟨false, dev, blockno, 1⟩)
    | none => none

/-- `brelse`. -/
def brelse (s : Bcache) (b : Fin NBUF) : Bcache :=
  let s := s.modify b fun buf => { buf with refcnt := buf.refcnt - 1 }
  if (s.buf b).refcnt = 0 then (s.unlink b).link b else s

/-- An operation. -/
def exec (s : Bcache) : Op → Option Bcache
  | .bget dev blockno => (s.bget dev blockno).map Prod.snd
  | .brelse b => some (s.brelse b)
  | .bpin b => some (s.modify b fun buf => { buf with refcnt := buf.refcnt + 1 })
  | .bunpin b => some (s.modify b fun buf => { buf with refcnt := buf.refcnt - 1 })

/-- The buffer that an operation releases for good: `brelse` takes its last reference. -/
def finalRelease (s : Bcache) : Op → Option (Fin NBUF)
  | .brelse b => if (s.buf b).refcnt = 1 then some b else none
  | _ => none

/-- An operation, with the buffer that it releases for good. -/
def Step (s : Bcache) (e : Op × Option (Fin NBUF)) (t : Bcache) : Prop :=
  s.exec e.1 = some t ∧ e.2 = s.finalRelease e.1

end Bcache

/-- The final releases of a run, the last one first. A buffer that was never released comes in its turn of
`binit`. -/
def history (events : List (Op × Option (Fin NBUF))) : List (Fin NBUF) :=
  (events.filterMap Prod.snd).reverse ++ (List.finRange NBUF).reverse

/-- How many final releases lie between now and the last one of a buffer. -/
def age (events : List (Op × Option (Fin NBUF))) (b : Fin NBUF) : ℕ := (history events).idxOf b

theorem history_snoc (events : List (Op × Option (Fin NBUF))) (e : Op × Option (Fin NBUF)) :
    history (events ++ [e]) = e.2.toList ++ history events := by
  rw [history, history, filterMap_append, reverse_append, append_assoc]
  cases h : e.2 <;> simp [h]

section Linked

variable {s : Bcache} {l r nodes : List (Option (Fin NBUF))} {b : Fin NBUF}

/-- The head and a list of nodes form a circle both ways. -/
structure Linked (s : Bcache) (nodes : List (Option (Fin NBUF))) : Prop where
  next : Chain s.next (none :: nodes) none
  prev : Chain s.prev (none :: nodes.reverse) none
  nodup : (none :: nodes).Nodup

theorem Linked.link (h : Linked s nodes) (hb : some b ∉ nodes) : Linked (s.link b) (some b :: nodes) := by
  have hnone : update s.next (some b) (s.next none) none = nodes.headD none :=
    (update_of_ne (Option.some_ne_none b).symm ..).trans h.next.1
  have hold : Chain s.prev (none :: (nodes.reverse ++ [])) none := by
    rw [append_nil]
    exact h.prev
  have hnext := Chain.insert (l := []) h.next h.nodup (b := some b) (by simpa using hb)
  have hprev := hold.insert (by simpa using h.nodup) (b := some b) (by simpa using hb)
  rw [reverse_reverse, ← hnone, ← reverse_cons] at hprev
  refine ⟨?_, hprev, ?_⟩
  · rwa [← h.next.1] at hnext
  · have hnodup := h.nodup
    rw [nodup_cons] at hnodup
    simp [hnodup, hb]

theorem Linked.unlink (h : Linked s (l ++ some b :: r)) : Linked (s.unlink b) (l ++ r) := by
  obtain ⟨hnext, hprev, hnodup⟩ := h
  rw [reverse_append, reverse_cons, append_assoc, singleton_append] at hprev
  rw [← cons_append, nodup_middle, nodup_cons, cons_append] at hnodup
  have hbehind : s.next (some b) = r.headD none := Chain.next_eq (l := none :: l) hnext
  have hbefore : s.prev (some b) = l.reverse.headD none := Chain.next_eq (l := none :: r.reverse) hprev
  have hother : update s.prev (s.next (some b)) (s.prev (some b)) (some b) = l.reverse.headD none := by
    rw [update_of_ne, hbefore]
    rw [hbehind]
    cases r <;> simp_all
  have hback : (none :: (r.reverse ++ l.reverse)).Nodup := by
    rw [← reverse_append, nodup_cons, mem_reverse, nodup_reverse, ← nodup_cons]
    exact hnodup.2
  have hprev' := hprev.remove hback
  rw [reverse_reverse, ← hbehind, ← hbefore, ← reverse_append] at hprev'
  refine ⟨?_, hprev', hnodup.2⟩
  change Chain (update s.next (update s.prev (s.next (some b)) (s.prev (some b)) (some b)) (s.next (some b))) _ none
  rw [hother, hbehind]
  exact hnext.remove hnodup.2

/-- A search along a circle of buffers. -/
theorem search_eq {follow : Option (Fin NBUF) → Option (Fin NBUF)} {l : List (Fin NBUF)} (hl : l.Nodup)
    (h : Chain follow (none :: l.map some) none) (test : Fin NBUF → Bool) :
    Bcache.search follow test = l.find? test := by
  have hlength : l.length ≤ NBUF := by simpa using hl.length_le_card
  rw [Bcache.search, h.1, Chain.seek_find h.2 rfl (by rw [length_map]; omega), List.find?_map]
  change Option.join (some (Option.map some (l.find? test) |>.getD none)) = _
  cases l.find? test <;> rfl

end Linked

section Ordered

variable {s : Bcache} {l r past : List (Fin NBUF)} {b : Fin NBUF}

/-- The buffers of a list are linked in the order of the past releases. -/
structure Ordered (s : Bcache) (past l : List (Fin NBUF)) : Prop extends Linked s (l.map some) where
  sorted : l.Pairwise fun a b => past.idxOf a < past.idxOf b

theorem Ordered.nodup_list (h : Ordered s past l) : l.Nodup := (nodup_cons.1 h.nodup).2.of_map

/-- A buffer goes in front of the list. -/
theorem Ordered.link (h : Ordered s past l) (hb : b ∉ l) : Ordered (s.link b) (b :: past) (b :: l) := by
  have hlater : ∀ a ∈ l, (b :: past).idxOf a = past.idxOf a + 1 := by
    intro a ha
    exact idxOf_cons_ne _ fun heq => hb (heq ▸ ha)
  refine ⟨h.toLinked.link (by simpa using hb), pairwise_cons.2 ⟨fun a ha => ?_, ?_⟩⟩
  · rw [idxOf_cons_self, hlater a ha]
    exact Nat.succ_pos _
  · refine h.sorted.imp_of_mem fun ha hb hlt => ?_
    rw [hlater _ ha, hlater _ hb]
    exact Nat.succ_lt_succ hlt

/-- A buffer leaves the list. -/
theorem Ordered.unlink (h : Ordered s past (l ++ b :: r)) : Ordered (s.unlink b) past (l ++ r) := by
  have hlinked := h.toLinked
  rw [map_append, map_cons] at hlinked
  have hlinked' := hlinked.unlink
  rw [← map_append] at hlinked'
  exact ⟨hlinked', h.sorted.sublist ((sublist_cons_self b r).append_left l)⟩

theorem Ordered.modify (h : Ordered s past l) (f : Buf → Buf) : Ordered (s.modify b f) past l :=
  ⟨⟨h.next, h.prev, h.nodup⟩, h.sorted⟩

/-- After `binit` every buffer is in the list. -/
theorem ordered_binit (s : Bcache) : Ordered s.binit (history []) (List.finRange NBUF).reverse := by
  have hloop : ∀ (todo l : List (Fin NBUF)) (s : Bcache), Ordered s l l → (todo ++ l).Nodup →
      Ordered (todo.foldl Bcache.link s) (todo.reverse ++ l) (todo.reverse ++ l) := by
    intro todo
    induction todo with
    | nil => exact fun l s h _ => h
    | cons b todo ih =>
      intro l s h hnodup
      rw [cons_append, ← nodup_middle] at hnodup
      have hb : b ∉ l := (nodup_cons.1 (nodup_append.1 hnodup).2.1).1
      simpa using ih (b :: l) (s.link b) (h.link hb) hnodup
  have hempty : Ordered { s with prev := update s.prev none none, next := update s.next none none } [] [] :=
    ⟨⟨⟨update_self none none s.next, trivial⟩, ⟨update_self none none s.prev, trivial⟩, nodup_singleton none⟩, .nil⟩
  simpa [Bcache.binit, history] using hloop (List.finRange NBUF) [] _ hempty (by simpa using nodup_finRange NBUF)

/-- Every operation keeps all buffers in the list. -/
theorem Ordered.exec {t : Bcache} {op : Op} (h : Ordered s past l) (hall : ∀ b, b ∈ l) (hop : s.exec op = some t) :
    ∃ l, Ordered t ((s.finalRelease op).toList ++ past) l ∧ ∀ b, b ∈ l := by
  cases op with
  | bget dev blockno =>
    obtain ⟨⟨b, t'⟩, hget, ht⟩ := Option.map_eq_some_iff.1 hop
    obtain rfl : t' = t := ht
    rw [Bcache.bget] at hget
    split at hget
    · cases hget
      exact ⟨l, h.modify _, hall⟩
    · split at hget <;> cases hget
      exact ⟨l, h.modify _, hall⟩
  | brelse b =>
    cases hop
    have hcount := h.modify (b := b) fun buf => { buf with refcnt := buf.refcnt - 1 }
    have hzero : ((s.modify b fun buf => { buf with refcnt := buf.refcnt - 1 }).buf b).refcnt = 0 ↔
        (s.buf b).refcnt = 1 := by
      simp only [Bcache.modify, update_self]
      refine ⟨fun h => ?_, fun h => by rw [h]; rfl⟩
      rw [← UInt32.sub_add_cancel (s.buf b).refcnt 1, h, UInt32.zero_add]
    rw [Bcache.brelse, Bcache.finalRelease]
    simp only [hzero]
    split
    · obtain ⟨m, r, rfl⟩ := append_of_mem (hall b)
      have hb : b ∉ m ++ r := (nodup_cons.1 (nodup_middle.1 h.nodup_list)).1
      refine ⟨b :: (m ++ r), hcount.unlink.link hb, fun a => ?_⟩
      have ha := hall a
      simp only [mem_append, mem_cons] at ha ⊢
      tauto
    · exact ⟨l, hcount, hall⟩
  | bpin | bunpin =>
    cases hop
    exact ⟨l, h.modify _, hall⟩

/-- In every run from `binit` on, the head and the buffers form a circle both ways, the buffers without
references are in the order of their final releases, and `bget` of a block that is not cached takes the one of
them whose final release is the oldest. -/
theorem lru_run (events : List (Op × Option (Fin NBUF))) (t : Bcache) (hrun : Run Bcache.Step s.binit events t) :
    ∃ l : List (Fin NBUF), Chain t.next (none :: l.map some) none ∧
      Chain t.prev (none :: (l.map some).reverse) none ∧ l.Nodup ∧ (∀ b, b ∈ l) ∧
      (l.filter fun b => (t.buf b).refcnt = 0).Pairwise (fun a b => age events a < age events b) ∧
      ∀ dev blockno, (∀ b, ¬ ((t.buf b).dev = dev ∧ (t.buf b).blockno = blockno)) →
        match t.bget dev blockno with
        | some (b, t') => (t.buf b).refcnt = 0 ∧ t'.buf b = ⟨false, dev, blockno, 1⟩ ∧
            ∀ a, (t.buf a).refcnt = 0 → age events a ≤ age events b
        | none => ∀ a, (t.buf a).refcnt ≠ 0 := by
  have hstart : ∃ l, Ordered s.binit (history []) l ∧ ∀ b, b ∈ l := ⟨_, ordered_binit s, by simp⟩
  obtain ⟨l, h, hall⟩ := hrun.history (fun events s => ∃ l, Ordered s (history events) l ∧ ∀ b, b ∈ l) hstart
    fun events s e t ⟨l, h, hall⟩ hstep => by
      rw [history_snoc, hstep.2]
      exact h.exec hall hstep.1
  refine ⟨l, h.next, h.prev, h.nodup_list, hall, h.sorted.filter _, fun dev blockno hnot => ?_⟩
  have hprev := h.prev
  rw [← map_reverse] at hprev
  have hcached : l.find? (fun b => (t.buf b).dev = dev ∧ (t.buf b).blockno = blockno) = none := by
    simpa [hall] using hnot
  rw [Bcache.bget, search_eq h.nodup_list h.next, hcached, search_eq (nodup_reverse.2 h.nodup_list) hprev]
  cases hfind : l.reverse.find? fun b => (t.buf b).refcnt = 0 with
  | none => simpa [hall] using hfind
  | some b =>
    obtain ⟨hzero, before, behind, hsplit, hbefore⟩ := List.find?_eq_some_iff_append.1 hfind
    have hsorted := h.sorted
    rw [← pairwise_reverse, hsplit, pairwise_append, pairwise_cons] at hsorted
    refine ⟨of_decide_eq_true hzero, update_self .., fun a ha => ?_⟩
    have hmem : a ∈ before ++ b :: behind := hsplit ▸ mem_reverse.2 (hall a)
    obtain hmem | rfl | hmem := mem_append.1 hmem |>.imp_right mem_cons.1
    · exact absurd ha (by simpa using hbefore a hmem)
    · exact le_rfl
    · exact (hsorted.2.1.1 a hmem).le

/-- A buffer is pinned and released for good, and then it is the youngest. -/
theorem lru_run_two : ∃ (s t : Bcache) (b : Fin NBUF),
    Run Bcache.Step s.binit [(.bpin b, none), (.brelse b, some b)] t ∧
      age [(.bpin b, none), (.brelse b, some b)] b = 0 ∧
      ∃ l : List (Fin NBUF), Chain t.next (none :: l.map some) none ∧ ∀ b, b ∈ l := by
  let s : Bcache := ⟨fun _ => ⟨false, 0, 0, 0⟩, fun _ => none, fun _ => none⟩
  let b : Fin NBUF := ⟨0, by decide⟩
  have hrun : Run Bcache.Step s.binit ([] ++ [(.bpin b, none)] ++ [(.brelse b, some b)]) _ :=
    (Run.nil.snoc ⟨rfl, rfl⟩).snoc ⟨rfl, by decide⟩
  obtain ⟨l, hnext, -, -, hall, -⟩ := lru_run _ _ hrun
  exact ⟨s, _, b, hrun, by decide, l, hnext, hall⟩

end Ordered

section Refinement

variable {P : Type*} {s : Bcache} {c : Bio.Bcache P} {b : Fin NBUF}

/-- The pointers show the cache whose order is a list. -/
structure Shows (s : Bcache) (c : Bio.Bcache P) : Prop extends Linked s (c.lru.map some) where
  all : ∀ b, b ∈ c.lru
  block : ∀ b dev blockno, (s.buf b).dev = dev ∧ (s.buf b).blockno = blockno ↔ (c.buf b).isFor dev blockno = true
  refcnt : ∀ b, (s.buf b).refcnt.toNat = (c.buf b).refcnt

theorem Shows.nodup_lru (h : Shows s c) : c.lru.Nodup := (nodup_cons.1 h.nodup).2.of_map

/-- A buffer is unreferenced on both levels. -/
theorem Shows.zero_iff (h : Shows s c) (b : Fin NBUF) : (s.buf b).refcnt = 0 ↔ (c.buf b).refcnt = 0 := by
  rw [← h.refcnt, ← UInt32.toNat_inj]
  rfl

/-- The same change of a buffer. -/
theorem Shows.modify (h : Shows s c) {f : Buf → Buf} {g : Bio.Buf P → Bio.Buf P}
    (hblock : ∀ dev blockno, (f (s.buf b)).dev = dev ∧ (f (s.buf b)).blockno = blockno ↔
      (g (c.buf b)).isFor dev blockno = true)
    (hrefcnt : (f (s.buf b)).refcnt.toNat = (g (c.buf b)).refcnt) : Shows (s.modify b f) (c.modifyBuf b g) := by
  refine ⟨⟨h.next, h.prev, h.nodup⟩, h.all, fun a => ?_, fun a => ?_⟩ <;>
    (by_cases ha : a = b
     · subst ha
       simpa [Bcache.modify, Bio.Bcache.modifyBuf] using by assumption
     · simpa [Bcache.modify, Bio.Bcache.modifyBuf, ha] using by first | exact h.block a | exact h.refcnt a)

/-- `bpin` does the same, as long as the count has room. -/
theorem Shows.bpin (h : Shows s c) (hroom : (c.buf b).refcnt + 1 < 2 ^ 32) :
    Shows (s.modify b fun buf => { buf with refcnt := buf.refcnt + 1 }) (c.bpin b) := by
  refine h.modify (h.block b) ?_
  change ((s.buf b).refcnt + 1).toNat = _
  rw [UInt32.toNat_add, h.refcnt]
  exact Nat.mod_eq_of_lt hroom

/-- `bunpin` does the same to a buffer with references. -/
theorem Shows.bunpin (h : Shows s c) (hpos : 0 < (c.buf b).refcnt) :
    Shows (s.modify b fun buf => { buf with refcnt := buf.refcnt - 1 }) (c.bunpin b) := by
  refine h.modify (h.block b) ?_
  change ((s.buf b).refcnt - 1).toNat = _
  have hle : 1 ≤ (s.buf b).refcnt := by
    rw [UInt32.le_iff_toNat_le, h.refcnt]
    exact hpos
  rw [UInt32.toNat_sub_of_le _ _ hle, h.refcnt]
  rfl

/-- `brelse` does the same to a buffer with references. -/
theorem Shows.brelse (h : Shows s c) (hpos : 0 < (c.buf b).refcnt) : Shows (s.brelse b) (c.put b) := by
  have hcount : Shows (s.modify b fun buf => { buf with refcnt := buf.refcnt - 1 }) (c.bunpin b) := h.bunpin hpos
  rw [Bcache.brelse, Bio.Bcache.put]
  simp only [hcount.zero_iff b]
  change Shows _ (if ((c.bunpin b).buf b).refcnt = 0 then _ else _)
  split
  · obtain ⟨m, r, hsplit⟩ := append_of_mem (hcount.all b)
    have hlinked := hcount.toLinked
    have hnodup := hcount.nodup_lru
    rw [hsplit] at hnodup
    rw [hsplit, map_append, map_cons] at hlinked
    have hb : b ∉ m ++ r := (nodup_cons.1 (nodup_middle.1 hnodup)).1
    have herase : (c.bunpin b).lru.erase b = m ++ r := by
      rw [hsplit, erase_append_right _ fun hm => hb (mem_append_left r hm), erase_cons_head]
    have hlinked' := hlinked.unlink
    rw [← map_append] at hlinked'
    have hput := hlinked'.link (by simpa using hb)
    refine ⟨?_, fun a => ?_, hcount.block, hcount.refcnt⟩
    · rw [show (c.modifyBuf b _).lru.erase b = m ++ r from herase]
      exact hput
    · by_cases ha : a = b
      · exact ha ▸ mem_cons_self
      · exact mem_cons_of_mem b ((mem_erase_of_ne ha).2 (h.all a))
  · exact hcount

/-- `bget` finds or recycles the same buffer, or panics on both levels. -/
theorem Shows.bget (h : Shows s c) (hroom : ∀ b, (c.buf b).refcnt + 1 < 2 ^ 32) (dev blockno : BitVec 32) :
    match s.bget dev blockno, c.bget dev blockno with
    | some (b, s'), .ok (b', c') => b = b' ∧ Shows s' c'
    | none, .error _ => True
    | _, _ => False := by
  have hfor : (fun b => decide ((s.buf b).dev = dev ∧ (s.buf b).blockno = blockno)) =
      fun b => (c.buf b).isFor dev blockno := by
    funext b
    rw [Bool.eq_iff_iff, decide_eq_true_eq, h.block]
  have hfree : (fun b => decide ((s.buf b).refcnt = 0)) = fun b => decide ((c.buf b).refcnt = 0) := by
    funext b
    rw [decide_eq_decide, h.zero_iff]
  have hprev := h.prev
  rw [← map_reverse] at hprev
  rw [Bcache.bget, Bio.Bcache.bget, search_eq h.nodup_lru h.next, search_eq (nodup_reverse.2 h.nodup_lru) hprev,
    hfor, hfree]
  cases hfind : c.lru.find? fun b => (c.buf b).isFor dev blockno with
  | some b => exact ⟨rfl, h.bpin (hroom b)⟩
  | none =>
    cases hold : c.lru.reverse.find? fun b => (c.buf b).refcnt = 0 with
    | none => trivial
    | some b => exact ⟨rfl, h.modify (by simp [Bio.Buf.isFor]) rfl⟩

end Refinement

end Xv6.Bio.Lru
