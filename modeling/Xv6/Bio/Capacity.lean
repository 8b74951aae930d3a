import Xv6.Bio.Operations

/-!
# Whether the cache is large enough for the log

`bget` panics when the block is not cached and every buffer is referenced. The references are the pins
of the log and the buffers that operations use, so there is a buffer as long as the logged blocks and
two buffers for each operation fit in the cache. The log has as many entries as the cache has buffers:
a transaction that fills the log pins them all, and its commit finds none for a block of the log.
-/

namespace Xv6.Bio

open Finset Function Library Log Option

/-- When `bget` panics: the block is not cached and every buffer is referenced. -/
theorem Bcache.bget_error_iff {P : Type*} {c : Bcache P} (hlisted : ∀ b, b ∈ c.lru) (dev n : BitVec 32) :
    c.bget dev n = .error .noBuffers ↔
      (∀ b, ¬ (c.buf b).isFor dev n) ∧ ∀ b, 0 < (c.buf b).refcnt := by
  unfold Bcache.bget
  split
  · next b hfind =>
    have hfor := List.find?_some hfind
    exact iff_of_false nofun fun h => h.1 b hfor
  · next hmiss =>
    have hmiss : ∀ b, ¬ (c.buf b).isFor dev n := fun b => List.find?_eq_none.1 hmiss b (hlisted b)
    split
    · next b hfree =>
      refine iff_of_false nofun fun h => ?_
      have hzero : (c.buf b).refcnt = 0 := by simpa using List.find?_some hfree
      exact (h.2 b).ne' hzero
    · next hnone =>
      refine iff_of_true rfl ⟨hmiss, fun b => Nat.pos_of_ne_zero fun hzero => ?_⟩
      have := List.find?_eq_none.1 hnone b (List.mem_reverse.2 (hlisted b))
      simp [hzero] at this

namespace CacheSystem

variable {P : Type*} [Fintype P] [DecidableEq P] {s : CacheSystem P}

/-- The references to a buffer are its uses by processes and the pin of its block. -/
theorem PoolInv.refcnt_pos_iff (h : PoolInv s) (b : Fin NBUF) :
    0 < (s.cache.buf b).refcnt ↔ b ∈ s.pinned ∨ ∃ p, b ∈ s.occupied p := by
  rw [h.counted b, refs, CacheSystem.pinned, mem_filter, and_iff_right (mem_univ b)]
  constructor
  · intro hpos
    by_cases hpin : (s.cache.buf b).dev = rootDev ∧ 0 < s.log.pins (s.blockno b).toNat
    · exact .inl hpin
    · right
      cases hholder : (s.cache.buf b).holder with
      | some p => exact ⟨p, mem_occupied.2 (.inl hholder)⟩
      | none =>
        have hzero : (if (s.cache.buf b).dev = rootDev then s.log.pins (s.blockno b).toNat else 0) = 0 := by
          split
          · next hdev => exact Nat.eq_zero_of_not_pos fun hp => hpin ⟨hdev, hp⟩
          · rfl
        rw [hholder, hzero] at hpos
        obtain ⟨p, -, hp⟩ := exists_ne_zero_of_sum_ne_zero (Nat.pos_iff_ne_zero.1 hpos)
        exact ⟨p, mem_occupied.2 (.inr (Nat.pos_of_ne_zero hp))⟩
  · rintro (⟨hdev, hpin⟩ | ⟨p, hp⟩)
    · rw [if_pos hdev]
      omega
    · obtain hp | hp := mem_occupied.1 hp
      · rw [hp]
        simp only [isSome_some, if_true]
        omega
      · have := single_le_sum (fun q _ => Nat.zero_le ((s.point q).refs b)) (mem_univ p)
        omega

end CacheSystem

namespace OpSystem

variable {P : Type*} [Fintype P] [DecidableEq P] {s : OpSystem P}

/-- The processes inside an operation or the commit. -/
def active (s : OpSystem P) : Finset P := Finset.univ.filter fun p => s.sys.logUse p ≠ .outside

/-- Only logged blocks are pinned. -/
theorem Inv.mem_entries_of_pinned (h : Inv s) {n : ℕ} (hn : 0 < s.sys.log.pins n) : n ∈ s.sys.log.lh.entries := by
  obtain ⟨disk, events, hcache⟩ := h.cache
  -- whichever entries a running commit has unpinned
  have hpinned : ∃ tail, s.sys.log.Pinned tail := by
    cases hcom : s.sys.log.committing with
    | false => exact ⟨0, hcache.log.idle hcom⟩
    | true =>
      obtain ⟨p, tail, hp⟩ := h.committer hcom
      exact ⟨tail, (hcache.log.commit p tail hp).2.2⟩
  obtain ⟨tail, hpinned⟩ := hpinned
  by_contra hnot
  rw [hpinned.pins, if_neg fun hmem => hnot (List.mem_of_mem_drop hmem)] at hn
  exact lt_irrefl 0 hn

/-- The log pins no more buffers than it has entries. -/
theorem Inv.card_pinned_le (h : Inv s) : s.sys.pinned.card ≤ s.sys.log.lh.count := by
  obtain ⟨disk, events, hcache⟩ := h.cache
  rw [← LogHeader.length_entries]
  refine le_trans ?_ (List.toFinset_card_le s.sys.log.lh.entries)
  refine card_le_card_of_injOn (fun b => (s.sys.blockno b).toNat) (fun b hb => ?_) fun b hb c hc hbc => ?_
  · rw [mem_coe, List.mem_toFinset]
    exact h.mem_entries_of_pinned (mem_filter.1 hb).2.2
  · exact hcache.pool.unique b c _ ⟨(mem_filter.1 hb).2.1, rfl⟩ ⟨(mem_filter.1 hc).2.1, hbc.symm⟩

/-- Together the operations use less than two buffers each, when one of them may take another. -/
theorem Inv.sum_occupied_lt (h : Inv s) {p : P} (hp : s.MayRead p) :
    ∑ q, (s.sys.occupied q).card < MAXOPBUFS * s.active.card := by
  have hmem : p ∈ s.active := mem_filter.2 ⟨mem_univ p, hp.1⟩
  have hactive : ∑ q, (s.sys.occupied q).card = ∑ q ∈ s.active, (s.sys.occupied q).card := by
    refine (sum_subset (subset_univ _) fun q _ hq => ?_).symm
    have hout : s.sys.logUse q = .outside := by
      by_contra hne
      exact hq (mem_filter.2 ⟨mem_univ q, hne⟩)
    rw [h.idle q hout, card_empty]
  rw [hactive, Nat.mul_comm, ← sum_const_nat (f := fun _ => MAXOPBUFS) fun _ _ => rfl]
  exact sum_lt_sum (fun q _ => h.few q) ⟨p, hmem, hp.2.2⟩

/-- **The cache and the log.** In every state that some interleaving of operations reaches, `bget`
panics exactly when the block is not cached and every buffer is pinned by the log or used by an
operation; and it does not panic for a process that may read while the logged blocks, and two buffers
for each process inside an operation or the commit, fit in the cache. -/
theorem bget_panic_iff (h : Reachable s) (n : BitVec 32) :
    (s.sys.cache.bget rootDev n = .error .noBuffers ↔
      (∀ b, ¬ (s.sys.cache.buf b).isFor rootDev n) ∧
        ∀ b, b ∈ s.sys.pinned ∨ ∃ p, b ∈ s.sys.occupied p) ∧
      ∀ p, s.MayRead p → s.sys.log.lh.n + MAXOPBUFS * s.active.card ≤ NBUF →
        s.sys.cache.bget rootDev n ≠ .error .noBuffers := by
  have hinv := Inv.of_reachable h
  obtain ⟨disk, events, hcache⟩ := hinv.cache
  have hpanic := Bcache.bget_error_iff hcache.pool.listed rootDev n
  simp only [hcache.pool.refcnt_pos_iff] at hpanic
  refine ⟨hpanic, fun p hp hfits herror => ?_⟩
  have hcover : (univ : Finset (Fin NBUF)) ⊆
      s.sys.pinned ∪ univ.biUnion s.sys.occupied := by
    intro b _
    rw [mem_union, mem_biUnion]
    exact ((hpanic.1 herror).2 b).imp id fun ⟨q, hq⟩ => ⟨q, mem_univ q, hq⟩
  have hcard := (card_le_card hcover).trans (card_union_le _ _)
  rw [card_univ, Fintype.card_fin] at hcard
  have hunion := card_biUnion_le (s := univ) (t := s.sys.occupied)
  have hlt := hinv.sum_occupied_lt hp
  have hpinned := hinv.card_pinned_le
  have hcount := LogHeader.count_cast hcache.log.nonneg
  omega

end OpSystem

section Execution

/-- What a process does next in the run below. -/
inductive Turn
  | beginOp
  | bread (n : BitVec 32)
  /-- Go on inside `bread` or `brelse`. -/
  | go
  | logWrite (b : Fin NBUF)
  | brelse (b : Fin NBUF)
  | endOp

variable {P : Type*} [DecidableEq P]

instance CacheSystem.decidableHolds (s : CacheSystem P) (p : P) (b : Fin NBUF) : Decidable (s.Holds p b) :=
  inferInstanceAs (Decidable (_ ∧ _))

/-- The next step of a process, if it can take it. -/
def CacheSystem.exec (s : CacheSystem P) : P × Turn → Option (BufEvent P × CacheSystem P)
  | (p, .beginOp) =>
    if s.logUse p = .outside then
      s.log.beginOp.map fun log => (.beginOp p, { s with log, logUse := update s.logUse p .inOp })
    else none
  | (p, .bread n) =>
    match s.cache.bget rootDev n with
    | .ok (b, cache) =>
      if s.point p = .running then
        some (.bget p, { s with cache, point := update s.point p (.waiting b n) })
      else none
    | .error _ => none
  | (p, .go) =>
    match s.point p with
    | .waiting b n =>
      if (s.cache.buf b).holder = none then
        some (.silent, { s with cache := s.cache.acquire p b, point := update s.point p (.reading b n) })
      else none
    | .reading b n =>
      some (.bread n ((s.cache.fill s.log.disk b).buf b).data,
        { s with cache := s.cache.fill s.log.disk b, point := update s.point p .running })
    | .releasing b => some (.silent, { s with cache := s.cache.put b, point := update s.point p .running })
    | .running => none
  | (p, .logWrite b) =>
    match s.log.logWrite (s.blockno b) with
    | .ok log =>
      if s.Holds p b then
        some (.logWrite p (s.blockno b),
          { s with
            cache := if (s.log.absorbIndex (s.blockno b) : ℤ) = s.log.lh.n
              then (s.cache.mark b .clean).bpin b else s.cache.mark b .clean
            log })
      else none
    | .error _ => none
  | (p, .brelse b) =>
    if s.Holds p b ∧ (s.cache.buf b).use ≠ .dirty then
      some (.silent, { s with cache := s.cache.unlock b, point := update s.point p (.releasing b) })
    else none
  | (p, .endOp) =>
    match s.log.endOp with
    | .ok (log, last) =>
      if s.logUse p = .inOp then
        some (.endOp p, { s with log, logUse := update s.logUse p (if last then .commit 0 else .outside) })
      else none
    | .error _ => none

/-- What is computed for a turn is a step. -/
theorem CacheSystem.exec_step {s t : CacheSystem P} {turn : P × Turn} {e : BufEvent P}
    (h : s.exec turn = some (e, t)) : Step s e t := by
  unfold exec at h
  split at h
  · obtain ⟨hp, h⟩ := ite_none_right_eq_some.1 h
    obtain ⟨log, hlog, ⟨⟩⟩ := map_eq_some_iff.1 h
    exact .beginOp s _ log hp hlog
  · split at h
    · next b cache hget =>
      obtain ⟨hp, ⟨⟩⟩ := ite_none_right_eq_some.1 h
      exact .bget s _ _ b cache hp hget
    · cases h
  · split at h
    · next b n hp =>
      obtain ⟨hfree, ⟨⟩⟩ := ite_none_right_eq_some.1 h
      exact .acquire s _ n b hp hfree
    · next b n hp =>
      cases h
      exact .bread s _ n b hp
    · next b hp =>
      cases h
      exact .put s _ b hp
    · cases h
  · split at h
    · next log hlog =>
      obtain ⟨hp, ⟨⟩⟩ := ite_none_right_eq_some.1 h
      exact .logWrite s _ _ log hp hlog
    · cases h
  · obtain ⟨⟨hp, hclean⟩, ⟨⟩⟩ := ite_none_right_eq_some.1 h
    exact .unlock s _ _ hp hclean
  · split at h
    · next log last hlog =>
      obtain ⟨huse, ⟨⟩⟩ := ite_none_right_eq_some.1 h
      cases last with
      | false => exact .endOp s _ log huse hlog
      | true => exact .endOpCommit s _ log huse hlog
    · cases h

namespace OpSystem

instance decidableMayRead (s : OpSystem P) (p : P) : Decidable (s.MayRead p) := inferInstanceAs (Decidable (_ ∧ _ ∧ _))

instance decidableAllows (s : OpSystem P) : (e : BufEvent P) → Decidable (s.Allows e)
  | .bget p => inferInstanceAs (Decidable (s.MayRead p))
  | .logWrite _ _ => inferInstanceAs (Decidable (_ ∧ _))
  | .endOp p => inferInstanceAs (Decidable (s.sys.occupied p = ∅))
  | .bread _ _ | .modify _ _ | .beginOp _ | .silent => isTrue trivial

/-- The state after the next step of a process, if file-system code takes it. -/
def exec (s : OpSystem P) (turn : P × Turn) : Option (OpSystem P) :=
  (s.sys.exec turn).bind fun (e, sys) => if s.Allows e then some { sys, logged := s.loggedAfter e } else none

/-- What is computed for a turn is a step of an operation. -/
theorem exec_step (s : OpSystem P) (turn : P × Turn) (t : OpSystem P) (h : s.exec turn = some t) : Step s t := by
  obtain ⟨⟨e, sys⟩, hexec, h⟩ := bind_eq_some_iff.1 h
  obtain ⟨hallows, ⟨⟩⟩ := ite_none_right_eq_some.1 h
  exact ⟨e, CacheSystem.exec_step hexec, hallows, rfl⟩

/-- Three operations log ten blocks each, from the hundredth on, and the last one starts the commit. -/
def fullTransaction : List (Fin 3 × Turn) :=
  (List.finRange 3).map (·, .beginOp) ++
    (List.finRange NBUF).flatMap (fun b : Fin NBUF =>
      [.bread (100 + BitVec.ofNat 32 b.val), .go, .go, .logWrite b, .brelse b, .go].map
        (Fin.ofNat 3 (b.val / MAXOPBLOCKS), ·)) ++
    (List.finRange 3).map (·, .endOp)

/-- Three operations that use their whole allowances leave the commit without a buffer: every buffer
is pinned, and the first block of the log is not cached. -/
theorem exists_full_cache : ∃ s : OpSystem (Fin 3), Reachable s ∧ s.MayRead 2 ∧
    s.sys.logUse 2 = .commit 0 ∧ ∀ b, ¬ (s.sys.cache.buf b).isFor rootDev 3 ∧ b ∈ s.sys.pinned := by
  have h : (fullTransaction.foldlM exec (OpSystem.init 2 fun _ _ => 0)).any (fun s => s.MayRead 2 ∧
      s.sys.logUse 2 = .commit 0 ∧ ∀ b, ¬ (s.sys.cache.buf b).isFor rootDev 3 ∧ b ∈ s.sys.pinned) = true := by
    decide +kernel
  obtain ⟨s, hexec, hs⟩ := (any_eq_true _ _).1 h
  exact ⟨s, ⟨2, _, reflTransGen_of_foldlM exec_step hexec⟩, of_decide_eq_true hs⟩

/-- The commit of a full transaction finds no buffer for the first block of the log. -/
theorem commit_without_buffers :
    ¬ ∀ s : OpSystem (Fin 3), Reachable s → ∀ p n, s.MayRead p →
      s.sys.cache.bget rootDev n ≠ .error .noBuffers := by
  intro hall
  obtain ⟨s, hs, hp, -, hfull⟩ := exists_full_cache
  obtain ⟨disk, events, hcache⟩ := (Inv.of_reachable hs).cache
  refine hall s hs 2 3 hp ((Bcache.bget_error_iff hcache.pool.listed rootDev 3).2 ⟨fun b => (hfull b).1, fun b => ?_⟩)
  exact (hcache.pool.refcnt_pos_iff b).2 (.inl (hfull b).2)

/-- The panic of `write_log` in the commit of a full transaction. -/
theorem bget_panic_iff_full : ∃ s : OpSystem (Fin 3), Reachable s ∧ s.sys.logUse 2 = .commit 0 ∧
    s.sys.cache.bget rootDev 3 = .error .noBuffers := by
  obtain ⟨s, hs, -, huse, hfull⟩ := exists_full_cache
  exact ⟨s, hs, huse, (bget_panic_iff hs 3).1.2 ⟨fun b => (hfull b).1, fun b => .inl (hfull b).2⟩⟩

end OpSystem

end Execution

end Xv6.Bio
