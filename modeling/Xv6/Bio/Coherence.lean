import Xv6.Bio.CacheSteps

/-!
# Coherence of the buffer cache

Every step of every process keeps the invariant of the pool, so in every interleaving a block has at
most one buffer, a buffer in use is not recycled, and `bread` returns what was last written.
-/

namespace Xv6.Bio

open Bcache Library Log

/-- The buffer still caches the block that it cached, and still contains it if it did. -/
def Bcache.Keeps {P : Type*} (c c' : Bcache P) (b : Fin NBUF) : Prop :=
  (c'.buf b).dev = (c.buf b).dev ∧ (c'.buf b).blockno = (c.buf b).blockno ∧
    ((c.buf b).valid = true → (c'.buf b).valid = true)

theorem Bcache.Keeps.refl {P : Type*} (c : Bcache P) (b : Fin NBUF) : c.Keeps c b := ⟨rfl, rfl, id⟩

/-- A change of one buffer that leaves its block alone. -/
theorem Bcache.Keeps.modifyBuf {P : Type*} {c c' : Bcache P} {x b : Fin NBUF} {f : Buf P → Buf P}
    (h : c' = c.modifyBuf x f)
    (hf : ∀ buf, (f buf).dev = buf.dev ∧ (f buf).blockno = buf.blockno ∧
      (buf.valid = true → (f buf).valid = true)) : c.Keeps c' b := by
  subst h
  by_cases hb : b = x
  · subst hb
    rw [Keeps, modifyBuf_self]
    exact hf _
  · rw [Keeps, modifyBuf_of_ne hb]
    exact ⟨rfl, rfl, id⟩

namespace CacheSystem

variable {P : Type*} {disk : Disk} {events : List (BufEvent P)} {e : BufEvent P}

theorem lastWritten_append (n : ℕ) :
    lastWritten disk (events ++ [e]) n = e.contents n (lastWritten disk events n) := by
  rw [lastWritten, List.foldl_append]
  rfl

variable [Fintype P] [DecidableEq P] {s s' : CacheSystem P}

/-- The invariant of the pool and of the log below it, after the given events from the given disk. -/
structure Inv (disk : Disk) (events : List (BufEvent P)) (s : CacheSystem P) : Prop where
  pool : PoolInv s
  log : LogUse.Inv s.log s.logUse
  latest : ∀ n, s.log.bread n = lastWritten disk events n

omit [DecidableEq P] in
/-- The invariant of the pool does not depend on the counters of the log. -/
theorem PoolInv.of_log (h : PoolInv s) {log : LogState} {use : P → LogUse}
    (hdisk : log.disk = s.log.disk) (hcache : log.cache = s.log.cache) (hpins : log.pins = s.log.pins) :
    PoolInv { s with log, logUse := use } := by
  have hbread := bread_congr ⟨hdisk, hcache⟩
  refine ⟨h.listed, h.unique, fun b => ?_, h.waiting, h.reading, h.releasing, h.held, h.used,
    fun b hb => ?_, fun b n hc hv => ?_, fun n => ?_, fun n hn => ?_⟩
  · change (s.cache.buf b).refcnt = ∑ p, (s.point p).refs b + _ +
      if (s.cache.buf b).dev = rootDev then log.pins (s.blockno b).toNat else 0
    rw [hpins]
    exact h.counted b
  · exact (congrFun hdisk _).trans (h.flushed b hb)
  · exact (h.contents b n hc hv).trans (hbread n).symm
  · change log.disk n = log.bread n ∨ 0 < log.pins n ∨ _
    rw [hdisk, hbread, hpins]
    exact h.stored n
  · rw [show log.pins n = s.log.pins n by rw [hpins]] at hn
    exact h.pinned n hn

omit [DecidableEq P] in
/-- The invariant holds before recovery. -/
theorem Inv.init (start : ℕ) (disk : Disk) : Inv disk [] (CacheSystem.init start disk : CacheSystem P) := by
  have hdev : ∀ b n, ¬ (CacheSystem.init start disk : CacheSystem P).Caches b n :=
    fun b n hb => absurd (show (0 : BitVec 32) = rootDev from hb.1) (by decide)
  have hpool : PoolInv (CacheSystem.init start disk : CacheSystem P) := by
    refine ⟨?_, fun b _ n hb => absurd hb (hdev b n), fun b => ?_, nofun,
      nofun, nofun, nofun,
      fun _ hb => absurd rfl hb, nofun, fun b n hb => absurd hb (hdev b n),
      fun n => .inl rfl, fun n hn => absurd hn (lt_irrefl 0)⟩
    · change ∀ b, b ∈ (List.finRange NBUF).foldl (fun lru b => b :: lru) []
      decide
    · rw [CacheSystem.refs, if_neg fun h => hdev b _ ⟨h, rfl⟩]
      simp [CacheSystem.init, binit, BufPoint.refs_running]
  refine ⟨hpool, LogUse.Inv.of_idle ⟨le_rfl, List.nodup_nil, fun n => rfl⟩ rfl ?_, fun n => rfl⟩
  rintro q tail ⟨⟩

omit [Fintype P] in
/-- Contents change only when a holder writes them. -/
theorem Step.bread_eq (hstep : Step s e s') (hdata : ∀ p b, s.Holds p b →
    (s.cache.buf b).data = s.log.bread (s.blockno b).toNat) (n : ℕ) :
    s'.log.bread n = e.contents n (s.log.bread n) := by
  cases hstep with
  | modify p b data hp => exact bread_update s.log _ data n
  | bwrite p b hp => exact bread_bwrite s.log (hdata p b hp) n
  | logWrite p b log hp hlog => exact bread_congr (LogState.logWrite_contents hlog) n
  | beginOp p log hp hlog =>
    obtain ⟨-, -, rfl⟩ := LogState.beginOp_cases hlog
    rfl
  | endOp p log hp hlog =>
    obtain ⟨-, rfl, -⟩ := LogState.endOp_cases hlog
    rfl
  | endOpCommit p log hp hlog =>
    obtain ⟨-, rfl, -⟩ := LogState.endOp_cases hlog
    rfl
  | _ => rfl

/-- Every step keeps the invariant of the pool and of the log. -/
theorem Inv.step_pool (h : Inv disk events s) (hstep : Step s e s') : PoolInv s' ∧ LogUse.Inv s'.log s'.logUse := by
  cases hstep with
  | bget p n b cache hp hget =>
    refine ⟨?_, h.log⟩
    obtain ⟨hfor, rfl⟩ | ⟨hmiss, hfree, rfl⟩ := bget_cases hget
    · exact h.pool.hit hp hfor
    · refine h.pool.recycle hp (fun x hx => hmiss x (h.pool.listed x) ?_) hfree
      simp only [Buf.isFor, decide_eq_true_eq]
      exact ⟨hx.1, BitVec.eq_of_toNat_eq hx.2⟩
  | acquire p n b hp hfree => exact ⟨h.pool.acquire hp hfree, h.log⟩
  | bread p n b hp => exact ⟨h.pool.bread hp, h.log⟩
  | modify p b data hp => exact ⟨h.pool.modify hp data, h.log.of_pins rfl rfl rfl rfl⟩
  | bwrite p b hp => exact ⟨h.pool.bwrite hp, h.log.of_pins rfl rfl rfl rfl⟩
  | logWrite p b log hp hlog => exact ⟨h.pool.logWrite h.log hp hlog, h.log.logWrite hlog⟩
  | unlock p b hp hclean => exact ⟨h.pool.unlock hp hclean, h.log⟩
  | put p b hp => exact ⟨h.pool.put hp, h.log⟩
  | beginOp p log hp hlog =>
    refine ⟨?_, h.log.beginOp hlog⟩
    obtain ⟨-, -, rfl⟩ := LogState.beginOp_cases hlog
    exact h.pool.of_log rfl rfl rfl
  | endOp p log hp hlog =>
    refine ⟨?_, h.log.endOp hlog⟩
    obtain ⟨-, rfl, -⟩ := LogState.endOp_cases hlog
    exact h.pool.of_log rfl rfl rfl
  | endOpCommit p log hp hlog =>
    refine ⟨?_, h.log.endOpCommit hlog⟩
    obtain ⟨-, rfl, -⟩ := LogState.endOp_cases hlog
    exact h.pool.of_log rfl rfl rfl
  | bunpin p b tail hlog htail hp hblock hflushed =>
    have hpin := ((h.log.commit p tail hlog).2.2.next htail).2.2
    rw [← hblock] at hpin
    refine ⟨?_, h.log.bunpin hlog htail⟩
    rw [← hblock]
    exact h.pool.bunpin hp hpin hflushed
  | clearHead p tail hlog htail => exact ⟨h.pool.of_log rfl rfl rfl, h.log.clearHead hlog htail⟩
  | endCommit p tail hlog hempty => exact ⟨h.pool.of_log rfl rfl rfl, h.log.endCommit hlog hempty⟩

/-- Every step keeps the invariant. -/
theorem Inv.step (h : Inv disk events s) (hstep : Step s e s') : Inv disk (events ++ [e]) s' := by
  obtain ⟨hpool, hlog⟩ := h.step_pool hstep
  refine ⟨hpool, hlog, fun n => ?_⟩
  rw [lastWritten_append, ← h.latest n]
  refine hstep.bread_eq (fun p b hp => ?_) n
  obtain ⟨hdev, hvalid⟩ := h.pool.of_holds hp
  exact (h.pool.ok hdev).contents hvalid

omit [Fintype P] in
/-- No step recycles a buffer that is referenced. -/
theorem Step.keeps (hstep : Step s e s') {b : Fin NBUF}
    (hb : 0 < (s.cache.buf b).refcnt) : s.cache.Keeps s'.cache b := by
  cases hstep with
  | bget p n c cache hp hget =>
    obtain ⟨-, rfl⟩ | ⟨-, hfree, rfl⟩ := bget_cases hget
    · change s.cache.Keeps (s.cache.modifyBuf c fun buf => { buf with refcnt := buf.refcnt + 1 }) b
      refine .modifyBuf rfl ?_
      exact fun _ => ⟨rfl, rfl, id⟩
    · have hbc : b ≠ c := by
        rintro rfl
        omega
      rw [Bcache.Keeps, modifyBuf_of_ne hbc]
      exact ⟨rfl, rfl, id⟩
  | acquire p n c hp hfree =>
    change s.cache.Keeps (s.cache.acquire p c) b
    refine .modifyBuf rfl ?_
    exact fun _ => ⟨rfl, rfl, id⟩
  | bread p n c hp =>
    change s.cache.Keeps (s.cache.fill s.log.disk c) b
    unfold fill
    split
    · exact .refl s.cache b
    · refine .modifyBuf rfl ?_
      exact fun _ => ⟨rfl, rfl, fun _ => rfl⟩
  | modify p c data hp =>
    change s.cache.Keeps (s.cache.write c data) b
    refine .modifyBuf rfl ?_
    exact fun _ => ⟨rfl, rfl, id⟩
  | bwrite p c hp =>
    change s.cache.Keeps (s.cache.mark c .flushed) b
    refine .modifyBuf rfl ?_
    exact fun _ => ⟨rfl, rfl, id⟩
  | logWrite p c log hp hlog =>
    change s.cache.Keeps (if _ then _ else _) b
    split
    · rw [mark, bpin, modifyBuf_modifyBuf]
      refine .modifyBuf rfl ?_
      exact fun _ => ⟨rfl, rfl, id⟩
    · exact .modifyBuf rfl fun _ => ⟨rfl, rfl, id⟩
  | unlock p c hp hclean =>
    change s.cache.Keeps (s.cache.unlock c) b
    refine .modifyBuf rfl ?_
    exact fun _ => ⟨rfl, rfl, id⟩
  | put p c hp =>
    have hkeep : s.cache.Keeps (s.cache.modifyBuf c fun buf => { buf with refcnt := buf.refcnt - 1 }) b :=
      .modifyBuf rfl fun _ => ⟨rfl, rfl, id⟩
    change s.cache.Keeps (if _ then _ else _) b
    split
    · exact hkeep
    · exact hkeep
  | beginOp => exact .refl s.cache b
  | endOp => exact .refl s.cache b
  | endOpCommit => exact .refl s.cache b
  | bunpin p c tail hlog htail hp hblock hflushed =>
    change s.cache.Keeps (s.cache.bunpin c) b
    refine .modifyBuf rfl ?_
    exact fun _ => ⟨rfl, rfl, id⟩
  | clearHead => exact .refl s.cache b
  | endCommit => exact .refl s.cache b

/-- What a `bread` returns. -/
theorem Inv.bread_data {n : BitVec 32} {data : Block} (h : Inv disk events s)
    (hstep : Step s (.bread n data) s') : data = lastWritten disk events n.toNat := by
  cases hstep with
  | bread p n b hp =>
    rw [h.pool.fill_buf hp, modifyBuf_self]
    exact h.latest n.toNat

/-- **Coherence of the buffer cache.** In every interleaving of any finite number of processes, from
any disk: no two buffers cache the same block; no step changes the block of a buffer with references
or drops its contents; and every `bread` returns the contents that a holder last wrote to the block,
or those on the disk at the start if no holder did. -/
theorem cache_coherent {start : ℕ} (hrun : Run Step (CacheSystem.init start disk) events s) :
    (∀ b c n, (s.cache.buf b).isFor rootDev n → (s.cache.buf c).isFor rootDev n → b = c) ∧
      (∀ e s' b, Step s e s' → 0 < (s.cache.buf b).refcnt → s.cache.Keeps s'.cache b) ∧
      ∀ n data s', Step s (.bread n data) s' → data = lastWritten disk events n.toNat := by
  have hinv : Inv disk events s :=
    hrun.history (Inv disk) (Inv.init start disk) fun ls t e u ht hstep => ht.step hstep
  refine ⟨fun b c n hb hc => ?_, fun e s' b hstep hb => hstep.keeps hb,
    fun n data s' hstep => hinv.bread_data hstep⟩
  simp only [Buf.isFor, decide_eq_true_eq] at hb hc
  exact hinv.pool.unique b c n.toNat ⟨hb.1, by rw [blockno, hb.2]⟩ ⟨hc.1, by rw [blockno, hc.2]⟩

/-- A process logs new contents of block 50, releases the buffer and is about to read the block again. -/
theorem exists_logged : ∃ (events : List (BufEvent Unit)) (s : CacheSystem Unit),
    Run Step (CacheSystem.init 2 fun _ _ => 0) events s ∧ s.log.disk 50 = (fun _ => 0) ∧
      lastWritten (fun _ _ => 0) events 50 = (fun _ => 7) ∧ ∃ data s', Step s (.bread 50 data) s' := by
  let b : Fin NBUF := ⟨0, by decide⟩
  have h0 : Run Step (CacheSystem.init 2 fun _ _ => 0 : CacheSystem Unit) [] _ := Run.nil
  have h1 := h0.snoc (Step.beginOp _ () _ rfl rfl)
  have h2 := h1.snoc (Step.bget _ () 50 _ _ rfl rfl)
  have h3 := h2.snoc (Step.acquire _ () 50 _ rfl rfl)
  have h4 := h3.snoc (Step.bread _ () 50 _ rfl)
  have h5 := h4.snoc (Step.modify _ () b (fun _ => 7) ⟨rfl, rfl⟩)
  have h6 := h5.snoc (Step.logWrite _ () b _ ⟨rfl, rfl⟩ rfl)
  have h7 := h6.snoc (Step.unlock _ () b ⟨rfl, rfl⟩ (by decide))
  have h8 := h7.snoc (Step.put _ () _ rfl)
  have h9 := h8.snoc (Step.bget _ () 50 _ _ rfl rfl)
  have h10 := h9.snoc (Step.acquire _ () 50 _ rfl rfl)
  exact ⟨_, _, h10, rfl, rfl, _, _, Step.bread _ () 50 _ rfl⟩

/-- The next `bread` returns the new contents, although the disk still has the old ones. -/
theorem cache_coherent_logged : ∃ (events : List (BufEvent Unit)) (s : CacheSystem Unit),
    Run Step (CacheSystem.init 2 fun _ _ => 0) events s ∧ s.log.disk 50 = (fun _ => 0) ∧
      (∃ data s', Step s (.bread 50 data) s') ∧
      ∀ data s', Step s (.bread 50 data) s' → data = fun _ => 7 := by
  obtain ⟨events, s, hrun, hdisk, hlast, hread⟩ := exists_logged
  exact ⟨events, s, hrun, hdisk, hread, fun data s' hstep =>
    ((cache_coherent hrun).2.2 50 data s' hstep).trans hlast⟩

/-- The contents last written to a block are on the disk, or in a buffer with references. -/
def Kept (s : CacheSystem P) (disk : Disk) (events : List (BufEvent P)) (n : ℕ) : Prop :=
  s.log.disk n = lastWritten disk events n ∨ ∃ b, s.Caches b n ∧ (s.cache.buf b).valid = true ∧
    (s.cache.buf b).data = lastWritten disk events n ∧ 0 < (s.cache.buf b).refcnt

/-- **No update is lost.** In every interleaving, what was last written to a block is on the disk, or it is in
a buffer with references, which `bget` does not recycle. -/
theorem no_update_lost {start : ℕ} (hrun : Run Step (CacheSystem.init start disk) events s) (n : ℕ) :
    s.Kept disk events n := by
  obtain ⟨hpool, -, hlatest⟩ : Inv disk events s :=
    hrun.history (Inv disk) (Inv.init start disk) fun _ _ _ _ ht hstep => ht.step hstep
  have hbuf : ∀ b, s.Caches b n → (s.cache.buf b).valid = true →
      (s.cache.buf b).data = lastWritten disk events n :=
    fun b hb hvalid => (hpool.contents b n hb hvalid).trans (hlatest n)
  obtain hdisk | hpins | ⟨b, hb, hdirty⟩ := hpool.stored n
  · exact .inl (hdisk.trans (hlatest n))
  · -- The log has pinned the buffer.
    obtain ⟨b, hb, hvalid⟩ := hpool.pinned n hpins
    refine .inr ⟨b, hb, hvalid, hbuf b hb hvalid, ?_⟩
    rw [hpool.counted, refs, if_pos hb.1, hb.2]
    omega
  · -- A process has changed the buffer and not logged it yet, so it holds its lock.
    obtain ⟨hholder, hvalid⟩ := hpool.used b (by rw [hdirty]; decide)
    refine .inr ⟨b, hb, hvalid, hbuf b hb hvalid, ?_⟩
    rw [hpool.counted, refs, if_pos (Option.isSome_iff_ne_none.2 hholder)]
    omega

/-- The new contents of a logged block are not yet on the disk, and a buffer with references has them. -/
theorem no_update_lost_logged : ∃ (events : List (BufEvent Unit)) (s : CacheSystem Unit),
    Run Step (CacheSystem.init 2 fun _ _ => 0) events s ∧ s.log.disk 50 = (fun _ => 0) ∧
      ∃ b, s.Caches b 50 ∧ (s.cache.buf b).data = (fun _ => 7) ∧ 0 < (s.cache.buf b).refcnt := by
  obtain ⟨events, s, hrun, hdisk, hlast, -⟩ := exists_logged
  refine ⟨events, s, hrun, hdisk, ?_⟩
  obtain hkept | ⟨b, hb, -, hdata, hrefs⟩ := no_update_lost hrun 50
  · rw [hdisk, hlast] at hkept
    exact absurd (congrFun hkept ⟨0, by decide⟩) (by decide)
  · exact ⟨b, hb, hdata.trans hlast, hrefs⟩

end CacheSystem

end Xv6.Bio
