import Mathlib.Algebra.Order.BigOperators.Group.Finset
import Xv6.Bio.CacheInvariant

/-!
# The steps of the buffer cache

Each step on a buffer keeps the invariant of the pool.
-/

namespace Xv6.Bio

open BufPoint CacheSystem Function Library Log LogState Option

variable {n : BitVec 32}

namespace CacheSystem

variable {P : Type*} [Fintype P] [DecidableEq P] {s : CacheSystem P} {p : P} {b : Fin NBUF}

/-- The log has the contents that its buffers and the disk have. -/
theorem bread_congr {log log' : LogState} (h : log'.disk = log.disk ∧ log'.cache = log.cache) (n : ℕ) :
    log'.bread n = log.bread n := by
  rw [LogState.bread, LogState.bread, h.1, h.2]

/-- The contents of the blocks after a holder changed those of one. -/
theorem bread_update (log : LogState) (n : ℕ) (data : Block) (m : ℕ) :
    LogState.bread { log with cache := update log.cache n (some data) } m =
      if n = m then data else log.bread m := by
  by_cases hm : n = m
  · simp [LogState.bread, hm]
  · simp [LogState.bread, hm, update_of_ne (Ne.symm hm)]

/-- A write to the disk of the contents that a block has changes no contents. -/
theorem bread_bwrite (log : LogState) {n : ℕ} {data : Block} (h : data = log.bread n) (m : ℕ) :
    (log.bwrite n data).bread m = log.bread m := by
  by_cases hm : m = n
  · simp [LogState.bread, LogState.bwrite, hm, h]
  · simp [LogState.bread, LogState.bwrite, update_of_ne hm]

namespace PoolInv

variable {use : P → LogUse}

section

variable (h : PoolInv s)

include h

/-- A process takes a reference to the buffer of a block. -/
theorem hit (hp : s.point p = .running) (hb : (s.cache.buf b).isFor rootDev n) :
    PoolInv
      { s with
        cache := s.cache.modifyBuf b fun buf => { buf with refcnt := buf.refcnt + 1 }
        point := update s.point p (.waiting b n) } := by
  obtain ⟨hdev, hn⟩ : (s.cache.buf b).dev = rootDev ∧ (s.cache.buf b).blockno = n := by
    simpa [Buf.isFor] using hb
  have hok := h.ok hdev
  refine h.modifyBuf (fun buf => { buf with refcnt := buf.refcnt + 1 }) (.waiting b n) s.log hdev
    (fun _ hx => hx) (fun _ => ⟨rfl, rfl⟩) (by rw [hp]; trivial) ⟨rfl, hn⟩
    (fun _ _ _ _ => ⟨rfl, rfl⟩) (fun _ _ => ⟨rfl, rfl, rfl⟩) ?_
    ⟨hdev, hok.used, hok.flushed, hok.contents, hok.stored, hok.pinned⟩ (fun q hq => ?_)
  · simp only [hp, BufPoint.refs, if_true]
  · obtain hvalid | ⟨m, hread⟩ := (h.held b q hq).2
    · exact .inl hvalid
    · have hqp : q ≠ p := ne_of_values hread hp (by simp)
      exact .inr ⟨m, by rw [update_of_ne hqp, hread]⟩

/-- A waiting process locks a free buffer. -/
theorem acquire (hp : s.point p = .waiting b n) (hfree : (s.cache.buf b).holder = none) :
    PoolInv
      { s with cache := s.cache.acquire p b, point := update s.point p (.reading b n) } := by
  obtain ⟨hdev, hn⟩ := h.waiting p b n hp
  have hok := h.ok hdev
  have huse : (s.cache.buf b).use = .clean := by
    by_contra hne
    exact (hok.used hne).1 hfree
  refine h.modifyBuf (fun buf => { buf with holder := some p, use := .clean }) (.reading b n) s.log hdev
    (fun _ hx => hx) (fun _ => ⟨rfl, rfl⟩) (by rw [hp]; rfl) ⟨rfl, hn, rfl, rfl⟩ (fun q m hq _ => ?_)
    (fun _ _ => ⟨rfl, rfl, rfl⟩) ?_
    ⟨hdev, fun hne => absurd rfl hne, fun he => BufUse.noConfusion he, hok.contents, ?_, hok.pinned⟩ (fun q hq => ?_)
  · have hhold := (h.reading q b m hq).2.2.1
    exact none_elim hfree hhold
  · simp only [hp, hfree, BufPoint.refs, isSome_some, isSome_none, if_true, Bool.false_eq_true, if_false]
  · obtain hsame | hpin | hdirty := hok.stored
    · exact .inl hsame
    · exact .inr (.inl hpin)
    · rw [huse] at hdirty
      cases hdirty
  · obtain rfl := Option.some.inj hq
    exact .inr ⟨n, update_self _ _ _⟩

omit [DecidableEq P] in
/-- The block that a process is reading is on the disk as it was last written, if it is not in the
buffer already. -/
theorem disk_of_reading (hp : s.point p = .reading b n)
    (hvalid : (s.cache.buf b).valid = false) : s.log.disk n.toNat = s.log.bread n.toNat := by
  obtain ⟨hdev, hn, hhold, huse⟩ := h.reading p b n hp
  have hok := h.ok hdev
  rw [← hn]
  obtain hsame | hpin | hdirty := hok.stored
  · exact hsame
  · have := hok.pinned hpin
    rw [hvalid] at this
    cases this
  · rw [huse] at hdirty
    cases hdirty

omit [DecidableEq P] in
/-- What `bread` leaves in the buffer. -/
theorem fill_buf (hp : s.point p = .reading b n) :
    s.cache.fill s.log.disk b =
      s.cache.modifyBuf b fun buf => { buf with data := s.log.bread n.toNat, valid := true } := by
  obtain ⟨hdev, hn, hhold, huse⟩ := h.reading p b n hp
  unfold Bcache.fill
  by_cases hvalid : (s.cache.buf b).valid = true
  · have hdata := h.contents b n.toNat ⟨hdev, by rw [hn]⟩ hvalid
    rw [if_pos hvalid, ← hdata, ← hvalid]
    change s.cache = { s.cache with buf := update s.cache.buf b (s.cache.buf b) }
    rw [update_eq_self]
  · have hdisk := h.disk_of_reading hp (by simpa using hvalid)
    rw [if_neg hvalid, ← hdisk, ← hn]
    rfl

/-- The rest of `bread`. -/
theorem bread (hp : s.point p = .reading b n) :
    PoolInv
      { s with cache := s.cache.fill s.log.disk b, point := update s.point p .running } := by
  obtain ⟨hdev, hn, hhold, huse⟩ := h.reading p b n hp
  have hok := h.ok hdev
  rw [h.fill_buf hp]
  refine h.modifyBuf (fun buf => { buf with data := s.log.bread n.toNat, valid := true }) .running s.log
    hdev (fun _ hx => hx) (fun _ => ⟨rfl, rfl⟩) (by rw [hp]; rfl) trivial
    (fun _ _ _ _ => ⟨rfl, rfl⟩) (fun _ _ => ⟨rfl, rfl, rfl⟩) ?_
    ⟨hdev, fun hne => absurd huse hne, fun he => ?_, fun _ => ?_, hok.stored, fun _ => rfl⟩
    fun _ _ => .inl rfl
  · simp only [hp, BufPoint.refs]
  · rw [show (s.cache.buf b).use = BufUse.flushed from he] at huse
    cases huse
  · rw [← hn]
    rfl

/-- The invariant after a running process changed a buffer that it holds. -/
theorem modifyHeld (hp : s.Holds p b) (f : Buf P → Buf P) (log : LogState)
    (hf : ∀ buf, (f buf).dev = buf.dev ∧ (f buf).blockno = buf.blockno ∧ (f buf).holder = buf.holder ∧
      (f buf).valid = buf.valid)
    (hlog : ∀ n ≠ (s.blockno b).toNat, log.disk n = s.log.disk n ∧ log.bread n = s.log.bread n ∧
      log.pins n = s.log.pins n)
    (hcount : (f (s.cache.buf b)).refcnt + s.log.pins (s.blockno b).toNat =
      (s.cache.buf b).refcnt + log.pins (s.blockno b).toNat)
    (hflushed : (f (s.cache.buf b)).use = .flushed →
      log.disk (s.blockno b).toNat = (f (s.cache.buf b)).data)
    (hcontents : (f (s.cache.buf b)).data = log.bread (s.blockno b).toNat)
    (hstored : log.disk (s.blockno b).toNat = log.bread (s.blockno b).toNat ∨
      0 < log.pins (s.blockno b).toNat ∨ (f (s.cache.buf b)).use = .dirty) :
    PoolInv { s with cache := s.cache.modifyBuf b f, log, logUse := use } := by
  obtain ⟨hdev, hvalid⟩ := h.of_holds hp
  obtain ⟨hfdev, hfblock, hfholder, hfvalid⟩ := hf (s.cache.buf b)
  have hpoint : s.point = update s.point p .running := by
    rw [← hp.1, update_eq_self]
  have hok : (f (s.cache.buf b)).Ok log := by
    refine ⟨hfdev.trans hdev, fun _ => ⟨?_, hfvalid.trans hvalid⟩, ?_, fun _ => ?_, ?_, fun _ => hfvalid.trans hvalid⟩
    · rw [hfholder, hp.2]
      exact some_ne_none p
    · rw [hfblock]
      exact hflushed
    · rw [hfblock]
      exact hcontents
    · rw [hfblock]
      exact hstored
  rw [hpoint]
  refine h.modifyBuf f .running log hdev (fun _ hx => hx) (fun buf => ⟨(hf buf).1, (hf buf).2.1⟩)
    (by rw [hp.1]; trivial) trivial (fun q m hq hqp => absurd (h.reader_eq hp.2 hq) hqp) hlog ?_ hok
    fun q _ => .inl (hfvalid.trans hvalid)
  rw [hp.1, hfholder]
  simp only [BufPoint.refs]
  omega

/-- The holder changes the contents of its buffer. -/
theorem modify (hp : s.Holds p b) (data : Block) :
    PoolInv
      { s with
        cache := s.cache.write b data
        log := { s.log with
                 cache := update s.log.cache (s.blockno b).toNat (some data) } } := by
  have hbread := bread_update s.log (s.blockno b).toNat data
  refine h.modifyHeld hp (fun buf => { buf with data, use := .dirty }) _ (fun _ => ⟨rfl, rfl, rfl, rfl⟩)
    (fun n hn => ⟨rfl, ?_, rfl⟩) rfl (fun he => BufUse.noConfusion he) ?_ (.inr (.inr rfl))
  · rw [hbread, if_neg hn.symm]
  · rw [hbread, if_pos rfl]

/-- The holder writes its buffer to the disk. -/
theorem bwrite (hp : s.Holds p b) :
    PoolInv
      { s with
        cache := s.cache.mark b .flushed
        log := s.log.bwrite (s.blockno b).toNat (s.cache.buf b).data } := by
  obtain ⟨hdev, hvalid⟩ := h.of_holds hp
  have hdata := (h.ok hdev).contents hvalid
  have hbread := bread_bwrite s.log hdata
  have hdisk : (s.log.bwrite (s.blockno b).toNat (s.cache.buf b).data).disk (s.blockno b).toNat =
      (s.cache.buf b).data := update_self _ _ _
  refine h.modifyHeld hp (fun buf => { buf with use := .flushed }) _ (fun _ => ⟨rfl, rfl, rfl, rfl⟩)
    (fun n hn => ⟨update_of_ne hn _ _, hbread n, rfl⟩) rfl (fun _ => hdisk) ?_ (.inl ?_)
  · exact hdata.trans (hbread _).symm
  · rw [hdisk]
    exact hdata.trans (hbread _).symm

/-- The holder logs its buffer, which pins the block if it is not logged yet. -/
theorem logWrite (hlog : LogUse.Inv s.log s.logUse) {log : LogState}
    (hp : s.Holds p b) (hw : s.log.logWrite (s.blockno b) = .ok log) :
    PoolInv
      { s with
        cache := if (s.log.absorbIndex (s.blockno b) : ℤ) = s.log.lh.n
          then (s.cache.mark b .clean).bpin b else s.cache.mark b .clean
        log } := by
  obtain ⟨hdev, hvalid⟩ := h.of_holds hp
  have hdata := (h.ok hdev).contents hvalid
  obtain ⟨-, -, -, -, hcases⟩ := logWrite_cases hw hlog.nonneg
  have hdisk := (LogState.logWrite_contents hw).1
  have hbread := bread_congr (LogState.logWrite_contents hw)
  obtain ⟨hmem, -, -, hpins⟩ | ⟨hmem, -, -, hpins⟩ := hcases
  · -- absorbed: the entry is pinned, since no commit runs
    have hpin : log.pins (s.blockno b).toNat = 1 := by
      rw [hpins, (hlog.idle (hlog.idle_of_logWrite hw)).pins, List.drop_zero, if_pos hmem]
    rw [if_neg fun heq => (absorbIndex_eq_iff _ hlog.nonneg).1 heq hmem]
    refine h.modifyHeld hp (fun buf => { buf with use := .clean }) log (fun _ => ⟨rfl, rfl, rfl, rfl⟩)
      (fun n _ => ⟨by rw [hdisk], hbread n, by rw [hpins]⟩) ?_ (fun he => BufUse.noConfusion he) ?_
      (.inr (.inl ?_))
    · rw [hpins]
    · exact hdata.trans (hbread _).symm
    · rw [hpin]
      exact Nat.one_pos
  · have hpin : log.pins (s.blockno b).toNat = s.log.pins (s.blockno b).toNat + 1 := by
      rw [hpins, update_self]
    rw [if_pos ((absorbIndex_eq_iff _ hlog.nonneg).2 hmem), Bcache.mark, Bcache.bpin, Bcache.modifyBuf_modifyBuf]
    refine h.modifyHeld hp _ log (fun _ => ⟨rfl, rfl, rfl, rfl⟩)
      (fun n hn => ⟨by rw [hdisk], hbread n, by rw [hpins, update_of_ne hn]⟩) ?_
      (fun he => BufUse.noConfusion he) ?_ (.inr (.inl ?_))
    · rw [hpin]
      simp only
      omega
    · exact hdata.trans (hbread _).symm
    · rw [hpin]
      exact Nat.succ_pos _

/-- The committer drops the pin of a block that it has written to its home location. -/
theorem bunpin (hp : s.Holds p b)
    (hpin : s.log.pins (s.blockno b).toNat = 1) (hflushed : (s.cache.buf b).use = .flushed) :
    PoolInv
      { s with
        cache := s.cache.bunpin b, log := s.log.bunpin (s.blockno b).toNat, logUse := use } := by
  obtain ⟨hdev, hvalid⟩ := h.of_holds hp
  have hdata := (h.ok hdev).contents hvalid
  have hdisk := h.flushed b hflushed
  have hcount : 0 < (s.cache.buf b).refcnt := by
    rw [h.counted b, refs, if_pos hdev, hpin]
    omega
  refine h.modifyHeld hp (fun buf => { buf with refcnt := buf.refcnt - 1 }) _
    (fun _ => ⟨rfl, rfl, rfl, rfl⟩) (fun n hn => ⟨rfl, rfl, update_of_ne hn _ _⟩) ?_
    (fun _ => hdisk) hdata (.inl (hdisk.trans hdata))
  simp only [LogState.bunpin, update_self, hpin]
  omega

/-- The holder releases the lock of a buffer that is not dirty. -/
theorem unlock (hp : s.Holds p b) (hclean : (s.cache.buf b).use ≠ .dirty) :
    PoolInv
      { s with cache := s.cache.unlock b, point := update s.point p (.releasing b) } := by
  obtain ⟨hdev, hvalid⟩ := h.of_holds hp
  have hok := h.ok hdev
  refine h.modifyBuf (fun buf => { buf with holder := none, use := .clean }) (.releasing b) s.log hdev
    (fun _ hx => hx) (fun _ => ⟨rfl, rfl⟩) (by rw [hp.1]; trivial) rfl
    (fun q m hq hqp => absurd (h.reader_eq hp.2 hq) hqp) (fun _ _ => ⟨rfl, rfl, rfl⟩) ?_
    ⟨hdev, fun hne => absurd rfl hne, fun he => BufUse.noConfusion he, hok.contents, ?_, hok.pinned⟩
    (fun q hq => nomatch hq)
  · simp only [hp.1, hp.2, BufPoint.refs, if_true, isSome_some, isSome_none, Bool.false_eq_true, if_false]
  · obtain hsame | hpin | hdirty := hok.stored
    · exact .inl hsame
    · exact .inr (.inl hpin)
    · exact absurd hdirty hclean

/-- A process on its way out drops its reference. -/
theorem put (hp : s.point p = .releasing b) :
    PoolInv
      { s with cache := s.cache.put b, point := update s.point p .running } := by
  have hdev := h.releasing p b hp
  have hok := h.ok hdev
  have hcount : 0 < (s.cache.buf b).refcnt := by
    have hsum := Finset.single_le_sum (fun q _ => Nat.zero_le ((s.point q).refs b)) (Finset.mem_univ p)
    rw [hp, BufPoint.refs, if_pos rfl] at hsum
    rw [h.counted b, refs]
    omega
  have hput : ∃ lru : List (Fin NBUF), (∀ x ∈ s.cache.lru, x ∈ lru) ∧
      s.cache.put b = { s.cache.modifyBuf b fun buf => { buf with refcnt := buf.refcnt - 1 } with lru } := by
    unfold Bcache.put
    simp only
    split
    · refine ⟨_, fun x hx => ?_, rfl⟩
      by_cases hxb : x = b
      · rw [hxb]
        exact List.mem_cons_self
      · exact List.mem_cons_of_mem _ ((List.mem_erase_of_ne hxb).2 hx)
    · exact ⟨s.cache.lru, fun _ hx => hx, rfl⟩
  obtain ⟨lru, hlru, hcache⟩ := hput
  rw [hcache]
  refine h.modifyBuf (fun buf => { buf with refcnt := buf.refcnt - 1 }) .running s.log hdev hlru
    (fun _ => ⟨rfl, rfl⟩) (by rw [hp]; rfl) trivial (fun _ _ _ _ => ⟨rfl, rfl⟩)
    (fun _ _ => ⟨rfl, rfl, rfl⟩) ?_ ⟨hdev, hok.used, hok.flushed, hok.contents, hok.stored, hok.pinned⟩
    (fun q hq => ?_)
  · simp only [hp, BufPoint.refs, if_true]
    omega
  · obtain hvalid | ⟨m, hread⟩ := (h.held b q hq).2
    · exact .inl hvalid
    · have hqp : q ≠ p := ne_of_values hread hp (by simp)
      exact .inr ⟨m, by rw [update_of_ne hqp, hread]⟩

omit [DecidableEq P] in
/-- A buffer without references is free, unmodified, and its block is not pinned. -/
theorem unreferenced (hb : (s.cache.buf b).refcnt = 0) :
    (∀ q, (s.point q).refs b = 0) ∧ (s.cache.buf b).holder = none ∧ (s.cache.buf b).use = .clean ∧
      ((s.cache.buf b).dev = rootDev → s.log.pins (s.blockno b).toNat = 0) := by
  have hcount := h.counted b
  rw [hb, refs] at hcount
  have hfree : (s.cache.buf b).holder = none := by
    by_contra hne
    rw [if_pos (isSome_iff_ne_none.2 hne)] at hcount
    omega
  refine ⟨fun q => ?_, hfree, ?_, fun hdev => ?_⟩
  · have hsum := Finset.single_le_sum (fun q _ => Nat.zero_le ((s.point q).refs b)) (Finset.mem_univ q)
    omega
  · by_contra hne
    exact (h.used b hne).1 hfree
  · rw [if_pos hdev] at hcount
    omega

/-- The process that recycles a buffer for a block. -/
def recycled (s : CacheSystem P) (p : P) (b : Fin NBUF) (n : BitVec 32) : CacheSystem P :=
  { s with
    cache := s.cache.modifyBuf b fun buf =>
      { buf with dev := rootDev, blockno := n, valid := false, refcnt := 1 }
    point := Function.update s.point p (.waiting b n) }

/-- A buffer without references is recycled for a block that no buffer caches. -/
theorem recycle (hp : s.point p = .running) (hmiss : ∀ x, ¬ s.Caches x n.toNat)
    (hb : (s.cache.buf b).refcnt = 0) : PoolInv (recycled s p b n) := by
  obtain ⟨hrefs, hfree, huse, hunpinned⟩ := h.unreferenced hb
  have hself : (recycled s p b n).cache.buf b =
      { s.cache.buf b with dev := rootDev, blockno := n, valid := false, refcnt := 1 } :=
    update_self _ _ _
  have hother {x : Fin NBUF} (hx : x ≠ b) : (recycled s p b n).cache.buf x = s.cache.buf x := update_of_ne hx _ _
  have hpoint {q : P} (hq : q ≠ p) : (recycled s p b n).point q = s.point q := update_of_ne hq _ _
  have hmine : (recycled s p b n).point p = .waiting b n := update_self _ _ _
  have hcaches {x : Fin NBUF} (hx : x ≠ b) (m : ℕ) : (recycled s p b n).Caches x m ↔ s.Caches x m := by
    rw [Caches, Caches, blockno, blockno, hother hx]
  have hnew {m : ℕ} (hm : (recycled s p b n).Caches b m) : m = n.toNat := by
    rw [Caches, blockno, hself] at hm
    exact hm.2.symm
  have hpins : s.log.pins n.toNat = 0 := by
    by_contra hne
    obtain ⟨x, hx, -⟩ := h.pinned _ (Nat.pos_of_ne_zero hne)
    exact hmiss x hx
  have hsum := fun x => sum_update_add (BufPoint.refs x) s.point p (.waiting b n)
  refine ⟨h.listed, fun x y m hx hy => ?_, fun x => ?_, fun q x m hq => ?_, fun q x m hq => ?_,
    fun q x hq => ?_, fun x q hq => ?_, fun x hx => ?_, fun x hx => ?_, fun x m hc hv => ?_,
    fun m => ?_, fun m hm => ?_⟩
  · by_cases hxb : x = b
    · subst hxb
      by_cases hyb : y = x
      · exact hyb.symm
      · rw [hcaches hyb, hnew hx] at hy
        exact absurd hy (hmiss y)
    · by_cases hyb : y = b
      · subst hyb
        rw [hcaches hxb, hnew hy] at hx
        exact absurd hx (hmiss x)
      · exact h.unique x y m ((hcaches hxb m).1 hx) ((hcaches hyb m).1 hy)
  · have hx := hsum x
    rw [hp, refs_running, refs_waiting] at hx
    by_cases hxb : x = b
    · subst hxb
      have hzero : ∑ q, (s.point q).refs x = 0 := Finset.sum_eq_zero fun q _ => hrefs q
      rw [if_pos rfl] at hx
      have hsame : (recycled s p x n).log.pins n.toNat = 0 := hpins
      rw [refs, blockno, hself]
      simp only [hfree, isSome_none, Bool.false_eq_true, if_false, if_true, hsame]
      change 1 = ∑ q, (update s.point p (.waiting x n) q).refs x + 0 + 0
      omega
    · have hcount := h.counted x
      rw [hother hxb, refs, blockno, hother hxb]
      rw [refs, blockno] at hcount
      rw [if_neg (Ne.symm hxb), Nat.add_zero, Nat.add_zero] at hx
      change (s.cache.buf x).refcnt = ∑ q, (update s.point p (.waiting b n) q).refs x + _ + _
      rw [hx]
      exact hcount
  · by_cases hqp : q = p
    · subst hqp
      rw [hmine] at hq
      cases hq
      rw [blockno, hself]
      exact ⟨rfl, rfl⟩
    · rw [hpoint hqp] at hq
      have hxb : x ≠ b := by
        rintro rfl
        have := hrefs q
        rw [hq, BufPoint.refs, if_pos rfl] at this
        cases this
      rw [blockno, hother hxb]
      exact h.waiting q x m hq
  · have hqp : q ≠ p := ne_of_values hq hmine (by simp)
    rw [hpoint hqp] at hq
    have hold := h.reading q x m hq
    have hxb : x ≠ b := by
      rintro rfl
      rw [hfree] at hold
      cases hold.2.2.1
    rw [blockno, hother hxb]
    exact hold
  · have hqp : q ≠ p := ne_of_values hq hmine (by simp)
    rw [hpoint hqp] at hq
    by_cases hxb : x = b
    · rw [hxb, hself]
    · rw [hother hxb]
      exact h.releasing q x hq
  · have hxb : x ≠ b := by
      rintro rfl
      rw [hself] at hq
      change (s.cache.buf x).holder = some q at hq
      exact none_elim hfree hq
    rw [hother hxb] at hq ⊢
    obtain ⟨hdev, hvalid | ⟨m, hread⟩⟩ := h.held x q hq
    · exact ⟨hdev, .inl hvalid⟩
    · have hqp : q ≠ p := ne_of_values hread hp (by simp)
      exact ⟨hdev, .inr ⟨m, by rw [hpoint hqp, hread]⟩⟩
  · have hxb : x ≠ b := by
      rintro rfl
      rw [hself] at hx
      exact hx huse
    rw [hother hxb] at hx ⊢
    exact h.used x hx
  · have hxb : x ≠ b := by
      rintro rfl
      rw [hself] at hx
      change (s.cache.buf x).use = .flushed at hx
      rw [huse] at hx
      cases hx
    rw [blockno, hother hxb] at *
    exact h.flushed x hx
  · have hxb : x ≠ b := by
      rintro rfl
      rw [hself] at hv
      cases hv
    rw [hother hxb] at hv ⊢
    exact h.contents x m ((hcaches hxb m).1 hc) hv
  · obtain hsame | hpin | ⟨x, hx, hdirty⟩ := h.stored m
    · exact .inl hsame
    · exact .inr (.inl hpin)
    · have hxb : x ≠ b := by
        rintro rfl
        rw [huse] at hdirty
        cases hdirty
      exact .inr (.inr ⟨x, (hcaches hxb m).2 hx, by rw [hother hxb, hdirty]⟩)
  · obtain ⟨x, hx, hv⟩ := h.pinned m hm
    have hxb : x ≠ b := by
      rintro rfl
      have := hunpinned hx.1
      rw [hx.2] at this
      exact absurd this (Nat.pos_iff_ne_zero.1 hm)
    exact ⟨x, (hcaches hxb m).2 hx, by rw [hother hxb, hv]⟩

end

end PoolInv

end CacheSystem

/-- What the critical section of `bget` does: it finds the buffer of the block, or recycles one
without references. -/
theorem Bcache.bget_cases {P : Type*} {c c' : Bcache P} {dev : BitVec 32} {b : Fin NBUF}
    (h : c.bget dev n = .ok (b, c')) :
    ((c.buf b).isFor dev n ∧ c' = c.modifyBuf b fun buf => { buf with refcnt := buf.refcnt + 1 }) ∨
      ((∀ x ∈ c.lru, ¬ (c.buf x).isFor dev n) ∧ (c.buf b).refcnt = 0 ∧
        c' = c.modifyBuf b fun buf => { buf with dev, blockno := n, valid := false, refcnt := 1 }) := by
  unfold bget at h
  split at h
  · next found hfind =>
    cases h
    have hfor := List.find?_some hfind
    exact .inl ⟨hfor, rfl⟩
  · next hfind =>
    split at h
    · next free hfree =>
      cases h
      refine .inr ⟨fun x hx => ?_, ?_, rfl⟩
      · simpa using List.find?_eq_none.1 hfind x hx
      · simpa using List.find?_some hfree
    · cases h

end Xv6.Bio
