import Xv6.Bio.LogGuarantee
import Xv6.Library.References

/-!
# The invariant of the buffer cache

The references to a buffer are the processes on their way in or out of it, its holder, and the pins
of its block. Since a buffer without references is not pinned and not being modified, its block is on
the disk as it was last written, and nothing is lost when the buffer is recycled.
-/

namespace Xv6.Bio

open BufPoint Finset Function Library Log

namespace Bcache

variable {P : Type*} {c : Bcache P} {b x : Fin NBUF} {f : Buf P → Buf P}

@[simp] theorem modifyBuf_self : (c.modifyBuf b f).buf b = f (c.buf b) := update_self _ _ _

theorem modifyBuf_of_ne (h : x ≠ b) : (c.modifyBuf b f).buf x = c.buf x := update_of_ne h _ _

theorem modifyBuf_modifyBuf (g : Buf P → Buf P) :
    (c.modifyBuf b f).modifyBuf b g = c.modifyBuf b fun buf => g (f buf) := by
  simp [modifyBuf]

end Bcache

/-- The references that a process on its way in or out holds on a buffer. -/
def BufPoint.refs (b : Fin NBUF) : BufPoint → ℕ
  | .waiting c _ => if c = b then 1 else 0
  | .releasing c => if c = b then 1 else 0
  | _ => 0

theorem BufPoint.refs_running (b : Fin NBUF) : running.refs b = 0 := rfl

theorem BufPoint.refs_waiting (b c : Fin NBUF) (n : BitVec 32) :
    (waiting c n).refs b = if c = b then 1 else 0 := rfl

/-- The process is not on its way in or out of another buffer. -/
def BufPoint.On (b : Fin NBUF) : BufPoint → Prop
  | .running => True
  | .waiting c _ => c = b
  | .reading c _ => c = b
  | .releasing c => c = b

/-- The buffer, with the given state, is as a process at this point expects it. -/
def BufPoint.At {P : Type*} (p : P) (b : Fin NBUF) (buf : Buf P) : BufPoint → Prop
  | .running => True
  | .waiting c n => c = b ∧ buf.blockno = n
  | .reading c n => c = b ∧ buf.blockno = n ∧ buf.holder = some p ∧ buf.use = .clean
  | .releasing c => c = b

variable {point : BufPoint}

/-- What the process expects of a buffer, it expects of no other one. -/
theorem BufPoint.At.on {P : Type*} {p : P} {b : Fin NBUF} {buf : Buf P} (h : point.At p b buf) : point.On b := by
  cases point with
  | running => trivial
  | waiting c n => exact h.1
  | reading c n => exact h.1
  | releasing c => exact h

/-- A process counts for no buffer but the one it is on its way in or out of. -/
theorem BufPoint.On.refs_eq_zero {b x : Fin NBUF} (h : point.On b) (hx : x ≠ b) : point.refs x = 0 := by
  cases point with
  | running => rfl
  | reading c n => rfl
  | waiting c n =>
    have hc : c = b := h
    rw [refs, hc, if_neg hx.symm]
  | releasing c =>
    have hc : c = b := h
    rw [refs, hc, if_neg hx.symm]

/-- What the invariant says about a buffer of the disk and its block. -/
structure Buf.Ok {P : Type*} (buf : Buf P) (log : LogState) : Prop where
  dev : buf.dev = rootDev
  used : buf.use ≠ .clean → buf.holder ≠ none ∧ buf.valid = true
  flushed : buf.use = .flushed → log.disk buf.blockno.toNat = buf.data
  contents : buf.valid = true → buf.data = log.bread buf.blockno.toNat
  stored : log.disk buf.blockno.toNat = log.bread buf.blockno.toNat ∨
    0 < log.pins buf.blockno.toNat ∨ buf.use = .dirty
  pinned : 0 < log.pins buf.blockno.toNat → buf.valid = true

namespace CacheSystem

variable {P : Type*}

/-- The references to a buffer. -/
def refs [Fintype P] (s : CacheSystem P) (b : Fin NBUF) : ℕ :=
  ∑ p, (s.point p).refs b + (if (s.cache.buf b).holder.isSome then 1 else 0) +
    if (s.cache.buf b).dev = rootDev then s.log.pins (s.blockno b).toNat else 0

/-- A buffer caches a block of the file system. -/
def Caches (s : CacheSystem P) (b : Fin NBUF) (n : ℕ) : Prop :=
  (s.cache.buf b).dev = rootDev ∧ (s.blockno b).toNat = n

/-- The invariant of the pool. -/
structure PoolInv [Fintype P] (s : CacheSystem P) : Prop where
  listed : ∀ b, b ∈ s.cache.lru
  unique : ∀ b c n, s.Caches b n → s.Caches c n → b = c
  counted : ∀ b, (s.cache.buf b).refcnt = s.refs b
  waiting : ∀ p b n, s.point p = .waiting b n → (s.cache.buf b).dev = rootDev ∧ s.blockno b = n
  reading : ∀ p b n, s.point p = .reading b n → (s.cache.buf b).dev = rootDev ∧ s.blockno b = n ∧
    (s.cache.buf b).holder = some p ∧ (s.cache.buf b).use = .clean
  releasing : ∀ p b, s.point p = .releasing b → (s.cache.buf b).dev = rootDev
  held : ∀ b p, (s.cache.buf b).holder = some p → (s.cache.buf b).dev = rootDev ∧
    ((s.cache.buf b).valid = true ∨ ∃ n, s.point p = .reading b n)
  used : ∀ b, (s.cache.buf b).use ≠ .clean →
    (s.cache.buf b).holder ≠ none ∧ (s.cache.buf b).valid = true
  flushed : ∀ b, (s.cache.buf b).use = .flushed →
    s.log.disk (s.blockno b).toNat = (s.cache.buf b).data
  contents : ∀ b n, s.Caches b n → (s.cache.buf b).valid = true → (s.cache.buf b).data = s.log.bread n
  stored : ∀ n, s.log.disk n = s.log.bread n ∨ 0 < s.log.pins n ∨
    ∃ b, s.Caches b n ∧ (s.cache.buf b).use = .dirty
  pinned : ∀ n, 0 < s.log.pins n → ∃ b, s.Caches b n ∧ (s.cache.buf b).valid = true

/-- A step of one process on one buffer: the buffer keeps its block, and everything about the other
buffers, blocks and processes stays. -/
structure Touches (s t : CacheSystem P) (p : P) (b : Fin NBUF) : Prop where
  dev : (t.cache.buf b).dev = (s.cache.buf b).dev
  block : t.blockno b = s.blockno b
  others : ∀ x ≠ b, t.cache.buf x = s.cache.buf x
  lru : ∀ x ∈ s.cache.lru, x ∈ t.cache.lru
  points : ∀ q ≠ p, t.point q = s.point q
  refs : ∀ x ≠ b, (t.point p).refs x = (s.point p).refs x
  before : ∀ x n, s.point p = .reading x n → x = b
  readers : ∀ q n, s.point q = .reading b n → q ≠ p →
    (t.cache.buf b).holder = (s.cache.buf b).holder ∧ (t.cache.buf b).use = (s.cache.buf b).use
  disk : ∀ n ≠ (s.blockno b).toNat, t.log.disk n = s.log.disk n
  bread : ∀ n ≠ (s.blockno b).toNat, t.log.bread n = s.log.bread n
  pins : ∀ n ≠ (s.blockno b).toNat, t.log.pins n = s.log.pins n

/-- What the invariant says about one process and one buffer. -/
structure Settled [Fintype P] (s : CacheSystem P) (p : P) (b : Fin NBUF) : Prop where
  ok : (s.cache.buf b).Ok s.log
  counted : (s.cache.buf b).refcnt = s.refs b
  at_point : (s.point p).At p b (s.cache.buf b)
  held : ∀ q, (s.cache.buf b).holder = some q →
    (s.cache.buf b).valid = true ∨ ∃ n, s.point q = .reading b n

namespace Touches

variable {s t : CacheSystem P} {p : P} {b : Fin NBUF}

/-- Changing a buffer, and where the process is, touches nothing else. -/
theorem of_modifyBuf [DecidableEq P] {f : Buf P → Buf P}
    (hcache : t.cache.buf = (s.cache.modifyBuf b f).buf) (hlru : ∀ x ∈ s.cache.lru, x ∈ t.cache.lru)
    (hpoint : t.point = update s.point p point)
    (hf : ∀ buf, (f buf).dev = buf.dev ∧ (f buf).blockno = buf.blockno)
    (hbefore : (s.point p).On b) (hafter : point.On b)
    (hreaders : ∀ q n, s.point q = .reading b n → q ≠ p →
      (f (s.cache.buf b)).holder = (s.cache.buf b).holder ∧
        (f (s.cache.buf b)).use = (s.cache.buf b).use)
    (hlog : ∀ n ≠ (s.blockno b).toNat, t.log.disk n = s.log.disk n ∧ t.log.bread n = s.log.bread n ∧
      t.log.pins n = s.log.pins n) : Touches s t p b where
  dev := by rw [hcache, Bcache.modifyBuf_self, (hf _).1]
  block := by rw [blockno, hcache, Bcache.modifyBuf_self, (hf _).2, blockno]
  others x hx := by rw [hcache, Bcache.modifyBuf_of_ne hx]
  lru := hlru
  points q hq := by rw [hpoint, update_of_ne hq]
  refs x hx := by rw [hpoint, update_self, hbefore.refs_eq_zero hx, hafter.refs_eq_zero hx]
  before x n hx := by
    rw [hx] at hbefore
    exact hbefore
  readers q n hq hqp := by
    rw [hcache, Bcache.modifyBuf_self]
    exact hreaders q n hq hqp
  disk n hn := (hlog n hn).1
  bread n hn := (hlog n hn).2.1
  pins n hn := (hlog n hn).2.2

/-- Every buffer keeps its device. -/
theorem dev_eq (h : Touches s t p b) (x : Fin NBUF) : (t.cache.buf x).dev = (s.cache.buf x).dev := by
  by_cases hx : x = b
  · rw [hx, h.dev]
  · rw [h.others x hx]

/-- Every buffer keeps its block number. -/
theorem blockno_eq (h : Touches s t p b) (x : Fin NBUF) : t.blockno x = s.blockno x := by
  by_cases hx : x = b
  · rw [hx, h.block]
  · rw [blockno, h.others x hx, blockno]

/-- Every buffer keeps its block. -/
theorem caches_iff (h : Touches s t p b) (x : Fin NBUF) (n : ℕ) : t.Caches x n ↔ s.Caches x n := by
  rw [Caches, Caches, h.dev_eq, h.blockno_eq]

/-- The references of the processes to the other buffers stay. -/
theorem sum_refs [Fintype P] (h : Touches s t p b) {x : Fin NBUF} (hx : x ≠ b) :
    ∑ q, (t.point q).refs x = ∑ q, (s.point q).refs x := by
  refine sum_congr rfl fun q _ => ?_
  by_cases hq : q = p
  · rw [hq, h.refs x hx]
  · rw [h.points q hq]

end Touches

namespace PoolInv

variable [Fintype P] {s t : CacheSystem P} {p : P} {b : Fin NBUF}

section

variable (h : PoolInv s)

include h

/-- A buffer other than `b` caches another block. -/
theorem block_ne (hb : (s.cache.buf b).dev = rootDev) {x : Fin NBUF}
    (hx : x ≠ b) (hdev : (s.cache.buf x).dev = rootDev) : (s.blockno x).toNat ≠ (s.blockno b).toNat :=
  fun heq => hx (h.unique x b _ ⟨hdev, heq⟩ ⟨hb, rfl⟩)

/-- The invariant after a step of one process on one buffer. -/
theorem touch (ht : Touches s t p b) (hb : t.Settled p b) : PoolInv t := by
  have hdev : (s.cache.buf b).dev = rootDev := by rw [← ht.dev, hb.ok.dev]
  have hne {x : Fin NBUF} (hx : x ≠ b) (hxd : (s.cache.buf x).dev = rootDev) := h.block_ne hdev hx hxd
  refine ⟨fun x => ht.lru x (h.listed x), fun x y n hx hy => ?_, fun x => ?_, fun q x n hq => ?_,
    fun q x n hq => ?_, fun q x hq => ?_, fun x q hq => ?_, fun x hx => ?_, fun x hx => ?_,
    fun x n hc hv => ?_,
    fun n => ?_, fun n hn => ?_⟩
  · exact h.unique x y n ((ht.caches_iff x n).1 hx) ((ht.caches_iff y n).1 hy)
  · by_cases hxb : x = b
    · rw [hxb, hb.counted]
    · have hpins : (if (s.cache.buf x).dev = rootDev then t.log.pins (s.blockno x).toNat else 0) =
          if (s.cache.buf x).dev = rootDev then s.log.pins (s.blockno x).toNat else 0 := by
        by_cases hxd : (s.cache.buf x).dev = rootDev
        · rw [if_pos hxd, if_pos hxd, ht.pins _ (hne hxb hxd)]
        · rw [if_neg hxd, if_neg hxd]
      rw [ht.others x hxb, h.counted x, CacheSystem.refs, CacheSystem.refs, ht.sum_refs hxb,
        ht.others x hxb, ht.blockno_eq, hpins]
  · rw [ht.dev_eq, ht.blockno_eq]
    by_cases hqp : q = p
    · subst hqp
      have hat := hb.at_point
      rw [hq] at hat
      obtain ⟨rfl, hn⟩ := hat
      exact ⟨hdev, by rw [← ht.blockno_eq, blockno, hn]⟩
    · rw [ht.points q hqp] at hq
      exact h.waiting q x n hq
  · by_cases hqp : q = p
    · subst hqp
      have hat := hb.at_point
      rw [hq] at hat
      obtain ⟨rfl, hn, hhold, huse⟩ := hat
      exact ⟨hb.ok.dev, hn, hhold, huse⟩
    · rw [ht.points q hqp] at hq
      rw [ht.dev_eq, ht.blockno_eq]
      by_cases hxb : x = b
      · subst hxb
        obtain ⟨hhold, huse⟩ := ht.readers q n hq hqp
        rw [hhold, huse]
        exact h.reading q x n hq
      · rw [ht.others x hxb]
        exact h.reading q x n hq
  · rw [ht.dev_eq]
    by_cases hqp : q = p
    · subst hqp
      have hat := hb.at_point
      rw [hq] at hat
      rw [show x = b from hat, hdev]
    · rw [ht.points q hqp] at hq
      exact h.releasing q x hq
  · by_cases hxb : x = b
    · subst hxb
      exact ⟨hb.ok.dev, hb.held q hq⟩
    · rw [ht.others x hxb] at hq ⊢
      obtain ⟨hxd, hvalid | ⟨n, hread⟩⟩ := h.held x q hq
      · exact ⟨hxd, .inl hvalid⟩
      · have hqp : q ≠ p := fun hqp => hxb (ht.before x n (hqp ▸ hread))
        exact ⟨hxd, .inr ⟨n, by rw [ht.points q hqp, hread]⟩⟩
  · by_cases hxb : x = b
    · subst hxb
      exact hb.ok.used hx
    · rw [ht.others x hxb] at hx ⊢
      exact h.used x hx
  · by_cases hxb : x = b
    · subst hxb
      exact hb.ok.flushed hx
    · rw [ht.others x hxb] at hx ⊢
      obtain ⟨q, hq⟩ := Option.ne_none_iff_exists'.1 (h.used x (by rw [hx]; decide)).1
      rw [ht.blockno_eq, ht.disk _ (hne hxb (h.held x q hq).1), h.flushed x hx]
  · by_cases hxb : x = b
    · subst hxb
      rw [← hc.2]
      exact hb.ok.contents hv
    · have hc' := (ht.caches_iff x n).1 hc
      rw [ht.others x hxb] at hv ⊢
      rw [ht.bread n (hc'.2 ▸ hne hxb hc'.1)]
      exact h.contents x n hc' hv
  · by_cases hn : n = (s.blockno b).toNat
    · subst hn
      rw [← ht.block]
      obtain hsame | hpin | huse := hb.ok.stored
      · exact .inl hsame
      · exact .inr (.inl hpin)
      · exact .inr (.inr ⟨b, ⟨hb.ok.dev, rfl⟩, huse⟩)
    · rw [ht.disk n hn, ht.bread n hn, ht.pins n hn]
      obtain hsame | hpin | ⟨x, hx, huse⟩ := h.stored n
      · exact .inl hsame
      · exact .inr (.inl hpin)
      · have hxb : x ≠ b := fun hxb => hn (by rw [← hxb, hx.2])
        exact .inr (.inr ⟨x, (ht.caches_iff x n).2 hx, by rw [ht.others x hxb, huse]⟩)
  · by_cases hnb : n = (s.blockno b).toNat
    · subst hnb
      rw [← ht.block] at hn ⊢
      exact ⟨b, ⟨hb.ok.dev, rfl⟩, hb.ok.pinned hn⟩
    · rw [ht.pins n hnb] at hn
      obtain ⟨x, hx, hv⟩ := h.pinned n hn
      have hxb : x ≠ b := fun hxb => hnb (by rw [← hxb, hx.2])
      exact ⟨x, (ht.caches_iff x n).2 hx, by rw [ht.others x hxb, hv]⟩

/-- The buffer that a running process holds contains its block. -/
theorem of_holds (hp : s.Holds p b) : (s.cache.buf b).dev = rootDev ∧ (s.cache.buf b).valid = true := by
  obtain ⟨hdev, hvalid | ⟨n, hread⟩⟩ := h.held b p hp.2
  · exact ⟨hdev, hvalid⟩
  · rw [hp.1] at hread
    cases hread

/-- Nobody but its holder is reading a buffer. -/
theorem reader_eq {q : P} {n : BitVec 32}
    (hp : (s.cache.buf b).holder = some p) (hq : s.point q = .reading b n) : q = p := by
  have hhold := (h.reading q b n hq).2.2.1
  rw [hp] at hhold
  exact (Option.some.inj hhold).symm

/-- The invariant of a buffer of the disk. -/
theorem ok (hdev : (s.cache.buf b).dev = rootDev) : (s.cache.buf b).Ok s.log where
  dev := hdev
  used := h.used b
  flushed := h.flushed b
  contents := h.contents b _ ⟨hdev, rfl⟩
  stored := by
    obtain hsame | hpin | ⟨x, hx, huse⟩ := h.stored (s.blockno b).toNat
    · exact .inl hsame
    · exact .inr (.inl hpin)
    · rw [h.unique x b _ hx ⟨hdev, rfl⟩] at huse
      exact .inr (.inr huse)
  pinned hpin := by
    obtain ⟨x, hx, hv⟩ := h.pinned _ hpin
    rw [h.unique x b _ hx ⟨hdev, rfl⟩] at hv
    exact hv

end

variable [DecidableEq P]

/-- The references after the process moved. -/
theorem refs_moved (cache : Bcache P) (log : LogState) (use : P → LogUse) (point : BufPoint)
    (hdev : (s.cache.buf b).dev = rootDev) (hdev' : (cache.buf b).dev = rootDev)
    (hblock : (cache.buf b).blockno = s.blockno b) :
    CacheSystem.refs { cache, log, point := update s.point p point, logUse := use } b +
        (s.point p).refs b + (if (s.cache.buf b).holder.isSome then 1 else 0) +
        s.log.pins (s.blockno b).toNat =
      s.refs b + point.refs b + (if (cache.buf b).holder.isSome then 1 else 0) +
        log.pins (s.blockno b).toNat := by
  have hsum := sum_update_add (BufPoint.refs b) s.point p point
  simp only [CacheSystem.refs, hdev, hdev', if_true, CacheSystem.blockno, hblock]
  omega

/-- The invariant after a process changed one buffer and moved. -/
theorem modifyBuf (h : PoolInv s) (f : Buf P → Buf P) (point : BufPoint)
    (log : LogState) {lru : List (Fin NBUF)} {use : P → LogUse}
    (hdev : (s.cache.buf b).dev = rootDev) (hlru : ∀ x ∈ s.cache.lru, x ∈ lru)
    (hf : ∀ buf, (f buf).dev = buf.dev ∧ (f buf).blockno = buf.blockno) (hbefore : (s.point p).On b)
    (hafter : point.At p b (f (s.cache.buf b)))
    (hreaders : ∀ q n, s.point q = .reading b n → q ≠ p →
      (f (s.cache.buf b)).holder = (s.cache.buf b).holder ∧
        (f (s.cache.buf b)).use = (s.cache.buf b).use)
    (hlog : ∀ n ≠ (s.blockno b).toNat, log.disk n = s.log.disk n ∧ log.bread n = s.log.bread n ∧
      log.pins n = s.log.pins n)
    (hcount : (f (s.cache.buf b)).refcnt + (s.point p).refs b +
        (if (s.cache.buf b).holder.isSome then 1 else 0) + s.log.pins (s.blockno b).toNat =
      (s.cache.buf b).refcnt + point.refs b +
        (if (f (s.cache.buf b)).holder.isSome then 1 else 0) + log.pins (s.blockno b).toNat)
    (hok : (f (s.cache.buf b)).Ok log)
    (hheld : ∀ q, (f (s.cache.buf b)).holder = some q →
      (f (s.cache.buf b)).valid = true ∨ ∃ n, update s.point p point q = .reading b n) :
    PoolInv
      { cache := { s.cache.modifyBuf b f with lru }, log
        point := update s.point p point, logUse := use } := by
  have hbuf : (s.cache.modifyBuf b f).buf b = f (s.cache.buf b) := Bcache.modifyBuf_self
  have hrefs := refs_moved (p := p) { s.cache.modifyBuf b f with lru } log use point hdev
    (by rw [hbuf, (hf _).1, hdev]) (by rw [hbuf, (hf _).2, blockno])
  refine h.touch (p := p) (b := b)
    (.of_modifyBuf rfl hlru rfl hf hbefore hafter.on hreaders hlog) ⟨?_, ?_, ?_, ?_⟩
  · change ((s.cache.modifyBuf b f).buf b).Ok log
    rw [hbuf]
    exact hok
  · change ((s.cache.modifyBuf b f).buf b).refcnt = _
    have hc := h.counted b
    rw [hbuf] at hrefs ⊢
    omega
  · change (update s.point p point p).At p b ((s.cache.modifyBuf b f).buf b)
    rw [hbuf, update_self]
    exact hafter
  · change ∀ q, ((s.cache.modifyBuf b f).buf b).holder = some q → _
    rw [hbuf]
    exact hheld

end PoolInv

end CacheSystem

end Xv6.Bio
