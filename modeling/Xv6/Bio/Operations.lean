import Xv6.Bio.Coherence

/-!
# Operations and the size of the buffer cache

The file system uses the cache only inside operations and inside the commit. An operation logs at most
`MAXOPBLOCKS` distinct blocks, and it never uses more than two buffers at once: `bmap` and `itrunc`
hold an indirect block while they take a block of the free map or a new block, and `write_log` and
`install_trans` hold a block of the log and its copy. Every logged block keeps its buffer until the
commit has installed it.
-/

namespace Xv6.Bio

open Bcache CacheSystem Finset Function Library Log LogState

/-- The buffers that file-system code uses at once. -/
def MAXOPBUFS : ℕ := 2

namespace CacheSystem

variable {P : Type*} [DecidableEq P]

/-- The buffers that a process holds, waits for or is about to give back. -/
def occupied (s : CacheSystem P) (p : P) : Finset (Fin NBUF) :=
  Finset.univ.filter fun b => (s.cache.buf b).holder = some p ∨ 0 < (s.point p).refs b

/-- The buffers whose blocks are pinned by the log. -/
def pinned (s : CacheSystem P) : Finset (Fin NBUF) :=
  Finset.univ.filter fun b => (s.cache.buf b).dev = rootDev ∧ 0 < s.log.pins (s.blockno b).toNat

end CacheSystem

/-- The cache under file-system operations: `logged` collects the blocks that the operation of a
process has logged. -/
structure OpSystem (P : Type*) where
  sys : CacheSystem P
  logged : P → Finset ℕ

namespace OpSystem

variable {P : Type*} [DecidableEq P]

/-- The state before the first operation. -/
def init (start : ℕ) (disk : Disk) : OpSystem P where
  sys := CacheSystem.init start disk
  logged := fun _ => ∅

/-- A process may call `bread`: it runs an operation or the commit, and uses less buffers than
file-system code does at most. -/
def MayRead (s : OpSystem P) (p : P) : Prop :=
  s.sys.logUse p ≠ .outside ∧ s.sys.point p = .running ∧ (s.sys.occupied p).card < MAXOPBUFS

/-- What file-system code does of the steps of the cache: it logs blocks inside an operation and within
its allowance, and ends an operation or the commit without buffers. -/
def Allows (s : OpSystem P) : BufEvent P → Prop
  | .bget p => s.MayRead p
  | .logWrite p n => s.sys.logUse p = .inOp ∧ (insert n.toNat (s.logged p)).card ≤ MAXOPBLOCKS
  | .endOp p => s.sys.occupied p = ∅
  | _ => True

/-- The blocks that the operations have logged after an event. -/
def loggedAfter (s : OpSystem P) : BufEvent P → P → Finset ℕ
  | .beginOp p => update s.logged p ∅
  | .logWrite p n => update s.logged p (insert n.toNat (s.logged p))
  | _ => s.logged

/-- The steps of file-system operations and of the commit. -/
def Step (s t : OpSystem P) : Prop :=
  ∃ e, CacheSystem.Step s.sys e t.sys ∧ s.Allows e ∧ t.logged = s.loggedAfter e

/-- The states that some interleaving of operations reaches. -/
def Reachable (s : OpSystem P) : Prop :=
  ∃ start disk, Relation.ReflTransGen Step (OpSystem.init start disk) s

end OpSystem

/-- A change that leaves the holder of a buffer alone. -/
theorem Bcache.holder_modifyBuf {P : Type*} (c : Bcache P) (b : Fin NBUF) {f : Buf P → Buf P}
    (hf : ∀ buf, (f buf).holder = buf.holder) (x : Fin NBUF) :
    ((c.modifyBuf b f).buf x).holder = (c.buf x).holder := by
  by_cases hx : x = b
  · rw [hx, modifyBuf_self, hf]
  · rw [modifyBuf_of_ne hx]

section Holder

variable {P : Type*} (c : Bcache P) (b x : Fin NBUF)

theorem Bcache.holder_write (data : Block) : ((c.write b data).buf x).holder = (c.buf x).holder :=
  c.holder_modifyBuf b (by intro _; rfl) x

theorem Bcache.holder_mark (use : BufUse) : ((c.mark b use).buf x).holder = (c.buf x).holder :=
  c.holder_modifyBuf b (by intro _; rfl) x

theorem Bcache.holder_bpin : ((c.bpin b).buf x).holder = (c.buf x).holder := c.holder_modifyBuf b (by intro _; rfl) x

theorem Bcache.holder_bunpin : ((c.bunpin b).buf x).holder = (c.buf x).holder :=
  c.holder_modifyBuf b (by intro _; rfl) x

theorem Bcache.holder_fill (disk : Disk) : ((c.fill disk b).buf x).holder = (c.buf x).holder := by
  unfold fill
  split
  · rfl
  · exact c.holder_modifyBuf b (by intro _; rfl) x

theorem Bcache.holder_put : ((c.put b).buf x).holder = (c.buf x).holder := by
  have hmodify := c.holder_modifyBuf b (f := fun buf => { buf with refcnt := buf.refcnt - 1 }) (by intro _; rfl) x
  unfold put
  simp only
  split
  · exact hmodify
  · exact hmodify

theorem Bcache.holder_acquire (p : P) :
    ((c.acquire p b).buf x).holder = if x = b then some p else (c.buf x).holder := by
  split
  · next hx => rw [hx, acquire, modifyBuf_self]
  · next hx => rw [acquire, modifyBuf_of_ne hx]

theorem Bcache.holder_unlock : ((c.unlock b).buf x).holder = if x = b then none else (c.buf x).holder := by
  split
  · next hx => rw [hx, unlock, modifyBuf_self]
  · next hx => rw [unlock, modifyBuf_of_ne hx]

end Holder

namespace CacheSystem

variable {P : Type*} [DecidableEq P] {s t : CacheSystem P} {p q : P}

theorem mem_occupied {b : Fin NBUF} :
    b ∈ s.occupied p ↔ (s.cache.buf b).holder = some p ∨ 0 < (s.point p).refs b := by
  rw [occupied, mem_filter]
  exact and_iff_right (mem_univ b)

/-- A process whose point and whose locks stay occupies what it did. -/
theorem occupied_eq (hholder : ∀ b, (t.cache.buf b).holder = some q ↔ (s.cache.buf b).holder = some q)
    (hpoint : t.point q = s.point q) : t.occupied q = s.occupied q := by
  ext b
  rw [mem_occupied, mem_occupied, hholder, hpoint]

/-- The process gets a reference to one more buffer. -/
theorem occupied_waiting {b : Fin NBUF} {n : BitVec 32}
    (hholder : ∀ x, (t.cache.buf x).holder = (s.cache.buf x).holder)
    (hpoint : t.point p = .waiting b n) : t.occupied p ⊆ insert b (s.occupied p) := by
  intro x hx
  rw [mem_occupied, hholder, hpoint, BufPoint.refs_waiting] at hx
  rw [mem_insert, mem_occupied]
  obtain hx | hx := hx
  · exact .inr (.inl hx)
  · split at hx
    · next hbx => exact .inl hbx.symm
    · exact absurd hx (lt_irrefl 0)

/-- The process moves on with a buffer that it occupies. -/
theorem occupied_subset {b : Fin NBUF} (hb : b ∈ s.occupied p)
    (hholder : ∀ x ≠ b, (t.cache.buf x).holder = (s.cache.buf x).holder)
    (hpoint : ∀ x ≠ b, (t.point p).refs x = 0) : t.occupied p ⊆ s.occupied p := by
  intro x hx
  by_cases hxb : x = b
  · rw [hxb]
    exact hb
  · rw [mem_occupied, hholder x hxb, hpoint x hxb] at hx
    rw [mem_occupied]
    exact .inl (hx.resolve_right (lt_irrefl 0))

end CacheSystem

/-- The critical section of `bget` locks no buffer. -/
theorem Bcache.bget_holder {P : Type*} {c c' : Bcache P} {dev n : BitVec 32} {b : Fin NBUF}
    (h : c.bget dev n = .ok (b, c')) (x : Fin NBUF) : (c'.buf x).holder = (c.buf x).holder := by
  obtain ⟨-, rfl⟩ | ⟨-, -, rfl⟩ := bget_cases h
  · exact c.holder_modifyBuf b (by intro _; rfl) x
  · exact c.holder_modifyBuf b (by intro _; rfl) x

namespace CacheSystem

variable {P : Type*} [DecidableEq P] {s t : CacheSystem P} {e : BufEvent P}

/-- What a step does to the buffers that a process occupies: only `bget` gets it one more. -/
theorem Step.occupied (h : Step s e t) (q : P) :
    t.occupied q ⊆ s.occupied q ∨
      e = .bget q ∧ t.logUse q = s.logUse q ∧ ∃ b, t.occupied q ⊆ insert b (s.occupied q) := by
  -- a step of another process, and a step that changes neither locks nor points
  have hsame : (∀ b, (t.cache.buf b).holder = some q ↔ (s.cache.buf b).holder = some q) →
      t.point q = s.point q → t.occupied q ⊆ s.occupied q :=
    fun hholder hpoint => (occupied_eq hholder hpoint).subset
  cases h with
  | bget p n b cache hp hget =>
    by_cases hq : q = p
    · subst hq
      exact .inr ⟨rfl, rfl, b, occupied_waiting (bget_holder hget) (update_self _ _ _)⟩
    · refine .inl (hsame (fun x => ?_) (update_of_ne hq _ _))
      exact (bget_holder hget x).congr_left
  | acquire p n b hp hfree =>
    refine .inl ?_
    by_cases hq : q = p
    · subst hq
      have hb : b ∈ s.occupied q := by
        rw [mem_occupied, hp, BufPoint.refs_waiting, if_pos rfl]
        exact .inr Nat.one_pos
      refine occupied_subset hb (fun x hx => ?_) fun x hx => ?_
      · exact (holder_acquire _ b x q).trans (if_neg hx)
      · change (update s.point q (.reading b n) q).refs x = 0
        rw [update_self]
        rfl
    · refine hsame (fun x => ?_) (update_of_ne hq _ _)
      change ((s.cache.acquire p b).buf x).holder = some q ↔ _
      rw [holder_acquire]
      split
      · next hx =>
        rw [hx, hfree]
        exact iff_of_false (fun h => hq (Option.some.inj h).symm) nofun
      · exact Iff.rfl
  | bread p n b hp =>
    refine .inl (fun x hx => ?_)
    rw [mem_occupied] at hx ⊢
    refine hx.imp (fun hx => (holder_fill _ b x _).symm.trans hx) fun hx => ?_
    change 0 < (update s.point p .running q).refs x at hx
    by_cases hq : q = p
    · rw [hq, update_self, BufPoint.refs_running] at hx
      exact absurd hx (lt_irrefl 0)
    · rw [update_of_ne hq] at hx
      exact hx
  | modify p b data hp =>
    exact .inl (hsame (fun x => (holder_write _ b x data).congr_left) rfl)
  | bwrite p b hp => exact .inl (hsame (fun x => (holder_mark _ b x _).congr_left) rfl)
  | logWrite p b log hp hlog =>
    refine .inl (hsame (fun x => Eq.congr_left ?_) rfl)
    change (buf (if _ then _ else _) x).holder = _
    split
    · rw [holder_bpin, holder_mark]
    · rw [holder_mark]
  | unlock p b hp hclean =>
    refine .inl ?_
    by_cases hq : q = p
    · subst hq
      have hb : b ∈ s.occupied q := mem_occupied.2 (.inl hp.2)
      refine occupied_subset hb (fun x hx => ?_) fun x hx => ?_
      · exact (holder_unlock _ b x).trans (if_neg hx)
      · change (update s.point q (.releasing b) q).refs x = 0
        rw [update_self]
        exact if_neg (Ne.symm hx)
    · refine hsame (fun x => ?_) (update_of_ne hq _ _)
      change ((s.cache.unlock b).buf x).holder = some q ↔ _
      rw [holder_unlock]
      split
      · next hx =>
        rw [hx, hp.2]
        exact iff_of_false nofun fun h => hq (Option.some.inj h).symm
      · exact Iff.rfl
  | put p b hp =>
    refine .inl (fun x hx => ?_)
    rw [mem_occupied] at hx ⊢
    refine hx.imp (fun hx => (holder_put _ b x).symm.trans hx) fun hx => ?_
    change 0 < (update s.point p .running q).refs x at hx
    by_cases hq : q = p
    · rw [hq, update_self, BufPoint.refs_running] at hx
      exact absurd hx (lt_irrefl 0)
    · rw [update_of_ne hq] at hx
      exact hx
  | beginOp p log hp hlog => exact .inl (hsame (fun _ => Iff.rfl) rfl)
  | endOp p log hp hlog => exact .inl (hsame (fun _ => Iff.rfl) rfl)
  | endOpCommit p log hp hlog => exact .inl (hsame (fun _ => Iff.rfl) rfl)
  | bunpin p b tail hlog htail hp hblock hflushed =>
    exact .inl (hsame (fun x => (holder_bunpin _ b x).congr_left) rfl)
  | clearHead p tail hlog htail => exact .inl (hsame (fun _ => Iff.rfl) rfl)
  | endCommit p tail hlog hempty => exact .inl (hsame (fun _ => Iff.rfl) rfl)

/-- A process that is outside after a step was outside before, or has just left the log. -/
theorem Step.outside (h : Step s e t) {q : P} (hq : t.logUse q = .outside) : s.logUse q = .outside ∨ e = .endOp q := by
  -- a step that gives `p` another use of the log
  have hmoved : ∀ {p : P} {use : LogUse}, update s.logUse p use q = .outside → use ≠ .outside →
      s.logUse q = .outside := by
    intro p use hupdate huse
    by_cases hqp : q = p
    · rw [hqp, update_self] at hupdate
      exact absurd hupdate huse
    · rwa [update_of_ne hqp] at hupdate
  have hleft : ∀ {p : P}, update s.logUse p .outside q = .outside →
      s.logUse q = .outside ∨ BufEvent.endOp p = .endOp q := by
    intro p hupdate
    by_cases hqp : q = p
    · rw [hqp]
      exact .inr rfl
    · rw [update_of_ne hqp] at hupdate
      exact .inl hupdate
  cases h with
  | beginOp p log hp hlog => exact .inl (hmoved hq (by decide))
  | endOp p log hp hlog => exact hleft hq
  | endOpCommit p log hp hlog => exact .inl (hmoved hq (by decide))
  | bunpin p b tail hlog htail hp hblock hflushed => exact .inl (hmoved hq (by simp))
  | endCommit p tail hlog hempty => exact hleft hq
  | _ => exact .inl hq

/-- While the log is committing some process runs the commit. -/
theorem Step.committer (h : Step s e t) (hnonneg : 0 ≤ s.log.lh.n)
    (hs : s.log.committing = true → ∃ p tail, s.logUse p = .commit tail)
    (ht : t.log.committing = true) : ∃ p tail, t.logUse p = .commit tail := by
  cases h with
  | logWrite p b log hp hlog =>
    obtain ⟨-, -, -, hcommitting, -⟩ := logWrite_cases hlog hnonneg
    exact hs (hcommitting.symm.trans ht)
  | beginOp p log hp hlog =>
    obtain ⟨hcom, -, rfl⟩ := beginOp_cases hlog
    exact absurd ht (by simp [hcom])
  | endOp p log hp hlog =>
    obtain ⟨-, rfl, -⟩ := endOp_cases hlog
    cases ht
  | endOpCommit p log hp hlog => exact ⟨p, 0, update_self _ _ _⟩
  | bunpin p b tail hlog htail hp hblock hflushed => exact ⟨p, tail + 1, update_self _ _ _⟩
  | endCommit p tail hlog hempty => cases ht
  | _ => exact hs ht

end CacheSystem

namespace OpSystem

variable {P : Type*} [DecidableEq P] {s t : OpSystem P}

/-- What holds between operations and buffers in every reachable state. -/
structure Inv [Fintype P] (s : OpSystem P) : Prop where
  cache : ∃ disk events, CacheSystem.Inv disk events s.sys
  committer : s.sys.log.committing = true → ∃ p tail, s.sys.logUse p = .commit tail
  few : ∀ p, (s.sys.occupied p).card ≤ MAXOPBUFS
  idle : ∀ p, s.sys.logUse p = .outside → s.sys.occupied p = ∅

variable [Fintype P]

/-- The invariant holds before the first operation. -/
theorem Inv.init (start : ℕ) (disk : Disk) : Inv (OpSystem.init start disk : OpSystem P) := by
  have hnone : ∀ p : P, (OpSystem.init start disk : OpSystem P).sys.occupied p = ∅ := by
    intro p
    rw [CacheSystem.occupied, filter_eq_empty_iff]
    intro b _ hb
    obtain hb | hb := hb
    · cases hb
    · exact absurd hb (lt_irrefl 0)
  refine ⟨⟨disk, [], CacheSystem.Inv.init start disk⟩, nofun, fun p => ?_, fun p _ => hnone p⟩
  rw [hnone p]
  exact Nat.zero_le _

/-- Every step keeps the invariant. -/
theorem Inv.step (h : Inv s) (hstep : Step s t) : Inv t := by
  obtain ⟨disk, events, hcache⟩ := h.cache
  obtain ⟨e, hsys, hallows, -⟩ := hstep
  refine ⟨⟨disk, events ++ [e], hcache.step hsys⟩, hsys.committer hcache.log.nonneg h.committer,
    fun p => ?_, fun p hp => ?_⟩
  · obtain hsub | ⟨rfl, -, b, hsub⟩ := hsys.occupied p
    · exact (card_le_card hsub).trans (h.few p)
    · have hlt := hallows.2.2
      have hle := (card_le_card hsub).trans (card_insert_le b _)
      omega
  · have hbefore : s.sys.occupied p = ∅ := by
      obtain hout | rfl := hsys.outside hp
      · exact h.idle p hout
      · exact hallows
    obtain hsub | ⟨rfl, huse, -⟩ := hsys.occupied p
    · rw [hbefore] at hsub
      exact subset_empty.1 hsub
    · exact absurd (huse.symm.trans hp) hallows.1

/-- The invariant holds in every reachable state. -/
theorem Inv.of_reachable (h : Reachable s) : Inv s := by
  obtain ⟨start, disk, hrun⟩ := h
  induction hrun with
  | refl => exact Inv.init start disk
  | tail _ hstep ih => exact ih.step hstep

end OpSystem

end Xv6.Bio
