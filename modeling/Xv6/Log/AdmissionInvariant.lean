import Mathlib.Algebra.Order.BigOperators.Group.Finset
import Mathlib.Order.Lattice.Nat
import Mathlib.Tactic.Linarith
import Xv6.Library.References
import Xv6.Log.Admission

/-!
# The admission invariant

The invariant counts the operations, bounds the logged blocks together with the unused
allowances, and says which entries are pinned and which operations the entries come from. It
holds in every reachable state; while a commit runs every other process is idle, so nothing of
an unfinished operation can be in the log.
-/

namespace Xv6.Log

open Finset Function Library LogHeader LogState Phase

namespace Phase

/-- One for a process inside an operation. -/
def running : Phase → ℤ
  | .inOp _ => 1
  | _ => 0

/-- The part of its allowance that an operation has not used yet. -/
def unused : Phase → ℤ
  | .inOp logged => MAXOPBLOCKS - logged.card
  | _ => 0

/-- The block numbers that an unfinished operation has logged. -/
def blocks : Phase → Finset ℕ
  | .inOp logged => logged
  | _ => ∅

/-- How many entries the loop of `install_trans` has unpinned already. -/
def installed : Phase → ℕ
  | .commit (.installTrans tail) => tail
  | _ => 0

/-- The process runs a commit. -/
def Committing (phase : Phase) : Prop := ∃ point, phase = .commit point

@[simp] theorem running_idle : running .idle = 0 := rfl
@[simp] theorem running_inOp (logged : Finset ℕ) : running (.inOp logged) = 1 := rfl
@[simp] theorem running_commit (point : CommitPoint) : running (.commit point) = 0 := rfl
@[simp] theorem unused_idle : unused .idle = 0 := rfl
@[simp] theorem unused_inOp (logged : Finset ℕ) : unused (.inOp logged) = MAXOPBLOCKS - logged.card := rfl
@[simp] theorem unused_commit (point : CommitPoint) : unused (.commit point) = 0 := rfl
@[simp] theorem blocks_idle : blocks .idle = ∅ := rfl
@[simp] theorem blocks_inOp (logged : Finset ℕ) : blocks (.inOp logged) = logged := rfl
@[simp] theorem blocks_commit (point : CommitPoint) : blocks (.commit point) = ∅ := rfl
@[simp] theorem not_committing_idle : ¬ Committing .idle := by rintro ⟨_, h⟩; cases h
@[simp] theorem not_committing_inOp (logged : Finset ℕ) : ¬ Committing (.inOp logged) := by
  rintro ⟨_, h⟩; cases h

/-- A process is charged at most one whole allowance. -/
theorem unused_le (phase : Phase) : phase.unused ≤ phase.running * MAXOPBLOCKS := by
  cases phase <;> simp

theorem running_nonneg (phase : Phase) : 0 ≤ phase.running := by cases phase <;> simp

/-- Only a commit has installed entries. -/
theorem installed_eq_zero {phase : Phase} (h : ¬ phase.Committing) : phase.installed = 0 := by
  cases phase with
  | idle => rfl
  | inOp logged => rfl
  | commit point => exact absurd ⟨point, rfl⟩ h

/-- A process that neither commits nor runs an operation is idle. -/
theorem eq_idle {phase : Phase} (hrun : phase.running = 0) (hcom : ¬ phase.Committing) : phase = .idle := by
  cases phase with
  | idle => rfl
  | inOp logged => simp at hrun
  | commit point => exact absurd ⟨point, rfl⟩ hcom

end Phase

namespace LogSystem

variable {P : Type*} [Fintype P]

/-- How many entries the running commit has unpinned. -/
def installed (s : LogSystem P) : ℕ := univ.sup fun p => (s.phase p).installed

/-- The invariant of the log and its users. -/
structure Inv (s : LogSystem P) : Prop where
  outstanding : s.log.outstanding = ∑ p, (s.phase p).running
  allowance : ∀ p, (s.phase p).blocks.card ≤ MAXOPBLOCKS
  budget : s.log.lh.n + ∑ p, (s.phase p).unused ≤ LOGBLOCKS
  committing : s.log.committing = true ↔ ∃ p, (s.phase p).Committing
  alone : ∀ p, (s.phase p).Committing → ∀ q ≠ p, s.phase q = .idle
  pinned : s.log.Pinned s.installed
  cover : ∀ b, b ∈ s.log.lh.entries ↔ b ∈ s.ended ∨ ∃ p, b ∈ (s.phase p).blocks

variable {s : LogSystem P}

/-- While no process commits, no entry is unpinned. -/
theorem installed_of_not_committing (h : ∀ p, ¬ (s.phase p).Committing) : s.installed = 0 := by
  simp [installed, fun p => installed_eq_zero (h p)]

/-- The entries unpinned while one process commits and all others are idle. -/
theorem installed_of_commit {p : P} {point : CommitPoint} (hp : s.phase p = .commit point)
    (hothers : ∀ q ≠ p, s.phase q = .idle) : s.installed = (commit point).installed := by
  refine le_antisymm (Finset.sup_le fun q _ => ?_) ?_
  · by_cases hq : q = p
    · rw [hq, hp]
    · rw [hothers q hq]
      exact Nat.zero_le _
  · rw [← hp]
    exact le_sup (f := fun q => (s.phase q).installed) (mem_univ p)

namespace Inv

/-- The invariant holds before any process uses the log. -/
theorem of_initial (h : Initial s) : Inv s := by
  have hentries : s.log.lh.entries = [] := by simp [entries, count, h.empty]
  refine ⟨?_, ?_, ?_, ?_, ?_, ⟨h.empty.ge, ?_, ?_⟩, ?_⟩
  · simp [h.outstanding, h.phase]
  · simp [h.phase]
  · simp [h.empty, h.phase]
  · simp [h.committing, h.phase]
  · simp [h.phase]
  · simp [hentries]
  · simp [hentries, h.pins]
  · simp [hentries, h.ended, h.phase]

/-- An unused allowance is never negative. -/
theorem unused_nonneg (h : Inv s) (p : P) : 0 ≤ (s.phase p).unused := by
  have hcard := h.allowance p
  cases hp : s.phase p with
  | idle => simp
  | commit point => simp
  | inOp logged =>
    rw [hp] at hcard
    simpa using hcard

/-- While the log admits operations, no process commits and every entry has its pin. -/
theorem of_not_committing (h : Inv s) (hcom : s.log.committing = false) :
    (∀ p, ¬ (s.phase p).Committing) ∧ s.log.Pinned 0 := by
  have hnone : ∀ p, ¬ (s.phase p).Committing := fun p hp => by
    have := h.committing.2 ⟨p, hp⟩
    simp [hcom] at this
  refine ⟨hnone, ?_⟩
  rw [← installed_of_not_committing hnone]
  exact h.pinned

variable {p : P} {point : CommitPoint}

/-- The state in which one process commits and all others are idle. -/
theorem of_commit (hp : s.phase p = .commit point)
    (hothers : ∀ q ≠ p, s.phase q = .idle) (hout : s.log.outstanding = 0)
    (hroom : s.log.lh.n ≤ LOGBLOCKS) (hcom : s.log.committing = true)
    (hpinned : s.log.Pinned (commit point).installed)
    (hcover : ∀ b, b ∈ s.log.lh.entries ↔ b ∈ s.ended) : Inv s := by
  have hcases : ∀ q, s.phase q = .idle ∨ s.phase q = .commit point := fun q => by
    by_cases hq : q = p
    · exact .inr (hq ▸ hp)
    · exact .inl (hothers q hq)
  have hrun : ∀ q, (s.phase q).running = 0 := fun q => by rcases hcases q with h | h <;> simp [h]
  have hunused : ∀ q, (s.phase q).unused = 0 := fun q => by rcases hcases q with h | h <;> simp [h]
  have hblocks : ∀ q, (s.phase q).blocks = ∅ := fun q => by rcases hcases q with h | h <;> simp [h]
  refine ⟨by simp [hrun, hout], by simp [hblocks], by simpa [hunused] using hroom,
    by simp [hcom]; exact ⟨p, point, hp⟩, fun q hq r hr => ?_, ?_, by simpa [hblocks] using hcover⟩
  · rcases hcases q with h | h
    · simp [h] at hq
    · by_cases hqp : q = p
      · exact hothers r (hqp ▸ hr)
      · rw [hothers q hqp] at h
        cases h
  · rw [installed_of_commit hp hothers]
    exact hpinned

variable [DecidableEq P]

section

variable (h : Inv s)

include h

variable {log : LogState}

/-- A step of one process while no commit runs and none starts. -/
theorem op_step {x : Phase} {ended : Finset ℕ}
    (hcom : s.log.committing = false) (hx : ¬ x.Committing) (hcom' : log.committing = false)
    (hout : log.outstanding = s.log.outstanding - (s.phase p).running + x.running)
    (hallowed : x.blocks.card ≤ MAXOPBLOCKS)
    (hbudget : log.lh.n + (∑ q, (s.phase q).unused - (s.phase p).unused + x.unused) ≤ LOGBLOCKS)
    (hpinned : log.Pinned 0)
    (hcover : ∀ b, b ∈ log.lh.entries ↔
      b ∈ ended ∨ b ∈ x.blocks ∨ ∃ q ≠ p, b ∈ (s.phase q).blocks) :
    Inv { log, phase := update s.phase p x, ended } := by
  have hnone : ∀ q, ¬ (update s.phase p x q).Committing := by
    rw [Function.forall_update_iff s.phase (p := fun _ y => ¬ y.Committing)]
    exact ⟨hx, fun q _ => (h.of_not_committing hcom).1 q⟩
  have hsum (f : Phase → ℤ) := sum_update_add f s.phase p x
  refine ⟨?_, ?_, ?_, ?_, fun q hq => absurd hq (hnone q), ?_, fun b => ?_⟩
  · rw [hout, h.outstanding]
    linarith [hsum running]
  · rw [Function.forall_update_iff s.phase (p := fun _ y => y.blocks.card ≤ MAXOPBLOCKS)]
    exact ⟨hallowed, fun q _ => h.allowance q⟩
  · linarith [hsum unused]
  · simp only [hcom', Bool.false_eq_true, false_iff, not_exists]
    exact hnone
  · rw [installed_of_not_committing hnone]
    exact hpinned
  · rw [hcover b, Function.exists_update_iff s.phase (p := fun _ y => b ∈ y.blocks)]

/-- The blocks in the log, seen from one process. -/
theorem cover_split (p : P) (b : ℕ) : b ∈ s.log.lh.entries ↔
    b ∈ s.ended ∨ b ∈ (s.phase p).blocks ∨ ∃ q ≠ p, b ∈ (s.phase q).blocks := by
  rw [h.cover b, ← Function.exists_update_iff s.phase (p := fun _ y => b ∈ y.blocks), update_eq_self]

/-- An operation admitted by `begin_op` finds room for its whole allowance. -/
theorem beginOp (hp : s.phase p = .idle) (hlog : s.log.beginOp = some log) :
    Inv { s with log, phase := update s.phase p (.inOp ∅) } := by
  obtain ⟨hcom, hroom, rfl⟩ := beginOp_cases hlog
  have hpinned := (h.of_not_committing hcom).2
  have hcharge : ∑ q, (s.phase q).unused ≤ (∑ q, (s.phase q).running) * MAXOPBLOCKS := by
    rw [sum_mul]
    exact sum_le_sum fun q _ => (s.phase q).unused_le
  rw [h.outstanding] at hroom
  refine h.op_step hcom (by simp) hcom (by simp [hp]) (by simp) ?_
    ⟨hpinned.nonneg, hpinned.nodup, hpinned.pins⟩ fun b => ?_
  · simp only [hp, unused_idle, unused_inOp, card_empty, Nat.cast_zero]
    linarith
  · simpa [hp] using h.cover_split p b

variable {logged : Finset ℕ}

/-- A block is absorbed or appended; an operation that has logged the block before uses no more
of its allowance, and then the block is in the log. -/
theorem logWrite {blockno : BitVec 32} (hp : s.phase p = .inOp logged)
    (hallowed : (insert blockno.toNat logged).card ≤ MAXOPBLOCKS) (hlog : s.log.logWrite blockno = .ok log) :
    Inv { s with log, phase := update s.phase p (.inOp (insert blockno.toNat logged)) } := by
  obtain ⟨-, hroom, hout, hcom', hcases⟩ := logWrite_cases hlog h.pinned.nonneg
  have hcom : s.log.committing = false := by
    by_contra hne
    obtain ⟨q, hq⟩ := h.committing.1 (by simpa using hne)
    by_cases hqp : p = q
    · simp [← hqp, hp] at hq
    · simp [h.alone q hq p hqp] at hp
  have hbudget := h.budget
  have hsplit := h.cover_split p
  have hpinned := (h.of_not_committing hcom).2.logWrite hlog
  have hused : (logged.card : ℤ) ≤ (insert blockno.toNat logged).card :=
    Nat.cast_le.2 (card_le_card (subset_insert _ _))
  rw [hp] at hsplit
  rcases hcases with ⟨hmem, hn, hentries, -⟩ | ⟨hmem, hn, hentries, -⟩
  · refine h.op_step hcom (by simp) (hcom'.trans hcom) (by simp [hp, hout]) hallowed ?_ hpinned fun b => ?_
    · simp only [hp, hn, unused_inOp]
      linarith
    · rw [hentries]
      constructor
      · intro hb
        rcases (hsplit b).1 hb with hb | hb | hb
        · exact .inl hb
        · exact .inr (.inl (mem_insert_of_mem hb))
        · exact .inr (.inr hb)
      · rintro (hb | hb | hb)
        · exact (hsplit b).2 (.inl hb)
        · rcases mem_insert.1 hb with rfl | hb
          · exact hmem
          · exact (hsplit b).2 (.inr (.inl hb))
        · exact (hsplit b).2 (.inr (.inr hb))
  · have hnew : blockno.toNat ∉ logged := fun hb =>
      hmem ((hsplit _).2 (.inr (.inl hb)))
    refine h.op_step hcom (by simp) (hcom'.trans hcom) (by simp [hp, hout]) hallowed ?_ hpinned fun b => ?_
    · simp only [hp, hn, unused_inOp, card_insert_of_notMem hnew]
      push_cast
      linarith
    · rw [hentries, List.mem_append, List.mem_singleton, hsplit b]
      simp only [blocks_inOp, mem_insert]
      constructor
      · rintro ((hb | hb | hb) | hb)
        exacts [.inl hb, .inr (.inl (.inr hb)), .inr (.inr hb), .inr (.inl (.inl hb))]
      · rintro (hb | (hb | hb) | hb)
        exacts [.inl (.inl hb), .inr hb, .inl (.inr (.inl hb)), .inl (.inr (.inr hb))]

/-- An operation that ends while others are outstanding gives its unused allowance back. -/
theorem endOp (hp : s.phase p = .inOp logged) (hlog : s.log.endOp = .ok (log, false)) :
    Inv { log, phase := update s.phase p .idle, ended := s.ended ∪ logged } := by
  obtain ⟨hcom, rfl, -⟩ := endOp_cases hlog
  have hpinned := (h.of_not_committing hcom).2
  have hbudget := h.budget
  have hunused := h.unused_nonneg p
  refine h.op_step hcom (by simp) rfl (by simp [hp]) (by simp) ?_
    ⟨hpinned.nonneg, hpinned.nodup, hpinned.pins⟩ fun b => ?_
  · simp only [unused_idle]
    linarith
  · rw [h.cover_split p b, hp]
    simp [or_assoc]

/-- The last operation to end starts the commit, and then every other process is idle. -/
theorem endOpCommit (hp : s.phase p = .inOp logged) (hlog : s.log.endOp = .ok (log, true)) :
    Inv { log, phase := update s.phase p (.commit (commitStart log))
          ended := s.ended ∪ logged } := by
  obtain ⟨hcom, rfl, hlast⟩ := endOp_cases hlog
  obtain ⟨hnone, hpinned⟩ := h.of_not_committing hcom
  have hlast := hlast.1 rfl
  -- the running processes sum up to the one that ends
  have hzero : ∑ q ∈ univ.erase p, (s.phase q).running = 0 := by
    have hsum := add_sum_erase univ (fun q => (s.phase q).running) (mem_univ p)
    rw [← h.outstanding, hp] at hsum
    simp only [running_inOp] at hsum
    omega
  have hidle : ∀ q ≠ p, s.phase q = .idle := fun q hq =>
    eq_idle ((sum_eq_zero_iff_of_nonneg fun r _ => (s.phase r).running_nonneg).1 hzero q
      (mem_erase.2 ⟨hq, mem_univ q⟩)) (hnone q)
  have hroom : s.log.lh.n ≤ LOGBLOCKS := by
    have hbudget := h.budget
    have hsum := sum_nonneg fun q (_ : q ∈ univ) => h.unused_nonneg q
    linarith
  have hstart : ∀ log : LogState, (commit (commitStart log)).installed = 0 := fun log => by
    unfold commitStart
    split <;> rfl
  refine of_commit (p := p) (update_self _ _ _)
    (fun q hq => by simp [hq, hidle q hq]) hlast hroom rfl ?_ fun b => ?_
  · rw [hstart]
    exact ⟨hpinned.nonneg, hpinned.nodup, hpinned.pins⟩
  · rw [h.cover_split p b, hp]
    simp only [blocks_inOp, mem_union, ← or_assoc]
    refine or_iff_left ?_
    rintro ⟨q, hq, hb⟩
    simp [hidle q hq] at hb

/-- What holds while a process commits, stated for that process alone. -/
theorem commit_facts (hp : s.phase p = .commit point) :
    (∀ q ≠ p, s.phase q = .idle) ∧ s.log.outstanding = 0 ∧ s.log.lh.n ≤ LOGBLOCKS ∧
      s.log.committing = true ∧ s.log.Pinned (commit point).installed ∧
      ∀ b, b ∈ s.log.lh.entries ↔ b ∈ s.ended := by
  have hothers := h.alone p ⟨point, hp⟩
  have hsum : ∀ f : Phase → ℤ, f .idle = 0 → ∑ q, f (s.phase q) = f (.commit point) := fun f hf => by
    rw [sum_eq_single p (fun q _ hq => by rw [hothers q hq, hf]) (fun hnot => absurd (mem_univ p) hnot), hp]
  refine ⟨hothers, ?_, ?_, h.committing.2 ⟨p, point, hp⟩, installed_of_commit hp hothers ▸ h.pinned, fun b => ?_⟩
  · rw [h.outstanding, hsum _ running_idle, running_commit]
  · simpa [hsum _ unused_idle] using h.budget
  · rw [h.cover_split p b, hp]
    simp only [blocks_commit, notMem_empty, false_or]
    refine or_iff_left ?_
    rintro ⟨q, hq, hb⟩
    simp [hothers q hq] at hb

/-- Each step of a commit keeps the entries and drops at most the pin of the block it installs,
until the header is cleared. -/
theorem commit (hp : s.phase p = .commit point) :
    Inv { log := (commitStep s.log point).1
          phase := update s.phase p (.commit (commitStep s.log point).2)
          ended := if (commitStep s.log point).2 = .writeClear then ∅ else s.ended } := by
  obtain ⟨hothers, hout, hroom, hcom, hpinned, hcover⟩ := h.commit_facts hp
  have hothers' : ∀ x, ∀ q ≠ p, update s.phase p x q = .idle := fun x q hq => by rw [update_of_ne hq, hothers q hq]
  cases point with
  | writeLog tail =>
    simp only [commitStep]
    split
    · exact of_commit (update_self _ _ _) (hothers' _) hout hroom hcom
        ⟨hpinned.nonneg, hpinned.nodup, hpinned.pins⟩ hcover
    · exact of_commit (update_self _ _ _) (hothers' _) hout hroom hcom
        ⟨hpinned.nonneg, hpinned.nodup, hpinned.pins⟩ hcover
  | installTrans tail =>
    simp only [commitStep]
    split
    · next htail =>
      have hnext := hpinned.bunpin htail
      exact of_commit (update_self _ _ _) (hothers' _) hout hroom hcom ⟨hnext.nonneg, hnext.nodup, hnext.pins⟩ hcover
    · next htail =>
      have hempty : s.log.clearHead.lh.entries = [] := rfl
      refine of_commit (update_self _ _ _) (hothers' _) hout ?_ hcom
        (hpinned.clearHead (Nat.le_of_not_lt htail) _) fun b => ?_
      · simp [clearHead]
      · simp [hempty]
  | writeClear =>
    exact of_commit (update_self _ _ _) (hothers' _) hout hroom hcom
      ⟨hpinned.nonneg, hpinned.nodup, hpinned.pins⟩ hcover
  | finish => exact of_commit (update_self _ _ _) (hothers' _) hout hroom hcom hpinned hcover

/-- The end of the commit leaves every process idle. -/
theorem finish (hp : s.phase p = .commit .finish) :
    Inv { s with log := s.log.endCommit, phase := update s.phase p .idle } := by
  obtain ⟨hothers, hout, hroom, -, hpinned, hcover⟩ := h.commit_facts hp
  have hidle : ∀ q, update s.phase p .idle q = .idle := by
    rw [Function.forall_update_iff s.phase (p := fun _ y => y = .idle)]
    exact ⟨rfl, hothers⟩
  refine ⟨?_, ?_, ?_, ?_, ?_, ?_, fun b => ?_⟩
  · simpa [hidle, endCommit] using hout
  · simp [hidle]
  · simpa [hidle, endCommit] using hroom
  · simp [hidle, endCommit]
  · simp [hidle]
  · rw [installed_of_not_committing (by simp [hidle])]
    exact ⟨hpinned.nonneg, hpinned.nodup, hpinned.pins⟩
  · simpa [hidle, endCommit] using hcover b

/-- Every step keeps the invariant. -/
theorem step {s' : LogSystem P} (hstep : Step s s') : Inv s' := by
  cases hstep with
  | beginOp p log hp hlog => exact h.beginOp hp hlog
  | logWrite p logged blockno log hp hallowed hlog => exact h.logWrite hp hallowed hlog
  | endOp p logged log hp hlog => exact h.endOp hp hlog
  | endOpCommit p logged log hp hlog => exact h.endOpCommit hp hlog
  | commit p point hp _ => exact h.commit hp
  | finish p hp => exact h.finish hp

end

/-- The invariant holds in every reachable state. -/
theorem of_reachable (h : Reachable s) : Inv s := by
  obtain ⟨init, hinit, hrun⟩ := h
  induction hrun with
  | refl => exact of_initial hinit
  | tail _ hstep ih => exact ih.step hstep

end Inv

variable [DecidableEq P]

/-- **Admission to the log.** In every state that some interleaving reaches, the entries are
pairwise distinct; each carries exactly one pin, until the running commit has installed it and it
carries none, and no other block carries any; the entries and the unused allowances fit in the
log; and while a process runs the commit, no operation is outstanding, no `begin_op` or
`log_write` succeeds, and the entries are exactly the blocks logged by the operations that ended
since the log was last cleared. -/
theorem admission_safe {s : LogSystem P} (h : Reachable s) :
    s.log.lh.entries.Nodup ∧
      (∀ i < s.log.lh.count, s.log.pins (s.log.lh.blockAt i) =
        if ∃ p, i < (s.phase p).installed then 0 else 1) ∧
      (∀ b ∉ s.log.lh.entries, s.log.pins b = 0) ∧
      s.log.lh.n + ∑ p, (s.phase p).unused ≤ LOGBLOCKS ∧
      ∀ p point, s.phase p = .commit point →
        s.log.outstanding = 0 ∧ (∀ q logged, s.phase q ≠ .inOp logged) ∧ s.log.beginOp = none ∧
          (∀ blockno log, s.log.logWrite blockno ≠ .ok log) ∧
          ∀ b, b ∈ s.log.lh.entries ↔ b ∈ s.ended := by
  have hinv := Inv.of_reachable h
  refine ⟨hinv.pinned.nodup, fun i hi => ?_, fun b hb => ?_, hinv.budget, fun p point hp => ?_⟩
  · have hlt : i < s.log.lh.entries.length := by rw [length_entries]; exact hi
    have hget : s.log.lh.entries[i] = s.log.lh.blockAt i := by simp [entries]
    -- in a list without repetitions an entry survives a drop exactly when its index does
    have hdrop : s.log.lh.blockAt i ∈ s.log.lh.entries.drop s.installed ↔ s.installed ≤ i := by
      rw [← hget, List.mem_drop_iff_getElem]
      constructor
      · rintro ⟨j, hj, heq⟩
        have := (List.Nodup.getElem_inj_iff hinv.pinned.nodup).1 heq
        omega
      · intro ht
        exact ⟨i - s.installed, by omega, by congr 1; omega⟩
    have hlt_iff : i < s.installed ↔ ∃ p, i < (s.phase p).installed := by simp [installed, Finset.lt_sup_iff]
    rw [hinv.pinned.pins]
    simp only [hdrop, ← hlt_iff]
    by_cases hall : s.installed ≤ i
    · rw [if_pos hall, if_neg (by omega)]
    · rw [if_neg hall, if_pos (by omega)]
  · rw [hinv.pinned.pins b, if_neg (fun hb' => hb (List.mem_of_mem_drop hb'))]
  · obtain ⟨hothers, hout, -, hcom, -, hcover⟩ := hinv.commit_facts hp
    refine ⟨hout, fun q logged hq => ?_, by simp [beginOp, hcom], fun blockno log hlog => ?_, hcover⟩
    · by_cases hqp : q = p
      · simp [hqp, hp] at hq
      · simp [hothers q hqp] at hq
    · have := (logWrite_cases hlog hinv.pinned.nonneg).1
      omega

/-- One process, an empty disk and an empty log. -/
def freshSystem : LogSystem Unit where
  log := boot 2 fun _ _ => 0
  phase := fun _ => .idle
  ended := ∅

theorem freshSystem_initial : Initial freshSystem := ⟨rfl, rfl, rfl, fun _ => rfl, fun _ => rfl, rfl⟩

/-- The pins of the entries are dropped one by one while the commit installs them: after the
only block of a transaction is installed, and before the header is cleared, it is still an entry
but carries no pin. -/
theorem installed_entry_without_pin :
    ¬ ∀ s : LogSystem Unit, Reachable s → ∀ b ∈ s.log.lh.entries, s.log.pins b = 1 := by
  intro hall
  have hbegin := Step.beginOp freshSystem () _ rfl rfl
  have hrun := (((((Relation.ReflTransGen.single hbegin).tail
    (Step.logWrite _ () ∅ 50 _ rfl (by decide) rfl)).tail
    (Step.endOpCommit _ () _ _ rfl rfl)).tail
    (Step.commit _ () (.writeLog 0) rfl (by decide))).tail
    (Step.commit _ () (.writeLog 1) rfl (by decide))).tail
    (Step.commit _ () (.installTrans 0) rfl (by decide))
  exact absurd (hall _ ⟨_, freshSystem_initial, hrun⟩ 50 (by decide)) (by decide)

/-- The states of the invariant include one in which an operation has used part of its allowance. -/
theorem admission_safe_logged : ∃ s : LogSystem Unit, Reachable s ∧ s.log.lh.entries = [50] ∧
    s.log.lh.n + ∑ p, (s.phase p).unused ≤ LOGBLOCKS := by
  have hbegin := Step.beginOp freshSystem () _ rfl rfl
  have hrun := (Relation.ReflTransGen.single hbegin).tail
    (Step.logWrite _ () ∅ 50 _ rfl (by decide) rfl)
  have hreach : Reachable _ := ⟨_, freshSystem_initial, hrun⟩
  exact ⟨_, hreach, rfl, (admission_safe hreach).2.2.2.1⟩

end LogSystem

end Xv6.Log
