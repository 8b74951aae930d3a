import Mathlib.Algebra.Order.Interval.Finset.SuccPred
import Mathlib.Data.Nat.SuccPred
import Mathlib.Order.Interval.Finset.Nat
import Xv6.Log.AdmissionInvariant

/-!
# Absorption in a full log

`log_write` tests the capacity of the log before it looks for the block among the entries. While the
operations keep to their allowances the test can only fail for a block that is logged already: a block
that is not yet in the log finds room, since the operation that logs it has not used its allowance up.
The test does fail when a block is logged once more in a log that is completely full, and three
operations which use their whole allowances fill it.
-/

namespace Xv6.Log

open Function Library LogState

namespace LogSystem

variable {P : Type*} [Fintype P] {s : LogSystem P} {p : P} {logged : Finset ℕ} {blockno : BitVec 32}

/-- A block that is not in the log finds room in it. -/
theorem Inv.room_of_fresh (h : Inv s) (hp : s.phase p = .inOp logged)
    (hallowed : (insert blockno.toNat logged).card ≤ MAXOPBLOCKS)
    (hfresh : blockno.toNat ∉ s.log.lh.entries) : s.log.lh.n < LOGBLOCKS := by
  have hnew : blockno.toNat ∉ logged := by
    intro hmem
    refine hfresh ((h.cover _).2 (.inr ⟨p, ?_⟩))
    rw [hp]
    exact hmem
  rw [Finset.card_insert_of_notMem hnew] at hallowed
  have hunused : (s.phase p).unused ≤ ∑ q, (s.phase q).unused :=
    Finset.single_le_sum (fun q _ => h.unused_nonneg q) (Finset.mem_univ p)
  rw [hp, Phase.unused_inOp] at hunused
  have hbudget := h.budget
  omega

/-- The log never holds more blocks than it has room for. -/
theorem Inv.n_le (h : Inv s) : s.log.lh.n ≤ LOGBLOCKS := by
  have hunused : 0 ≤ ∑ q, (s.phase q).unused := Finset.sum_nonneg fun q _ => h.unused_nonneg q
  have hbudget := h.budget
  omega

/-- An operation is counted as outstanding. -/
theorem Inv.one_le_outstanding (h : Inv s) (hp : s.phase p = .inOp logged) : 1 ≤ s.log.outstanding := by
  have hrunning : (s.phase p).running ≤ ∑ q, (s.phase q).running :=
    Finset.single_le_sum (fun q _ => Phase.running_nonneg (s.phase q)) (Finset.mem_univ p)
  rw [hp, Phase.running_inOp] at hrunning
  rw [h.outstanding]
  exact hrunning

/-- The capacity test comes first. -/
theorem logWrite_eq_tooBig_iff (log : LogState) (blockno : BitVec 32) :
    log.logWrite blockno = .error .tooBigTransaction ↔ (LOGBLOCKS : ℤ) ≤ log.lh.n := by
  unfold LogState.logWrite
  split
  · next hfull => exact ⟨fun _ => hfull, fun _ => rfl⟩
  · next hroom =>
    refine ⟨fun h => ?_, fun h => absurd h hroom⟩
    split at h
    · cases h
    · simp only at h
      split at h <;> cases h

variable [DecidableEq P]

/-- **Absorption and overflow.** In every state that some interleaving reaches, a `log_write` of an
operation which keeps to its allowance panics exactly when the log is completely full and the block is
in the log already. -/
theorem logWrite_overflow_iff (h : Reachable s) (hp : s.phase p = .inOp logged)
    (hallowed : (insert blockno.toNat logged).card ≤ MAXOPBLOCKS) :
    s.log.logWrite blockno = .error .tooBigTransaction ↔
      s.log.lh.n = LOGBLOCKS ∧ blockno.toNat ∈ s.log.lh.entries := by
  have hinv := Inv.of_reachable h
  rw [logWrite_eq_tooBig_iff]
  constructor
  · intro hfull
    refine ⟨le_antisymm hinv.n_le hfull, ?_⟩
    by_contra hfresh
    have := hinv.room_of_fresh hp hallowed hfresh
    omega
  · intro hfull
    exact hfull.1.ge

/-- A block that is not in the log is appended. -/
theorem Reachable.logWrite_fresh (h : Reachable s) (blockno : BitVec 32) (hp : s.phase p = .inOp logged)
    (hallowed : (insert blockno.toNat logged).card ≤ MAXOPBLOCKS) (hfresh : blockno.toNat ∉ s.log.lh.entries) :
    ∃ s', Reachable s' ∧ s'.log.lh.n = s.log.lh.n + 1 ∧
      s'.log.lh.entries = s.log.lh.entries ++ [blockno.toNat] ∧
      s'.phase = update s.phase p (.inOp (insert blockno.toNat logged)) := by
  have hinv := Inv.of_reachable h
  have hroom := hinv.room_of_fresh hp hallowed hfresh
  have hout := hinv.one_le_outstanding hp
  obtain ⟨log, hlog⟩ := exists_logWrite blockno hroom hout
  obtain ⟨-, -, -, -, ⟨hmem, -⟩ | ⟨-, hn, hentries, -⟩⟩ := LogState.logWrite_cases hlog hinv.pinned.nonneg
  · exact absurd hmem hfresh
  · obtain ⟨init, hinit, hrun⟩ := h
    exact ⟨_, ⟨init, hinit, hrun.tail (Step.logWrite s p logged blockno log hp hallowed hlog)⟩, hn, hentries, rfl⟩

/-- An operation that has logged nothing yet logs `k` blocks whose numbers follow one another and
exceed those in the log. -/
theorem Reachable.logWrite_range (h : Reachable s) (hp : s.phase p = .inOp ∅) (first : ℕ)
    (hfirst : first + MAXOPBLOCKS ≤ 2 ^ 32) (hbelow : ∀ b ∈ s.log.lh.entries, b < first) (k : ℕ)
    (hk : k ≤ MAXOPBLOCKS) :
    ∃ s', Reachable s' ∧ s'.log.lh.n = s.log.lh.n + k ∧ (∀ b ∈ s'.log.lh.entries, b < first + k) ∧
      s'.phase = update s.phase p (.inOp (Finset.Ico first (first + k))) := by
  induction k with
  | zero =>
    refine ⟨s, h, by simp, by simpa using hbelow, ?_⟩
    rw [Nat.add_zero, Finset.Ico_self, ← hp, update_eq_self]
  | succ k ih =>
    obtain ⟨t, ht, hn, hentries, hphase⟩ := ih (by omega)
    have hnum : (BitVec.ofNat 32 (first + k)).toNat = first + k := by
      rw [BitVec.toNat_ofNat, Nat.mod_eq_of_lt (by omega)]
    have hinsert : insert (first + k) (Finset.Ico first (first + k)) =
        Finset.Ico first (first + (k + 1)) := Finset.insert_Ico_right_eq_Ico_add_one (by omega)
    have hpt : t.phase p = .inOp (Finset.Ico first (first + k)) := by
      rw [hphase, update_self]
    obtain ⟨u, hu, hun, huentries, huphase⟩ := ht.logWrite_fresh
      (BitVec.ofNat 32 (first + k)) hpt
      (by rw [hnum, hinsert, Nat.card_Ico]; omega)
      (by rw [hnum]; exact fun hmem => lt_irrefl _ (hentries _ hmem))
    refine ⟨u, hu, by push_cast; omega, fun b hb => ?_, ?_⟩
    · rw [huentries, hnum, List.mem_append, List.mem_singleton] at hb
      obtain hb | rfl := hb
      · have := hentries b hb
        omega
      · omega
    · rw [huphase, hphase, hnum, hinsert, update_idem]

/-- Three processes, an empty disk and an empty log. -/
def threeProcesses : LogSystem (Fin 3) where
  log := boot 2 fun _ _ => 0
  phase := fun _ => .idle
  ended := ∅

/-- Three operations that use their whole allowances fill the log. -/
theorem exists_full_log : ∃ s : LogSystem (Fin 3), Reachable s ∧ s.log.lh.n = LOGBLOCKS ∧
    s.phase 0 = .inOp (Finset.Ico 100 110) ∧ 100 ∈ s.log.lh.entries := by
  have hinit : Initial threeProcesses := ⟨rfl, rfl, rfl, fun _ => rfl, fun _ => rfl, rfl⟩
  -- all three operations are admitted while the log is empty
  have hbegin := (((Relation.ReflTransGen.single
    (Step.beginOp threeProcesses 0 _ rfl rfl)).tail
    (Step.beginOp _ 1 _ rfl rfl)).tail
    (Step.beginOp _ 2 _ rfl rfl))
  obtain ⟨s0, h0, hn0, he0, hp0⟩ := Reachable.logWrite_range (p := 0) ⟨_, hinit, hbegin⟩ rfl
    100 (by decide) (by intro b hb; cases hb) MAXOPBLOCKS le_rfl
  obtain ⟨s1, h1, hn1, he1, hp1⟩ := h0.logWrite_range (p := 1) (by rw [hp0]; rfl)
    110 (by decide) he0 MAXOPBLOCKS le_rfl
  obtain ⟨s2, h2, hn2, he2, hp2⟩ := h1.logWrite_range (p := 2) (by rw [hp1, hp0]; rfl)
    120 (by decide) he1 MAXOPBLOCKS le_rfl
  have hphase : s2.phase 0 = .inOp (Finset.Ico 100 110) := by
    rw [hp2, hp1, hp0]
    rfl
  refine ⟨s2, h2, ?_, hphase, ?_⟩
  · rw [hn2, hn1, hn0]
    rfl
  · refine ((Inv.of_reachable h2).cover 100).2 (.inr ⟨0, ?_⟩)
    rw [hphase, Phase.blocks_inOp, Finset.mem_Ico]
    omega

/-- In a full log even a block that is logged already makes `log_write` panic. -/
theorem absorption_overflows :
    ¬ ∀ s : LogSystem (Fin 3), Reachable s → ∀ p logged (blockno : BitVec 32),
      s.phase p = .inOp logged → (insert blockno.toNat logged).card ≤ MAXOPBLOCKS →
        s.log.logWrite blockno ≠ .error .tooBigTransaction := by
  intro hall
  obtain ⟨s, hs, hn, hp, -⟩ := exists_full_log
  exact hall s hs 0 _ 100 hp (by decide) ((logWrite_eq_tooBig_iff _ _).2 hn.ge)

/-- Both sides occur: the full log refuses a block that it contains. -/
theorem logWrite_overflow_iff_full : ∃ s : LogSystem (Fin 3), Reachable s ∧
    s.phase 0 = .inOp (Finset.Ico 100 110) ∧ s.log.logWrite 100 = .error .tooBigTransaction := by
  obtain ⟨s, hs, hn, hp, hmem⟩ := exists_full_log
  exact ⟨s, hs, hp, (logWrite_overflow_iff hs hp (by decide)).2 ⟨hn, hmem⟩⟩

end LogSystem

end Xv6.Log
