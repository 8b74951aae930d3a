import Mathlib.Algebra.BigOperators.Ring.Finset
import Mathlib.Data.Fintype.BigOperators
import Mathlib.Logic.Relation
import Xv6.Log.JournalTrace

/-!
# Admission of operations to the log

Any finite number of processes call `begin_op`, `log_write` and `end_op`, and the process whose
`end_op` finds no other operation outstanding runs `commit`, one disk write at a time. Each
operation logs at most `MAXOPBLOCKS` distinct block numbers. The reservation test of `begin_op`
charges every outstanding operation its whole allowance; what is preserved is weaker and exact:
the logged blocks plus the allowances still unused fit in the log.
-/

namespace Xv6.Log

open Function Library List LogHeader LogState

/-- Where a process is inside `commit`. -/
inductive CommitPoint
  | writeLog (tail : ℕ)
  | installTrans (tail : ℕ)
  | writeClear
  | finish
  deriving DecidableEq

/-- What a process is doing with the log. An operation carries the set of block numbers it has
logged so far. -/
inductive Phase
  | idle
  | inOp (logged : Finset ℕ)
  | commit (point : CommitPoint)
  deriving DecidableEq

/-- One step of `commit`: each contains at most one disk write. -/
def commitStep (s : LogState) : CommitPoint → LogState × CommitPoint
  | .writeLog tail =>
    if tail < s.lh.count then (s.writeLogStep tail, .writeLog (tail + 1))
    else (s.writeHead, .installTrans 0)
  | .installTrans tail =>
    if tail < s.lh.count then (installTransStep false s tail, .installTrans (tail + 1))
    else (s.clearHead, .writeClear)
  | .writeClear => (s.writeHead, .finish)
  | .finish => (s, .finish)

/-- Where `commit` starts: an empty transaction writes nothing. -/
def commitStart (s : LogState) : CommitPoint := if s.lh.n > 0 then .writeLog 0 else .finish

/-- The log and the processes that use it. `ended` collects the blocks logged by the operations
that ended since the log was last cleared. -/
structure LogSystem (P : Type*) where
  log : LogState
  phase : P → Phase
  ended : Finset ℕ

namespace LogSystem

variable {P : Type*} [DecidableEq P]

/-- The interleaved steps of the processes. A `begin_op` that has to sleep takes no step. -/
inductive Step : LogSystem P → LogSystem P → Prop
  | beginOp (s : LogSystem P) (p : P) (log : LogState) (hp : s.phase p = .idle)
      (hlog : s.log.beginOp = some log) :
      Step s { s with log, phase := update s.phase p (.inOp ∅) }
  | logWrite (s : LogSystem P) (p : P) (logged : Finset ℕ) (blockno : BitVec 32) (log : LogState)
      (hp : s.phase p = .inOp logged) (hallowed : (insert blockno.toNat logged).card ≤ MAXOPBLOCKS)
      (hlog : s.log.logWrite blockno = .ok log) :
      Step s { s with log, phase := update s.phase p (.inOp (insert blockno.toNat logged)) }
  | endOp (s : LogSystem P) (p : P) (logged : Finset ℕ) (log : LogState)
      (hp : s.phase p = .inOp logged) (hlog : s.log.endOp = .ok (log, false)) :
      Step s { log, phase := update s.phase p .idle, ended := s.ended ∪ logged }
  | endOpCommit (s : LogSystem P) (p : P) (logged : Finset ℕ) (log : LogState)
      (hp : s.phase p = .inOp logged) (hlog : s.log.endOp = .ok (log, true)) :
      Step s { log, phase := update s.phase p (.commit (commitStart log))
               ended := s.ended ∪ logged }
  | commit (s : LogSystem P) (p : P) (point : CommitPoint) (hp : s.phase p = .commit point)
      (hpoint : point ≠ .finish) :
      Step s { log := (commitStep s.log point).1
               phase := update s.phase p (.commit (commitStep s.log point).2)
               ended := if (commitStep s.log point).2 = .writeClear then ∅ else s.ended }
  | finish (s : LogSystem P) (p : P) (hp : s.phase p = .commit .finish) :
      Step s { s with log := s.log.endCommit, phase := update s.phase p .idle }

/-- The log after `initlog`, with no process using it. -/
structure Initial (s : LogSystem P) : Prop where
  empty : s.log.lh.n = 0
  outstanding : s.log.outstanding = 0
  committing : s.log.committing = false
  pins : ∀ b, s.log.pins b = 0
  phase : ∀ p, s.phase p = .idle
  ended : s.ended = ∅

/-- The states that some interleaving reaches. -/
def Reachable (s : LogSystem P) : Prop := ∃ init, Initial init ∧ Relation.ReflTransGen Step init s

end LogSystem

variable {blockno : BitVec 32}

namespace LogHeader

/-- The loop count of a header with a nonnegative count. -/
theorem count_cast {lh : LogHeader} (h : 0 ≤ lh.n) : (lh.count : ℤ) = lh.n := by
  unfold count; omega

theorem length_entries (lh : LogHeader) : lh.entries.length = lh.count := by simp [entries]

/-- Storing the block number that an entry already has changes nothing. -/
theorem entries_setBlock_same {lh : LogHeader} {i : ℕ}
    (h : lh.blockAt i = blockno.toNat) : (lh.setBlock i blockno).entries = lh.entries := by
  refine map_congr_left fun j _ => ?_
  by_cases hj : j < LOGBLOCKS
  · by_cases hij : j = i
    · subst hij
      simp [blockAt, setBlock, hj] at h ⊢
      exact h.symm
    · simp [blockAt, setBlock, hj, hij]
  · simp [blockAt, hj]

/-- Storing a block number behind the entries in use and raising the count appends it. -/
theorem entries_append {lh : LogHeader} (blockno : BitVec 32) (h : 0 ≤ lh.n) (hroom : lh.n < LOGBLOCKS) :
    entries { lh.setBlock lh.count blockno with n := lh.n + 1 } =
      lh.entries ++ [blockno.toNat] := by
  have hcount : count { lh.setBlock lh.count blockno with n := lh.n + 1 } = lh.count + 1 := by
    unfold count; simp only; omega
  have hlt : lh.count < LOGBLOCKS := by unfold count; omega
  have hnew : blockAt { lh.setBlock lh.count blockno with n := lh.n + 1 } lh.count =
      blockno.toNat := by
    simp [blockAt, setBlock, hlt]
  have hold : ∀ j ∈ List.range lh.count,
      blockAt { lh.setBlock lh.count blockno with n := lh.n + 1 } j = lh.blockAt j := by
    intro j hj
    have hj := mem_range.1 hj
    simp [blockAt, setBlock, show j < LOGBLOCKS by omega, show j ≠ lh.count by omega]
  rw [entries, hcount, range_succ, map_append, map_congr_left hold, map_singleton, hnew, entries]

end LogHeader

namespace LogState

variable {s : LogState}

/-- The search of `log_write` runs off the end exactly for a block that is not logged yet. -/
theorem absorbIndex_eq_iff (blockno : BitVec 32) (hn : 0 ≤ s.lh.n) :
    (s.absorbIndex blockno : ℤ) = s.lh.n ↔ blockno.toNat ∉ s.lh.entries := by
  rw [← count_cast hn, ← length_entries, absorbIndex, Nat.cast_inj]
  exact idxOf_eq_length_iff

variable {s' : LogState}

/-- What a successful `log_write` does: it absorbs a block that is logged already, and appends
and pins any other. -/
theorem logWrite_cases (h : s.logWrite blockno = .ok s') (hn : 0 ≤ s.lh.n) :
    1 ≤ s.outstanding ∧ s.lh.n < LOGBLOCKS ∧
      s'.outstanding = s.outstanding ∧ s'.committing = s.committing ∧
      ((blockno.toNat ∈ s.lh.entries ∧ s'.lh.n = s.lh.n ∧ s'.lh.entries = s.lh.entries ∧
          s'.pins = s.pins) ∨
        (blockno.toNat ∉ s.lh.entries ∧ s'.lh.n = s.lh.n + 1 ∧
          s'.lh.entries = s.lh.entries ++ [blockno.toNat] ∧
          s'.pins = update s.pins blockno.toNat (s.pins blockno.toNat + 1))) := by
  unfold logWrite at h
  split at h
  · cases h
  · next hroom =>
    have hroom : s.lh.n < LOGBLOCKS := by omega
    split at h
    · cases h
    · next hout =>
      have hindex := absorbIndex_eq_iff blockno hn
      by_cases hmem : blockno.toNat ∈ s.lh.entries
      · have hlt : s.absorbIndex blockno < s.lh.entries.length := idxOf_lt_length_of_mem hmem
        have hsame : s.lh.blockAt (s.absorbIndex blockno) = blockno.toNat := by
          have hget : s.lh.entries[s.absorbIndex blockno] = blockno.toNat := getElem_idxOf hlt
          simpa [entries] using hget
        simp only [show (s.lh.setBlock (s.absorbIndex blockno) blockno).n = s.lh.n from rfl,
          hindex, hmem, not_true_eq_false, if_false, Except.ok.injEq] at h
        subst h
        exact ⟨by omega, hroom, rfl, rfl, .inl ⟨hmem, rfl, entries_setBlock_same hsame, rfl⟩⟩
      · have hlast : s.absorbIndex blockno = s.lh.count := by
          have := hindex.2 hmem
          rw [← count_cast hn] at this
          exact Nat.cast_inj.1 this
        simp only [show (s.lh.setBlock (s.absorbIndex blockno) blockno).n = s.lh.n from rfl,
          hindex, hmem, not_false_eq_true, if_true, Except.ok.injEq] at h
        subst h
        refine ⟨by omega, hroom, rfl, rfl, .inr ⟨hmem, rfl, ?_, rfl⟩⟩
        rw [hlast]
        exact entries_append blockno hn hroom

/-- A `log_write` inside an operation succeeds while the log has room. -/
theorem exists_logWrite (blockno : BitVec 32) (hroom : s.lh.n < LOGBLOCKS)
    (hout : 1 ≤ s.outstanding) : ∃ s', s.logWrite blockno = .ok s' := by
  unfold logWrite
  rw [if_neg (by omega), if_neg (by omega)]
  simp only
  split
  · exact ⟨_, rfl⟩
  · exact ⟨_, rfl⟩

/-- A `log_write` changes neither the disk nor the contents of a buffer. -/
theorem logWrite_contents (h : s.logWrite blockno = .ok s') : s'.disk = s.disk ∧ s'.cache = s.cache := by
  unfold logWrite at h
  split at h
  · cases h
  · split at h
    · cases h
    · simp only at h
      split at h
      · cases h
        exact ⟨rfl, rfl⟩
      · cases h
        exact ⟨rfl, rfl⟩

/-- An operation is admitted while no commit runs and its whole allowance fits in the log. -/
theorem beginOp_cases (h : s.beginOp = some s') : s.committing = false ∧
    s.lh.n + (s.outstanding + 1) * MAXOPBLOCKS ≤ LOGBLOCKS ∧ s' = { s with outstanding := s.outstanding + 1 } := by
  unfold beginOp at h
  split at h
  · cases h
  · next hcom =>
    split at h
    · cases h
    · next hroom =>
      cases h
      exact ⟨by simpa using hcom, by omega, rfl⟩

/-- An operation ends while no commit runs, and the last one to end starts the commit. -/
theorem endOp_cases {flag : Bool} (h : s.endOp = .ok (s', flag)) : s.committing = false ∧
    s' = { s with outstanding := s.outstanding - 1, committing := flag } ∧
      (flag = true ↔ s.outstanding - 1 = 0) := by
  unfold endOp at h
  simp only at h
  split at h
  · cases h
  · next hcom =>
    have hcom : s.committing = false := by simpa using hcom
    split at h
    · next hlast =>
      cases h
      exact ⟨hcom, rfl, by simpa using hlast⟩
    · next hlast =>
      cases h
      exact ⟨hcom, by rw [hcom], by simpa using hlast⟩

/-- The entries are distinct, and exactly those from `tail` on carry a pin. -/
structure Pinned (s : LogState) (tail : ℕ) : Prop where
  nonneg : 0 ≤ s.lh.n
  nodup : s.lh.entries.Nodup
  pins : ∀ n, s.pins n = if n ∈ s.lh.entries.drop tail then 1 else 0

namespace Pinned

variable {tail : ℕ}

/-- A successful `log_write` pins the block that it adds. -/
theorem logWrite (h : s.Pinned 0) (hw : s.logWrite blockno = .ok s') : s'.Pinned 0 := by
  obtain ⟨-, -, -, -, hcases⟩ := logWrite_cases hw h.nonneg
  have hnonneg := h.nonneg
  obtain ⟨-, hn, hentries, hpins⟩ | ⟨hmem, hn, hentries, hpins⟩ := hcases
  · exact ⟨by omega, hentries ▸ h.nodup, fun n => by rw [hpins, hentries, h.pins]⟩
  · refine ⟨by omega, ?_, fun n => ?_⟩
    · rw [hentries]
      exact h.nodup.append (nodup_singleton _) (by simpa using hmem)
    · rw [hpins, hentries]
      by_cases hnb : n = blockno.toNat
      · subst hnb
        simp [h.pins, hmem]
      · simp [hnb, h.pins]

/-- The block of the next entry to install is pinned, and no later entry has it. -/
theorem next (h : s.Pinned tail) (htail : tail < s.lh.count) :
    s.lh.entries.drop tail = s.lh.blockAt tail :: s.lh.entries.drop (tail + 1) ∧
      s.lh.blockAt tail ∉ s.lh.entries.drop (tail + 1) ∧ s.pins (s.lh.blockAt tail) = 1 := by
  have hlt : tail < s.lh.entries.length := by rw [length_entries]; exact htail
  have hdrop : s.lh.entries.drop tail = s.lh.blockAt tail :: s.lh.entries.drop (tail + 1) := by
    rw [drop_eq_getElem_cons hlt]
    simp [entries]
  have hnodup := (drop_sublist tail s.lh.entries).nodup h.nodup
  rw [hdrop] at hnodup
  refine ⟨hdrop, (nodup_cons.1 hnodup).1, ?_⟩
  rw [h.pins, hdrop, if_pos mem_cons_self]

/-- Installing an entry drops its pin. -/
theorem bunpin (h : s.Pinned tail) (htail : tail < s.lh.count) :
    (s.bunpin (s.lh.blockAt tail)).Pinned (tail + 1) := by
  obtain ⟨hdrop, hnot, hpin⟩ := h.next htail
  refine ⟨h.nonneg, h.nodup, fun n => ?_⟩
  change update s.pins (s.lh.blockAt tail) (s.pins (s.lh.blockAt tail) - 1) n =
    if n ∈ s.lh.entries.drop (tail + 1) then 1 else 0
  by_cases hn : n = s.lh.blockAt tail
  · rw [hn, update_self, hpin, if_neg hnot]
  · rw [update_of_ne hn, h.pins, hdrop]
    simp [hn]

/-- A log whose entries carry no pins any more is cleared. -/
theorem clearHead (h : s.Pinned tail) (htail : s.lh.count ≤ tail) (t : ℕ) : s.clearHead.Pinned t := by
  have hdone : s.lh.entries.drop tail = [] := by rw [drop_eq_nil_iff, length_entries]; exact htail
  have hempty : s.clearHead.lh.entries = [] := rfl
  refine ⟨le_rfl, by rw [hempty]; exact nodup_nil, fun n => ?_⟩
  have hn := h.pins n
  rw [hdone] at hn
  rw [hempty, drop_nil]
  exact hn

/-- In an empty log no block is pinned. -/
theorem of_empty (h : s.Pinned tail) (hempty : s.lh.n = 0) (t : ℕ) : s.Pinned t := by
  have hentries : s.lh.entries = [] := by simp [entries, LogHeader.count, hempty]
  refine ⟨h.nonneg, h.nodup, fun n => ?_⟩
  rw [h.pins, hentries, drop_nil, drop_nil]

end Pinned

/-- A loop whose body keeps the header, run by its control points. -/
theorem commitStep_loop (body : LogState → ℕ → LogState) (point : ℕ → CommitPoint)
    (hlh : ∀ s k, (body s k).lh = s.lh)
    (hbody : ∀ s k, k < s.lh.count → commitStep s (point k) = (body s k, point (k + 1)))
    (hpoint : ∀ k, point k ≠ .finish) (s : LogState) (k : ℕ) (hk : k ≤ s.lh.count) :
    Relation.ReflTransGen (fun a b => a.2 ≠ .finish ∧ b = commitStep a.1 a.2) (s, point 0)
        ((List.range k).foldl body s, point k) ∧
      ((List.range k).foldl body s).lh = s.lh := by
  induction k with
  | zero => exact ⟨.refl, rfl⟩
  | succ k ih =>
    obtain ⟨hrun, hsame⟩ := ih (by omega)
    rw [range_succ, foldl_append]
    refine ⟨hrun.tail ⟨hpoint k, ?_⟩, (hlh _ k).trans hsame⟩
    rw [hbody _ k (by rw [hsame]; omega)]
    rfl

/-- The control points of the interleaved commit run through exactly `commit`. -/
theorem commit_eq_commitSteps (s : LogState) :
    Relation.ReflTransGen (fun a b => a.2 ≠ .finish ∧ b = commitStep a.1 a.2) (s, commitStart s)
      (s.commit, .finish) := by
  unfold commitStart commit
  by_cases hpos : s.lh.n > 0
  · rw [if_pos hpos, if_pos hpos]
    obtain ⟨hlog, hlh⟩ := commitStep_loop writeLogStep .writeLog (fun _ _ => rfl)
      (fun s k hk => by simp only [commitStep, if_pos hk]) (fun _ h => by cases h) s _ le_rfl
    -- the header write, then the second loop from the state it leaves
    have hhead : commitStep s.writeLog (.writeLog s.lh.count) = (s.writeLog.writeHead, .installTrans 0) := by
      rw [← show s.writeLog.lh = s.lh from hlh]
      simp only [commitStep, lt_irrefl, if_false]
    obtain ⟨hinst, hlh'⟩ := commitStep_loop (installTransStep false) .installTrans
      (fun _ _ => rfl) (fun s k hk => by simp only [commitStep, if_pos hk]) (fun _ h => by cases h)
      s.writeLog.writeHead _ le_rfl
    have hclear : commitStep (installTrans false s.writeLog.writeHead)
        (.installTrans s.writeLog.writeHead.lh.count) =
          ((installTrans false s.writeLog.writeHead).clearHead, .writeClear) := by
      rw [← show (installTrans false s.writeLog.writeHead).lh = s.writeLog.writeHead.lh from hlh']
      simp only [commitStep, lt_irrefl, if_false]
    exact (((hlog.tail ⟨fun h => (by cases h), hhead.symm⟩).trans hinst).tail
      ⟨fun h => (by cases h), hclear.symm⟩).tail ⟨fun h => (by cases h), rfl⟩
  · rw [if_neg hpos, if_neg hpos]

end LogState

end Xv6.Log
