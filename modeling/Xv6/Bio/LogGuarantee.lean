import Xv6.Bio.Cache

/-!
# What the log guarantees to the buffer cache

Between commits exactly the logged blocks are pinned. A commit drops the pins in the order of the
entries, one for each block that it has installed.
-/

namespace Xv6.Bio

open Function Library List Log LogState

namespace LogUse

/-- What the log guarantees to the buffer cache: the entries are pinned, except those that the
running commit has installed. -/
structure Inv {P : Type*} (log : LogState) (use : P → LogUse) : Prop where
  nonneg : 0 ≤ log.lh.n
  quiet : log.committing = true → log.outstanding < 1
  idle : log.committing = false → log.Pinned 0
  commit : ∀ p tail, use p = .commit tail →
    log.committing = true ∧ (∀ q, q ≠ p → ∀ t, use q ≠ .commit t) ∧ log.Pinned tail

namespace Inv

variable {P : Type*} {log log' : LogState} {use : P → LogUse} {p : P}

/-- The log keeps its guarantee when no commit runs and a process that starts none moves. -/
theorem of_idle (hpinned : log.Pinned 0) (hcom : log.committing = false) (huse : ∀ q tail, use q ≠ .commit tail) :
    Inv log use where
  nonneg := hpinned.nonneg
  quiet hc := by
    rw [hcom] at hc
    cases hc
  idle _ := hpinned
  commit q tail hq := absurd hq (huse q tail)

/-- The process that commits is the only one. -/
theorem of_commit [DecidableEq P] {tail : ℕ} (hnonneg : 0 ≤ log'.lh.n) (hcom : log'.committing = true)
    (hquiet : log'.outstanding < 1)
    (hothers : ∀ q, q ≠ p → ∀ t, use q ≠ .commit t) (hpinned : log'.Pinned tail) :
    Inv log' (update use p (.commit tail)) := by
  refine ⟨hnonneg, fun _ => hquiet, fun hc => ?_, fun q t hq => ?_⟩
  · rw [hcom] at hc
    cases hc
  · by_cases hqp : q = p
    · subst hqp
      rw [update_self] at hq
      cases hq
      refine ⟨hcom, fun r hr t => ?_, hpinned⟩
      rw [update_of_ne hr]
      exact hothers r hr t
    · rw [update_of_ne hqp] at hq
      exact absurd hq (hothers q hqp t)

variable (h : Inv log use)

include h

/-- The guarantee is about the header, the pins and the counters only. -/
theorem of_pins (hlh : log'.lh = log.lh) (hpins : log'.pins = log.pins) (hout : log'.outstanding = log.outstanding)
    (hcom : log'.committing = log.committing) : Inv log' use := by
  cases log
  cases log'
  subst hlh hpins hout hcom
  refine ⟨h.nonneg, h.quiet, fun hc => ?_, fun p tail hp => ?_⟩
  · obtain ⟨hn, hd, hpins⟩ := h.idle hc
    exact ⟨hn, hd, hpins⟩
  · obtain ⟨hc, hothers, hn, hd, hpins⟩ := h.commit p tail hp
    exact ⟨hc, hothers, hn, hd, hpins⟩

/-- No process commits while the log admits operations. -/
theorem not_commit (hcom : log.committing = false) (q : P) (tail : ℕ) : use q ≠ .commit tail := by
  intro hq
  have := (h.commit q tail hq).1
  rw [hcom] at this
  cases this

/-- Blocks are logged only while no commit runs. -/
theorem idle_of_logWrite {blockno : BitVec 32} (hw : log.logWrite blockno = .ok log') : log.committing = false := by
  have hout := (logWrite_cases hw h.nonneg).1
  by_contra hne
  have := h.quiet (by simpa using hne)
  omega

/-- A successful `log_write` pins the block that it adds. -/
theorem logWrite {blockno : BitVec 32} (hw : log.logWrite blockno = .ok log') : Inv log' use := by
  have hcom := h.idle_of_logWrite hw
  obtain ⟨-, -, -, hcommitting, -⟩ := logWrite_cases hw h.nonneg
  exact of_idle ((h.idle hcom).logWrite hw) (hcommitting.trans hcom) (h.not_commit hcom)

variable {tail : ℕ}

/-- The header is cleared when no entry is pinned. -/
theorem clearHead (hp : use p = .commit tail) (htail : log.lh.count ≤ tail) : Inv log.clearHead use := by
  have hpinned := (h.commit p tail hp).2.2.clearHead htail
  exact ⟨le_rfl, h.quiet, fun _ => hpinned 0, fun q t hq =>
    ⟨(h.commit q t hq).1, (h.commit q t hq).2.1, hpinned t⟩⟩

variable [DecidableEq P]

/-- An operation starts only while no commit runs. -/
theorem beginOp (hb : log.beginOp = some log') : Inv log' (update use p .inOp) := by
  obtain ⟨hcom, -, rfl⟩ := beginOp_cases hb
  refine of_idle ⟨h.nonneg, (h.idle hcom).nodup, (h.idle hcom).pins⟩ hcom fun q tail => ?_
  by_cases hq : q = p
  · simp [hq]
  · rw [update_of_ne hq]
    exact h.not_commit hcom q tail

/-- An operation ends without a commit. -/
theorem endOp (he : log.endOp = .ok (log', false)) : Inv log' (update use p .outside) := by
  obtain ⟨hcom, rfl, -⟩ := endOp_cases he
  refine of_idle ⟨h.nonneg, (h.idle hcom).nodup, (h.idle hcom).pins⟩ rfl fun q tail => ?_
  by_cases hq : q = p
  · simp [hq]
  · rw [update_of_ne hq]
    exact h.not_commit hcom q tail

/-- The last operation starts the commit, with every entry pinned. -/
theorem endOpCommit (he : log.endOp = .ok (log', true)) : Inv log' (update use p (.commit 0)) := by
  obtain ⟨hcom, rfl, hlast⟩ := endOp_cases he
  exact of_commit h.nonneg rfl (lt_of_eq_of_lt (hlast.1 rfl) Int.one_pos) (fun q _ => h.not_commit hcom q)
    ⟨h.nonneg, (h.idle hcom).nodup, (h.idle hcom).pins⟩

/-- Installing an entry drops its pin. -/
theorem bunpin (hp : use p = .commit tail) (htail : tail < log.lh.count) :
    Inv (log.bunpin (log.lh.blockAt tail)) (update use p (.commit (tail + 1))) := by
  obtain ⟨hcom, hothers, hpinned⟩ := h.commit p tail hp
  exact of_commit h.nonneg hcom (h.quiet hcom) hothers (hpinned.bunpin htail)

/-- The commit ends with an empty log. -/
theorem endCommit (hp : use p = .commit tail) (hempty : log.lh.n = 0) :
    Inv log.endCommit (update use p .outside) := by
  obtain ⟨-, hothers, hpinned⟩ := h.commit p tail hp
  have hzero := hpinned.of_empty hempty 0
  refine of_idle ⟨hzero.nonneg, hzero.nodup, hzero.pins⟩ rfl fun q t => ?_
  by_cases hq : q = p
  · simp [hq]
  · rw [update_of_ne hq]
    exact hothers q hq t

end Inv

end LogUse

end Xv6.Bio
