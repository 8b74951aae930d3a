import Xv6.Log.JournalTrace

/-!
# Crash atomicity of a commit

A commit may be cut short after any of its disk writes, and the recovery after it may be cut
short any finite number of times. Two properties of the disk survive every crash. On a
`Settled` disk the header has count zero and the blocks outside the log are already those of the
outcome. On a `Pending` disk the header and the log hold the whole transaction, and only its home
blocks may differ from the disk before the commit; recovering from it settles the new contents.
The write of the header moves the disk from the first case to the second.
-/

namespace Xv6.Log

open Function Library List LogHeader LogState

/-- The count in the log header on disk. -/
def headCount (start : ℕ) (disk : Disk) : ℤ := intOfWord ((disk start).getWord 4 0)

/-- The disk writes that `recover_from_log` makes after a reboot with the given disk. -/
def recoveryWrites (start : ℕ) (disk : Disk) : List (ℕ × Block) :=
  (recoverFromLog (boot start disk)).writes

/-- The state in which `end_op` calls `commit`, with an empty trace. -/
def beforeCommit (start : ℕ) (disk : Disk) (cache : ℕ → Option Block) (pins : ℕ → ℕ)
    (lh : LogHeader) : LogState where
  start
  outstanding := 0
  committing := true
  lh
  disk
  cache
  pins
  writes := []

/-- The disk with every logged block replaced by its cached contents. -/
def replaced (s : LogState) : Disk := fun b => if b ∈ s.lh.entries then s.bread b else s.disk b

/-- No transaction is pending and the blocks outside the log are those of `target`. -/
structure Settled (start : ℕ) (target disk : Disk) : Prop where
  count : headCount start disk = 0
  outside : ∀ b, OutsideLog start b → disk b = target b

/-- The header and the log hold a whole transaction with home blocks `home` and contents `data`,
and outside the log only these home blocks may differ from `base`. -/
structure Pending (start n : ℕ) (home : ℕ → ℕ) (data : ℕ → Block) (base disk : Disk) : Prop where
  count : headCount start disk = n
  blocks : ∀ tail < n, (disk start).getWord 4 (tail + 1) = home tail
  copies : ∀ tail < n, disk (start + tail + 1) = data tail
  outside : ∀ b, OutsideLog start b → (∀ tail < n, home tail ≠ b) → disk b = base b

/-- The header block lies in the log area. -/
theorem not_outsideLog_start (start : ℕ) : ¬ OutsideLog start start := by
  unfold OutsideLog; omega

/-- A block outside the log is not the header block. -/
theorem OutsideLog.ne_start {start b : ℕ} (h : OutsideLog start b) : b ≠ start := by
  unfold OutsideLog at h; omega

/-- Writing a header with count zero settles the contents that are outside the log. -/
theorem settled_update_header {start : ℕ} {target disk : Disk} {cleared : Block}
    (hcleared : cleared.getWord 4 0 = wordOfInt 0) (houtside : ∀ b, OutsideLog start b → disk b = target b) :
    Settled start target (update disk start cleared) where
  count := by
    rw [headCount, update_self, hcleared]
    exact intOfWord_wordOfInt (by decide) (by decide)
  outside b hb := by
    rw [update_of_ne hb.ne_start, houtside b hb]

/-- A recovery from a settled disk only clears the header again. -/
theorem Settled.recover {start : ℕ} {target disk : Disk} (h : Settled start target disk) (k : ℕ) :
    Settled start target (applyWrites disk ((recoveryWrites start disk).take k)) := by
  obtain ⟨cleared, hwrites, hcleared⟩ := recoverFromLog_writes start disk 0 (fun _ => 0)
    (by simpa [headCount] using h.count) (by omega) (by omega) (by omega)
  have hsettled := settled_update_header hcleared h.outside
  rw [recoveryWrites, hwrites]
  cases k with
  | zero => exact h
  | succ k => simpa [homeCopies] using hsettled

/-- A completed recovery from a settled disk leaves it settled. -/
theorem Settled.recovers {start : ℕ} {target disk final : Disk} (h : Settled start target disk)
    (hrec : Recovers (recoveryWrites start) disk final) : Settled start target final :=
  hrec.post (I := Settled start target) (fun _ hd k => hd.recover k)
    (fun d hd => by simpa using hd.recover (recoveryWrites start d).length) h

section Transaction

variable {start n : ℕ} {home : ℕ → ℕ} {data : ℕ → Block} {base target disk : Disk}

/-- Writes to the home blocks of a pending transaction keep it pending. -/
theorem Pending.applyHome (h : Pending start n home data base disk) (hn : n ≤ LOGBLOCKS)
    (hout : ∀ tail < n, OutsideLog start (home tail)) {writes : List (ℕ × Block)}
    (hwrites : ∀ write ∈ writes, write ∈ homeCopies n home data) :
    Pending start n home data base (applyWrites disk writes) := by
  have hmem : ∀ write ∈ writes, ∃ tail < n, home tail = write.1 := by
    intro write hw
    obtain ⟨tail, htail, rfl⟩ := mem_map.1 (hwrites write hw)
    exact ⟨tail, mem_range.1 htail, rfl⟩
  have hlog : ∀ b, ¬ OutsideLog start b → applyWrites disk writes b = disk b := by
    intro b hb
    refine applyWrites_of_forall_ne _ _ _ fun write hw heq => hb ?_
    obtain ⟨tail, htail, hhome⟩ := hmem write hw
    exact heq ▸ hhome ▸ hout tail htail
  refine ⟨?_, fun tail htail => ?_, fun tail htail => ?_, fun b hb hne => ?_⟩
  · rw [headCount, hlog _ (not_outsideLog_start start)]
    exact h.count
  · rw [hlog _ (not_outsideLog_start start), h.blocks tail htail]
  · rw [hlog _ (by unfold OutsideLog; omega), h.copies tail htail]
  · rw [applyWrites_of_forall_ne _ _ _ ?_, h.outside b hb hne]
    intro write hw heq
    obtain ⟨tail, htail, hhome⟩ := hmem write hw
    exact hne tail htail (hhome.trans heq)

/-- All the home writes of a transaction, applied to a disk that holds `base` elsewhere, give
the disk in which the home blocks are replaced. -/
theorem applyWrites_homeCopies (hhome : ∀ tail < n, target (home tail) = data tail)
    (hbase : ∀ b, OutsideLog start b → (∀ tail < n, home tail ≠ b) → disk b = target b) (b : ℕ)
    (hb : OutsideLog start b) : applyWrites disk (homeCopies n home data) b = target b := by
  by_cases hin : ∃ tail < n, home tail = b
  · obtain ⟨tail, htail, rfl⟩ := hin
    refine applyWrites_of_written _ _ _ _ ?_ ⟨_, mem_map.2 ⟨tail, mem_range.2 htail, rfl⟩, rfl⟩
    rintro write hw heq
    obtain ⟨tail', htail', rfl⟩ := mem_map.1 hw
    simp only at heq ⊢
    rw [← heq, hhome tail' (mem_range.1 htail')]
  · have hne : ∀ tail < n, home tail ≠ b := fun tail htail h => hin ⟨tail, htail, h⟩
    rw [applyWrites_of_forall_ne _ _ _ ?_, hbase b hb hne]
    rintro write hw
    obtain ⟨tail, htail, rfl⟩ := mem_map.1 hw
    exact hne tail (mem_range.1 htail)

section

variable (h : Pending start n home data base disk) (hn : n ≤ LOGBLOCKS)
  (hout : ∀ tail < n, OutsideLog start (home tail)) (hhome : ∀ tail < n, target (home tail) = data tail)
  (hbase : ∀ b, OutsideLog start b → (∀ tail < n, home tail ≠ b) → base b = target b)

include h hn hout hhome hbase

/-- A crash during the recovery of a pending transaction leaves it pending or settled, and the
completed recovery settles it. -/
theorem Pending.recover :
    (∀ k, Pending start n home data base (applyWrites disk ((recoveryWrites start disk).take k)) ∨
      Settled start target (applyWrites disk ((recoveryWrites start disk).take k))) ∧
    Settled start target (applyWrites disk (recoveryWrites start disk)) := by
  obtain ⟨cleared, hwrites, hcleared⟩ := recoverFromLog_writes start disk n home h.count hn h.blocks hout
  have hcopies : homeCopies n home (fun tail => disk (start + tail + 1)) = homeCopies n home data := by
    refine map_congr_left fun tail htail => ?_
    simp only [h.copies tail (mem_range.1 htail)]
  rw [hcopies] at hwrites
  have hdone : Settled start target (applyWrites disk (recoveryWrites start disk)) := by
    rw [recoveryWrites, hwrites, applyWrites_append]
    refine settled_update_header hcleared fun b hb => applyWrites_homeCopies hhome ?_ b hb
    exact fun b hb hne => (h.outside b hb hne).trans (hbase b hb hne)
  refine ⟨fun k => ?_, hdone⟩
  by_cases hk : k ≤ (homeCopies n home data).length
  · left
    rw [recoveryWrites, hwrites, take_append_of_le_length hk]
    exact h.applyHome hn hout fun write hw => mem_of_mem_take hw
  · right
    rw [recoveryWrites, take_of_length_le (by rw [hwrites]; simp; omega)]
    exact hdone

/-- Every completed recovery of a pending transaction settles it. -/
theorem Pending.recovers {final : Disk}
    (hrec : Recovers (recoveryWrites start) disk final) : Settled start target final := by
  refine hrec.post (I := fun d => Pending start n home data base d ∨ Settled start target d) ?_ ?_ (.inl h)
  · rintro d (hd | hd) k
    · exact (hd.recover hn hout hhome hbase).1 k
    · exact .inr (hd.recover k)
  · rintro d (hd | hd)
    · exact (hd.recover hn hout hhome hbase).2
    · simpa using hd.recover (recoveryWrites start d).length

end

end Transaction

/-- The disk after the first writes of a commit that starts with a clear header: before the
header write nothing outside the log has changed, from then on the transaction is pending, and
after the second header write it is settled. -/
theorem commit_crash_states (s : LogState) (hfresh : s.writes = []) (hzero : headCount s.start s.disk = 0)
    (hn : s.lh.n ≤ LOGBLOCKS) (hout : ∀ b ∈ s.lh.entries, OutsideLog s.start b) (hpos : 0 < s.lh.n) (k : ℕ) :
    ((¬ ∃ write ∈ s.commit.writes.take k, write.1 = s.start) ∧
        Settled s.start s.disk (applyWrites s.disk (s.commit.writes.take k))) ∨
      ((∃ write ∈ s.commit.writes.take k, write.1 = s.start) ∧
        (k < s.commit.writes.length ∧ Pending s.start s.lh.count s.lh.blockAt
            (fun tail => s.bread (s.lh.blockAt tail)) s.disk
            (applyWrites s.disk (s.commit.writes.take k)) ∨
          Settled s.start (replaced s) (applyWrites s.disk (s.commit.writes.take k)))) := by
  have hcount : s.lh.count ≤ LOGBLOCKS := by
    unfold LogHeader.count; omega
  have hcountInt : (s.lh.count : ℤ) = s.lh.n := by
    unfold LogHeader.count; omega
  have hout' : ∀ tail < s.lh.count, OutsideLog s.start (s.lh.blockAt tail) := fun tail htail =>
    hout _ (LogHeader.mem_entries.2 ⟨tail, htail, rfl⟩)
  obtain ⟨head, cleared, hwrites, hhead, hblocks, hcleared⟩ := commit_writes s hcount hout' hpos
  rw [hfresh, nil_append] at hwrites
  generalize hdata : (fun tail => s.bread (s.lh.blockAt tail)) = data at *
  have hlogMem : ∀ write ∈ logCopies s.start s.lh.count data,
      write.1 ≠ s.start ∧ ¬ OutsideLog s.start write.1 := by
    intro write hw
    obtain ⟨tail, htail, rfl⟩ := mem_map.1 hw
    have := mem_range.1 htail
    unfold OutsideLog
    simp only
    omega
  -- the disk once the header is written
  have hpending : Pending s.start s.lh.count s.lh.blockAt data s.disk
      (applyWrites s.disk (logCopies s.start s.lh.count data ++ [(s.start, head)])) := by
    rw [applyWrites_append, applyWrites_cons, applyWrites_nil]
    refine ⟨?_, fun tail htail => ?_, fun tail htail => ?_, fun b hb _ => ?_⟩
    · rw [headCount, update_self, hhead, hcountInt]
      exact intOfWord_wordOfInt (by omega) (by unfold LOGBLOCKS MAXOPBLOCKS at hn; omega)
    · rw [update_self, hblocks tail htail]
    · rw [update_of_ne (by omega)]
      refine applyWrites_of_written _ _ _ _ ?_ ⟨_, mem_map.2 ⟨tail, mem_range.2 htail, rfl⟩, rfl⟩
      intro write hw heq
      obtain ⟨tail', -, rfl⟩ := mem_map.1 hw
      simp only at heq ⊢
      rw [show tail' = tail by omega]
    · rw [update_of_ne hb.ne_start]
      exact applyWrites_of_forall_ne _ _ _ fun write hw heq => (hlogMem write hw).2 (heq ▸ hb)
  have hlen : (logCopies s.start s.lh.count data).length = s.lh.count := by simp [logCopies]
  have hlen' : (homeCopies s.lh.count s.lh.blockAt data).length = s.lh.count := by simp [homeCopies]
  by_cases hk : k ≤ s.lh.count
  · -- only log blocks were written
    left
    have htake : s.commit.writes.take k = (logCopies s.start s.lh.count data).take k := by
      rw [hwrites, take_append_of_le_length (by omega)]
    rw [htake]
    refine ⟨?_, ?_, fun b hb => ?_⟩
    · rintro ⟨write, hw, heq⟩
      exact (hlogMem write (mem_of_mem_take hw)).1 heq
    · rw [headCount, applyWrites_of_forall_ne _ _ _ fun write hw =>
        (hlogMem write (mem_of_mem_take hw)).1]
      exact hzero
    · exact applyWrites_of_forall_ne _ _ _ fun write hw heq =>
        (hlogMem write (mem_of_mem_take hw)).2 (heq ▸ hb)
  · right
    obtain ⟨j, rfl⟩ : ∃ j, k = s.lh.count + (j + 1) := ⟨k - s.lh.count - 1, by omega⟩
    have htake : s.commit.writes.take (s.lh.count + (j + 1)) =
        (logCopies s.start s.lh.count data ++ [(s.start, head)]) ++
          (homeCopies s.lh.count s.lh.blockAt data ++ [(s.start, cleared)]).take j := by
      rw [hwrites, take_append, take_of_length_le (by omega), hlen, Nat.add_sub_cancel_left,
        take_succ_cons, append_assoc, singleton_append]
    rw [htake]
    refine ⟨⟨(s.start, head), by simp, rfl⟩, ?_⟩
    rw [applyWrites_append]
    by_cases hj : j ≤ s.lh.count
    · left
      refine ⟨by rw [hwrites]; simp; omega, ?_⟩
      rw [take_append_of_le_length (by omega)]
      exact hpending.applyHome hcount hout' fun write hw => mem_of_mem_take hw
    · right
      rw [take_of_length_le (by simp; omega), applyWrites_append]
      refine settled_update_header hcleared fun b hb => applyWrites_homeCopies ?_ ?_ b hb
      · intro tail htail
        rw [replaced, if_pos (mem_entries.2 ⟨tail, htail, rfl⟩), ← hdata]
      · intro b hb hne
        rw [hpending.outside b hb hne, replaced, if_neg]
        intro hmem
        obtain ⟨tail, htail, heq⟩ := mem_entries.1 hmem
        exact hne tail htail heq

/-- **A commit is all or nothing.** Whatever the cache holds for the logged blocks, after a crash
behind any of the disk writes of `commit`, any finite number of crashes inside
`recover_from_log`, and one run of it that completes, the header has count zero and the disk
outside the log is the one before the commit with all logged blocks replaced if the header write
had reached the disk, and the one before the commit otherwise. Without a crash it is the former. -/
theorem commit_crash_atomic (start : ℕ) (disk : Disk) (cache : ℕ → Option Block) (pins : ℕ → ℕ)
    (lh : LogHeader) (hzero : headCount start disk = 0) (hn : lh.n ≤ LOGBLOCKS)
    (hout : ∀ b ∈ lh.entries, OutsideLog start b) :
    let s := beforeCommit start disk cache pins lh
    (∀ k final, Recovers (recoveryWrites start) (applyWrites disk (s.commit.writes.take k)) final →
      headCount start final = 0 ∧ ∀ b, OutsideLog start b →
        final b = if ∃ write ∈ s.commit.writes.take k, write.1 = start then replaced s b else disk b) ∧
    headCount start s.commit.disk = 0 ∧ ∀ b, OutsideLog start b → s.commit.disk b = replaced s b := by
  intro s
  by_cases hpos : 0 < lh.n
  · have hstates := commit_crash_states s rfl hzero hn hout hpos
    have hcount : lh.count ≤ LOGBLOCKS := by
      unfold LogHeader.count; omega
    have hout' : ∀ tail < lh.count, OutsideLog start (lh.blockAt tail) := fun tail htail =>
      hout _ (LogHeader.mem_entries.2 ⟨tail, htail, rfl⟩)
    have hhome : ∀ tail < lh.count, replaced s (lh.blockAt tail) = s.bread (lh.blockAt tail) :=
      fun tail htail => if_pos (mem_entries.2 ⟨tail, htail, rfl⟩)
    have hbase : ∀ b, OutsideLog start b → (∀ tail < lh.count, lh.blockAt tail ≠ b) →
        disk b = replaced s b := fun b _ hne => (if_neg fun hmem => by
      obtain ⟨tail, htail, heq⟩ := mem_entries.1 hmem
      exact hne tail htail heq).symm
    refine ⟨fun k final hrec => ?_, ?_⟩
    · rcases hstates k with ⟨hno, hsettled⟩ | ⟨hyes, ⟨-, hpending⟩ | hsettled⟩
      · have h := hsettled.recovers hrec
        exact ⟨h.count, fun b hb => (h.outside b hb).trans (if_neg hno).symm⟩
      · have h := hpending.recovers hcount hout' hhome hbase hrec
        exact ⟨h.count, fun b hb => (h.outside b hb).trans (if_pos hyes).symm⟩
      · have h := hsettled.recovers hrec
        exact ⟨h.count, fun b hb => (h.outside b hb).trans (if_pos hyes).symm⟩
    · have htraced : Traced disk s := rfl
      have hdisk : s.commit.disk = applyWrites disk s.commit.writes := htraced.commit
      have hall := hstates s.commit.writes.length
      rw [take_length] at hall
      rw [hdisk]
      rcases hall with ⟨hno, -⟩ | ⟨-, ⟨hlt, -⟩ | hsettled⟩
      · obtain ⟨head, cleared, hwrites, -⟩ := commit_writes s hcount hout' hpos
        exact absurd ⟨(start, head), by rw [hwrites]; simp [s, beforeCommit], rfl⟩ hno
      · exact absurd hlt (lt_irrefl _)
      · exact ⟨hsettled.count, hsettled.outside⟩
  · -- an empty transaction writes nothing
    have hcommit : s.commit = s := if_neg hpos
    have hempty : ∀ b, b ∉ lh.entries := by
      intro b hb
      obtain ⟨tail, htail, -⟩ := LogHeader.mem_entries.1 hb
      unfold LogHeader.count at htail
      omega
    have hreplaced : ∀ b, replaced s b = disk b := fun b => if_neg (hempty b)
    have hsettled : Settled start disk disk := ⟨hzero, fun _ _ => rfl⟩
    rw [hcommit]
    refine ⟨fun k final hrec => ?_, hzero, fun b _ => (hreplaced b).symm⟩
    have hnil : s.writes.take k = [] := by simp [s, beforeCommit]
    rw [hnil, applyWrites_nil] at hrec
    have h := hsettled.recovers hrec
    exact ⟨h.count, fun b hb => by simp [hreplaced, h.outside b hb]⟩

/-- On an empty disk, a commit of blocks 50 and 51 cut short between the writes to the two blocks is recovered
to the cached contents of both. -/
theorem commit_crash_atomic_two_blocks :
    let cached : ℕ → Block := fun b _ => if b = 50 then 7 else 9
    let s := beforeCommit 2 (fun _ _ => 0) (fun b => if b = 50 ∨ b = 51 then some (cached b) else none)
      (fun _ => 0) { n := 2, block := fun i => 50 + i }
    let crashed := applyWrites (fun _ _ => 0) (s.commit.writes.take 4)
    let recovered := applyWrites crashed (recoveryWrites 2 crashed)
    recovered 50 = cached 50 ∧ recovered 51 = cached 51 := by
  intro cached s crashed
  have hzero : headCount 2 (fun _ _ => 0 : Disk) = 0 := by
    rw [headCount, getWord_zero]
    rfl
  have h := (commit_crash_atomic 2 (fun _ _ => 0) (fun b => if b = 50 ∨ b = 51 then some (cached b) else none)
    (fun _ => 0) { n := 2, block := fun i => 50 + i } hzero (by decide) (by decide)).1 4 _
    (Recovers.completes crashed)
  have hreached : ∃ write ∈ s.commit.writes.take 4, write.1 = 2 := by decide
  exact ⟨(h.2 50 (by decide)).trans ((if_pos hreached).trans rfl),
    (h.2 51 (by decide)).trans ((if_pos hreached).trans rfl)⟩

end Xv6.Log
