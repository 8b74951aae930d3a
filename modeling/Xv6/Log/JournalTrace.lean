import Xv6.Library.LoopRule
import Xv6.Log.Journal

/-!
# The disk writes of commit and recovery

`commit` writes the cached contents of the logged blocks to the log, then the header, then the
same contents to the home blocks, then a header with count zero. `recover_from_log` reads the
header and makes the last two groups of writes again, from the copies in the log. Both traces
are computed here for every header whose home blocks lie outside the log area.
-/

namespace Xv6.Log

open Library List LogHeader

/-- A block outside the log area `[start, start + LOGBLOCKS]`. -/
def OutsideLog (start blockno : ℕ) : Prop := blockno < start ∨ start + LOGBLOCKS < blockno

instance (start blockno : ℕ) : Decidable (OutsideLog start blockno) :=
  inferInstanceAs (Decidable (_ ∨ _))

/-- A stored `int` is read back. -/
theorem intOfWord_wordOfInt {value : ℤ} (hlow : -2 ^ 31 ≤ value) (hhigh : value < 2 ^ 31) :
    intOfWord (wordOfInt value) = value := by
  rw [intOfWord, wordOfInt, BitVec.ofNat_toNat, BitVec.setWidth_eq]
  exact BitVec.toInt_ofInt_eq_self (by norm_num) hlow hhigh

/-- A stored `int` fits its 32-bit word. -/
theorem wordOfInt_lt (value : ℤ) : wordOfInt value < 256 ^ 4 := (BitVec.ofInt 32 value).isLt

/-- Block numbers are 32-bit values. -/
theorem LogHeader.blockAt_lt (lh : LogHeader) (i : ℕ) : lh.blockAt i < 256 ^ 4 := by
  unfold blockAt
  split
  · exact BitVec.isLt _
  · norm_num

/-- The block numbers in use are those of the entries below the count. -/
theorem LogHeader.mem_entries {lh : LogHeader} {b : ℕ} :
    b ∈ lh.entries ↔ ∃ tail < lh.count, lh.blockAt tail = b := by
  simp [entries]

namespace LogState

/-- The state's disk is what its trace made of an earlier disk. -/
def Traced (disk : Disk) (s : LogState) : Prop := s.disk = applyWrites disk s.writes

/-- A buffer written back is what later reads of its block return. -/
theorem bread_bwrite (s : LogState) (b b' : ℕ) (data : Block) :
    (s.bwrite b data).bread b' = if b' = b then data else s.bread b' := by
  by_cases h : b' = b
  · subst h; simp [bread, bwrite]
  · simp [bread, bwrite, h]

variable {disk : Disk}

/-- Writing a block back keeps the disk equal to its trace. -/
theorem Traced.bwrite {s : LogState} (h : Traced disk s) (b : ℕ) (data : Block) :
    Traced disk (s.bwrite b data) := by
  unfold Traced at *
  simp only [LogState.bwrite, applyWrites_append, ← h, applyWrites_cons, applyWrites_nil]

/-- The writes of `write_log`: the cached contents go to consecutive log blocks. -/
def logCopies (start n : ℕ) (data : ℕ → Block) : List (ℕ × Block) :=
  (List.range n).map fun tail => (start + tail + 1, data tail)

/-- The writes of `install_trans`: the logged contents go to their home blocks. -/
def homeCopies (n : ℕ) (home : ℕ → ℕ) (data : ℕ → Block) : List (ℕ × Block) :=
  (List.range n).map fun tail => (home tail, data tail)

theorem logCopies_succ (start n : ℕ) (data : ℕ → Block) :
    logCopies start (n + 1) data = logCopies start n data ++ [(start + n + 1, data n)] := by
  simp [logCopies, range_succ]

theorem homeCopies_succ (n : ℕ) (home : ℕ → ℕ) (data : ℕ → Block) :
    homeCopies (n + 1) home data = homeCopies n home data ++ [(home n, data n)] := by
  simp [homeCopies, range_succ]

section

variable (lh : LogHeader) (buf : Block)

include lh buf

/-- The header block written by `write_head` has the count in its first word. -/
theorem headBytes_count : (headBytes lh buf).getWord 4 0 = wordOfInt lh.n := by
  refine foldl_range_invariant _ (fun _ (hb : Block) => hb.getWord 4 0 = wordOfInt lh.n) _ _ ?_ ?_
  · rw [getWord_setWord_same _ _ (by decide), Nat.mod_eq_of_lt (wordOfInt_lt _)]
  · intro i _ hb h
    rw [getWord_setWord_ne _ _ (by omega), h]

/-- The header block written by `write_head` has the block numbers in the words that follow. -/
theorem headBytes_block (hn : lh.count ≤ LOGBLOCKS) (i : ℕ)
    (hi : i < lh.count) : (headBytes lh buf).getWord 4 (i + 1) = lh.blockAt i := by
  have hfit : ∀ j < lh.count, 4 * (j + 1) + 4 ≤ BSIZE := by
    intro j hj
    simp only [LOGBLOCKS, MAXOPBLOCKS, BSIZE] at *
    omega
  refine foldl_range_invariant _
    (fun j (hb : Block) => i < j → hb.getWord 4 (i + 1) = lh.blockAt i) _ _ (by omega) ?_ hi
  intro j hj hb ih hij
  rw [getWord_setWord _ _ (hfit j hj)]
  split
  · next h => rw [show j = i by omega, Nat.mod_eq_of_lt (lh.blockAt_lt i)]
  · next h => exact ih (by omega)

/-- `read_head` leaves the stored count in memory. -/
theorem parseHead_n : (parseHead lh buf).n = intOfWord (buf.getWord 4 0) :=
  foldl_range_invariant _ (fun _ (h : LogHeader) => h.n = intOfWord (buf.getWord 4 0)) _ _ rfl fun _ _ _ h => h

/-- `read_head` leaves the stored block numbers in memory. -/
theorem parseHead_blockAt (hn : (parseHead lh buf).count ≤ LOGBLOCKS) (i : ℕ) (hi : i < (parseHead lh buf).count) :
    (parseHead lh buf).blockAt i = buf.getWord 4 (i + 1) := by
  have hcount : (parseHead lh buf).count = (intOfWord (buf.getWord 4 0)).toNat := by
    rw [LogHeader.count, parseHead_n]
  have hin : i < LOGBLOCKS := by omega
  rw [hcount] at hi
  refine foldl_range_invariant _ (fun j (h : LogHeader) => i < j →
    h.blockAt i = buf.getWord 4 (i + 1)) _ _ (by omega) ?_ hi
  intro j _ h ih hij
  by_cases hji : i = j
  · subst hji
    simp only [blockAt, hin, setBlock, dite_true, if_true, BitVec.toNat_ofNat]
    exact Nat.mod_eq_of_lt (getWord_lt buf 4 (i + 1))
  · have h' := ih (by omega)
    simp only [blockAt, hin, setBlock, dite_true] at h' ⊢
    rw [if_neg hji, h']

end

section Traces

variable (s : LogState) (hn : s.lh.count ≤ LOGBLOCKS)
  (hout : ∀ tail < s.lh.count, OutsideLog s.start (s.lh.blockAt tail))

include hn hout

/-- `write_log` keeps the header, appends the log copies to the trace, changes no block outside
the log area, and leaves the copies readable in the log. -/
theorem writeLog_spec :
    s.writeLog.lh = s.lh ∧ s.writeLog.start = s.start ∧
      s.writeLog.writes = s.writes ++
        logCopies s.start s.lh.count (fun tail => s.bread (s.lh.blockAt tail)) ∧
      (∀ b, OutsideLog s.start b → s.writeLog.bread b = s.bread b) ∧
      ∀ tail < s.lh.count, s.writeLog.bread (s.start + tail + 1) = s.bread (s.lh.blockAt tail) := by
  refine foldl_range_invariant writeLogStep (fun k (s' : LogState) => s'.lh = s.lh ∧ s'.start = s.start ∧
    s'.writes = s.writes ++ logCopies s.start k (fun tail => s.bread (s.lh.blockAt tail)) ∧
    (∀ b, OutsideLog s.start b → s'.bread b = s.bread b) ∧
    ∀ tail < k, s'.bread (s.start + tail + 1) = s.bread (s.lh.blockAt tail)) _ s ?_ ?_
  · exact ⟨rfl, rfl, by simp [logCopies], fun _ _ => rfl, by omega⟩
  · rintro k hk s' ⟨hlh, hstart, hwrites, hhome, hlog⟩
    have hsource : s'.bread (s'.lh.blockAt k) = s.bread (s.lh.blockAt k) := by
      rw [hlh]; exact hhome _ (hout k hk)
    refine ⟨hlh, hstart, ?_, fun b hb => ?_, fun tail htail => ?_⟩
    · simp only [writeLogStep, bwrite, hsource]
      rw [hwrites, logCopies_succ, hstart, append_assoc]
    · have hne : b ≠ s'.start + k + 1 := by
        rw [hstart]; unfold OutsideLog at hb; omega
      rw [writeLogStep, bread_bwrite, if_neg hne, hhome b hb]
    · rw [writeLogStep, bread_bwrite, hstart]
      split
      · next h => rw [show tail = k by omega, hsource]
      · next h => exact hlog tail (by omega)

/-- `install_trans` keeps the header, appends the home copies of what the log holds to the
trace, and changes no block of the log area. -/
theorem installTrans_spec (recovering : Bool) :
    (installTrans recovering s).lh = s.lh ∧ (installTrans recovering s).start = s.start ∧
      (installTrans recovering s).writes = s.writes ++
        homeCopies s.lh.count s.lh.blockAt (fun tail => s.bread (s.start + tail + 1)) ∧
      ∀ b, ¬ OutsideLog s.start b → (installTrans recovering s).bread b = s.bread b := by
  refine foldl_range_invariant (installTransStep recovering) (fun k (s' : LogState) =>
    s'.lh = s.lh ∧ s'.start = s.start ∧ s'.writes = s.writes ++
      homeCopies k s.lh.blockAt (fun tail => s.bread (s.start + tail + 1)) ∧
    ∀ b, ¬ OutsideLog s.start b → s'.bread b = s.bread b) _ s ?_ ?_
  · exact ⟨rfl, rfl, by simp [homeCopies], fun _ _ => rfl⟩
  · rintro k hk s' ⟨hlh, hstart, hwrites, hlog⟩
    have hsource : s'.bread (s'.start + k + 1) = s.bread (s.start + k + 1) := by
      rw [hstart]
      refine hlog _ ?_
      unfold OutsideLog
      omega
    have hunpin : installTransStep recovering s' k = s'.bwrite (s.lh.blockAt k) (s.bread (s.start + k + 1)) ∨
        installTransStep recovering s' k =
          (s'.bwrite (s.lh.blockAt k) (s.bread (s.start + k + 1))).bunpin (s.lh.blockAt k) := by
      cases recovering
      · exact .inr (by simp only [installTransStep, hsource, hlh]; rfl)
      · exact .inl (by simp only [installTransStep, hsource, hlh]; rfl)
    have hbwrite : (s'.bwrite (s.lh.blockAt k) (s.bread (s.start + k + 1))).writes = s.writes ++
        homeCopies (k + 1) s.lh.blockAt (fun tail => s.bread (s.start + tail + 1)) := by
      simp only [bwrite]
      rw [hwrites, homeCopies_succ, append_assoc]
    have hread : ∀ b, ¬ OutsideLog s.start b →
        (s'.bwrite (s.lh.blockAt k) (s.bread (s.start + k + 1))).bread b = s.bread b := by
      intro b hb
      have hne : b ≠ s.lh.blockAt k := fun h => hb (h ▸ hout k hk)
      rw [bread_bwrite, if_neg hne, hlog b hb]
    rcases hunpin with h | h <;> rw [h] <;> exact ⟨hlh, hstart, hbwrite, hread⟩

/-- The four groups of writes of a commit of a nonempty transaction. -/
theorem commit_writes (hpos : 0 < s.lh.n) :
    ∃ head cleared : Block,
      s.commit.writes = s.writes ++
        (logCopies s.start s.lh.count (fun tail => s.bread (s.lh.blockAt tail)) ++
          (s.start, head) :: (homeCopies s.lh.count s.lh.blockAt
            (fun tail => s.bread (s.lh.blockAt tail)) ++ [(s.start, cleared)])) ∧
      head.getWord 4 0 = wordOfInt s.lh.n ∧
      (∀ tail < s.lh.count, head.getWord 4 (tail + 1) = s.lh.blockAt tail) ∧
      cleared.getWord 4 0 = wordOfInt 0 := by
  obtain ⟨hlh, hstart, hwrites, -, hlog⟩ := writeLog_spec s hn hout
  -- the state after the first `write_head`
  let c := s.writeLog.writeHead
  have hc : c.lh = s.lh ∧ c.start = s.start := ⟨hlh, hstart⟩
  have hcread : ∀ tail < s.lh.count, c.bread (s.start + tail + 1) = s.bread (s.lh.blockAt tail) := by
    intro tail htail
    rw [show c = s.writeLog.bwrite s.writeLog.start _ from rfl, bread_bwrite,
      if_neg (by rw [hstart]; omega), hlog tail htail]
  obtain ⟨hlh', hstart', hwrites', -⟩ := installTrans_spec c (by rw [hc.1]; exact hn)
    (by rw [hc.1, hc.2]; exact hout) false
  have hdata : homeCopies s.lh.count s.lh.blockAt (fun tail => c.bread (s.start + tail + 1)) =
      homeCopies s.lh.count s.lh.blockAt (fun tail => s.bread (s.lh.blockAt tail)) := by
    refine map_congr_left fun tail htail => ?_
    simp only [hcread tail (mem_range.1 htail)]
  refine ⟨headBytes s.lh (s.writeLog.bread s.start),
    headBytes { s.lh with n := 0 } ((installTrans false c).clearHead.bread s.start), ?_,
    headBytes_count _ _, headBytes_block _ _ hn, headBytes_count _ _⟩
  have hcommit : s.commit = (installTrans false c).clearHead.writeHead := if_pos hpos
  have hhead : c.writes = s.writeLog.writes ++
      [(s.start, headBytes s.lh (s.writeLog.bread s.start))] := by
    simp only [c, writeHead, bwrite, hlh, hstart]
  have hclear : (installTrans false c).clearHead.lh = { s.lh with n := 0 } ∧
      (installTrans false c).clearHead.start = s.start := by
    simp only [clearHead, hlh', hstart', hc.1, hc.2, and_self]
  rw [hcommit, writeHead, bwrite, hclear.1, hclear.2]
  change (installTrans false c).writes ++ _ = _
  rw [hwrites', hc.1, hc.2, hdata, hhead, hwrites]
  simp only [append_assoc, cons_append, nil_append]

end Traces

/-- The header write of `write_head` is in the trace. -/
theorem Traced.writeHead {s : LogState} (h : Traced disk s) : Traced disk s.writeHead := h.bwrite s.start _

/-- The writes of `write_log` are in the trace. -/
theorem Traced.writeLog {s : LogState} (h : Traced disk s) : Traced disk s.writeLog :=
  foldl_range_invariant _ (fun _ s => Traced disk s) _ _ h fun _ _ _ h => h.bwrite _ _

/-- The writes of `install_trans` are in the trace. -/
theorem Traced.installTrans {s : LogState} (recovering : Bool) (h : Traced disk s) :
    Traced disk (installTrans recovering s) := by
  refine foldl_range_invariant _ (fun _ s => Traced disk s) _ _ h fun k _ s h => ?_
  have hwrite := h.bwrite (s.lh.blockAt k) (s.bread (s.start + k + 1))
  cases recovering
  · exact hwrite
  · exact hwrite

/-- Clearing the count in memory writes nothing. -/
theorem Traced.clearHead {s : LogState} (h : Traced disk s) : Traced disk s.clearHead := h

/-- Every disk write of a commit is in its trace. -/
theorem Traced.commit {s : LogState} (h : Traced disk s) : Traced disk s.commit := by
  unfold LogState.commit
  split
  · exact (h.writeLog.writeHead.installTrans false).clearHead.writeHead
  · exact h

/-- The writes of a recovery: the home copies of what the log on disk holds, for the count and
the block numbers of the header on disk, then a header with count zero. -/
theorem recoverFromLog_writes (start : ℕ) (disk : Disk) (n : ℕ) (home : ℕ → ℕ)
    (hhead : intOfWord ((disk start).getWord 4 0) = n) (hn : n ≤ LOGBLOCKS)
    (hhome : ∀ tail < n, (disk start).getWord 4 (tail + 1) = home tail)
    (hout : ∀ tail < n, OutsideLog start (home tail)) :
    ∃ cleared : Block,
      (recoverFromLog (boot start disk)).writes =
        homeCopies n home (fun tail => disk (start + tail + 1)) ++ [(start, cleared)] ∧
      cleared.getWord 4 0 = wordOfInt 0 := by
  let s := (boot start disk).readHead
  have hstart : s.start = start := rfl
  have hread : ∀ b, s.bread b = disk b := fun _ => rfl
  have hlh : s.lh = parseHead (boot start disk).lh (disk start) := rfl
  have hwrites : s.writes = [] := rfl
  have hrec : recoverFromLog (boot start disk) = (installTrans true s).clearHead.writeHead := rfl
  clear_value s
  have hcount : s.lh.count = n := by
    rw [LogHeader.count, hlh, parseHead_n, hhead, Int.toNat_natCast]
  have hblock : ∀ tail < n, s.lh.blockAt tail = home tail := by
    intro tail htail
    rw [hlh, parseHead_blockAt _ _ (by rw [← hlh, hcount]; exact hn)
      tail (by rw [← hlh, hcount]; exact htail), hhome tail htail]
  obtain ⟨hlh', hstart', hwrites', -⟩ := installTrans_spec s (by rw [hcount]; exact hn)
    (by rw [hcount, hstart]; intro tail htail; rw [hblock tail htail]; exact hout tail htail) true
  have hdata : homeCopies n s.lh.blockAt (fun tail => s.bread (s.start + tail + 1)) =
      homeCopies n home (fun tail => disk (start + tail + 1)) := by
    refine map_congr_left fun tail htail => ?_
    simp only [hblock tail (mem_range.1 htail), hread, hstart]
  have hclear : (installTrans true s).clearHead.writes = (installTrans true s).writes ∧
      (installTrans true s).clearHead.start = start :=
    ⟨rfl, hstart'.trans hstart⟩
  refine ⟨headBytes (installTrans true s).clearHead.lh ((installTrans true s).clearHead.bread start), ?_,
    headBytes_count _ _⟩
  rw [hrec, writeHead, bwrite, hclear.2]
  simp only [hclear.1]
  rw [hwrites', hcount, hdata, hwrites, nil_append]

end LogState

end Xv6.Log
