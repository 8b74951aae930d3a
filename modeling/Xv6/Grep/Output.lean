import Mathlib.Data.List.Basic
import Xv6.Grep.Matcher

/-!
# The lines that `grep` writes

The loop of `grep` over the pieces in which its input arrives. The buffer holds one byte less than its size,
and what is left of it behind the last newline is carried over. As the input has no null byte, the contents of
the buffer are a list of bytes. A line that fills the buffer ends the loop, since the next `read` asks for
nothing: its output is that of the lines in front of the first such line, however the input is cut.
-/

namespace Xv6.Grep

open List

/-- The bytes of `buf` in front of its null byte. -/
abbrev BUFLEN : ℕ := 1024 - 1

/-- `'\n'`. -/
abbrev newline : UInt8 := 10

/-- A line goes to the output if it matches. -/
def writeLine (re line : List UInt8) : List UInt8 := if matchText re line then line ++ [newline] else []

/-- The inner loop of `grep` on the bytes of the buffer, where `line` is what `strchr` has passed since the last
newline: what is written, and what is left. -/
def scan (re : List UInt8) : List UInt8 → List UInt8 → List UInt8 × List UInt8
  | line, [] => ([], line)
  | line, b :: buf =>
    if b = newline then (writeLine re line ++ (scan re [] buf).1, (scan re [] buf).2)
    else scan re (line ++ [b]) buf

/-- The loop of `grep`, with the bytes that are carried over, the input that is left and the output from there
on. A `read` delivers at least one byte and at most as many as it asks for, and nothing at the end of the input
or if it asks for nothing. -/
inductive Reads (re : List UInt8) : List UInt8 → List UInt8 → List UInt8 → Prop
  | done {buf input : List UInt8} (h : input = [] ∨ BUFLEN - buf.length = 0) : Reads re buf input []
  | read {buf input out : List UInt8} (n : ℕ) (hpos : 0 < n) (hasked : n ≤ BUFLEN - buf.length)
      (hinput : n ≤ input.length)
      (hrest : Reads re (scan re [] (buf ++ input.take n)).2 (input.drop n) out) :
      Reads re buf input ((scan re [] (buf ++ input.take n)).1 ++ out)

/-- The lines of an input, without their newlines; what follows the last newline is not a line. -/
def terminatedLines (input : List UInt8) : List (List UInt8) := (input.splitOn newline).dropLast

/-- What `grep` is to write. -/
def matching (re : List UInt8) (lines : List (List UInt8)) : List UInt8 := lines.flatMap (writeLine re)

section Lines

/-- The lines of a text whose first line has begun. -/
def linesFrom : List UInt8 → List UInt8 → List (List UInt8)
  | _, [] => []
  | line, b :: text => if b = newline then line :: linesFrom [] text else linesFrom (line ++ [b]) text

theorem linesFrom_eq (line text : List UInt8) :
    linesFrom line text = (terminatedLines text).modifyHead (line ++ ·) := by
  induction text generalizing line with
  | nil => rfl
  | cons b text ih =>
    have hne : text.splitOn newline ≠ [] := splitOnP_ne_nil _ _
    obtain ⟨first, rest, hsplit⟩ := exists_cons_of_ne_nil hne
    rw [terminatedLines, hsplit] at ih
    rw [terminatedLines, List.splitOn, splitOnP_cons_eq_if_modifyHead, ← List.splitOn, hsplit, linesFrom]
    by_cases hb : b = newline
    · cases rest <;> simp [hb, ih]
    · cases rest <;> simp [hb, ih]

variable (re : List UInt8)

/-- The inner loop writes the lines that match. -/
theorem scan_written (line buf : List UInt8) : (scan re line buf).1 = matching re (linesFrom line buf) := by
  induction buf generalizing line with
  | nil => rfl
  | cons b buf ih =>
    rw [scan, linesFrom]
    split
    · simp [matching, ih]
    · exact ih _

theorem linesFrom_append (line a b : List UInt8) :
    linesFrom line (a ++ b) = linesFrom line a ++ linesFrom (scan re line a).2 b := by
  induction a generalizing line with
  | nil => rfl
  | cons x a ih =>
    rw [cons_append, linesFrom, linesFrom, scan]
    split
    · simp [ih]
    · exact ih _

/-- Lines and the rest take no more bytes than there are. -/
theorem length_scan_le (line buf : List UInt8) :
    (scan re line buf).2.length ≤ line.length + buf.length ∧
      ∀ l ∈ linesFrom line buf, l.length < line.length + buf.length := by
  induction buf generalizing line with
  | nil => simp [scan, linesFrom]
  | cons b buf ih =>
    rw [scan, linesFrom, length_cons]
    split
    · obtain ⟨hrest, hlines⟩ := ih []
      rw [length_nil] at hrest hlines
      refine ⟨by dsimp only; omega, fun l hl => ?_⟩
      obtain rfl | hl := mem_cons.1 hl
      · omega
      · have := hlines l hl
        omega
    · have := ih (line ++ [b])
      rw [length_append, length_singleton, Nat.add_right_comm, Nat.add_assoc] at this
      exact this

/-- Bytes without a newline only make the line longer. -/
theorem scan_line {a : List UInt8} (ha : newline ∉ a) (line b : List UInt8) :
    scan re line (a ++ b) = scan re (line ++ a) b := by
  induction a generalizing line with
  | nil => simp
  | cons x a ih =>
    rw [mem_cons, not_or] at ha
    rw [cons_append, scan, if_neg (Ne.symm ha.1), ih ha.2, append_assoc, singleton_append]

/-- What is left has no newline in it. -/
theorem newline_notMem_scan {line : List UInt8} (hline : newline ∉ line) (buf : List UInt8) :
    newline ∉ (scan re line buf).2 := by
  induction buf generalizing line with
  | nil => exact hline
  | cons b buf ih =>
    rw [scan]
    split
    · exact ih not_mem_nil
    · rename_i hb
      exact ih (by simp [hline, Ne.symm hb])

end Lines

section Output

variable {re buf input out : List UInt8}

/-- Whatever the pieces are, the loop comes to an end. -/
theorem exists_reads (re buf input : List UInt8) (hlen : buf.length ≤ BUFLEN) : ∃ out, Reads re buf input out := by
  induction hn : input.length generalizing buf input with
  | zero => exact ⟨[], .done (.inl (eq_nil_of_length_eq_zero hn))⟩
  | succ n ih =>
    by_cases hfull : BUFLEN - buf.length = 0
    · exact ⟨[], .done (.inr hfull)⟩
    have hscan := (length_scan_le re [] (buf ++ input.take 1)).1
    simp only [length_nil, length_append, length_take] at hscan
    obtain ⟨out, hout⟩ := ih (scan re [] (buf ++ input.take 1)).2 (input.drop 1) (by omega)
      (by rw [length_drop]; omega)
    exact ⟨_, .read 1 one_pos (by omega) (by omega) hout⟩

/-- The output comes from the lines in front of the first one that fills the buffer. -/
theorem Reads.out_eq (h : Reads re buf input out) (hbuf : newline ∉ buf) (hlen : buf.length ≤ BUFLEN) :
    out = matching re ((linesFrom buf input).takeWhile (·.length < BUFLEN)) := by
  induction h with
  | @done buf input h =>
    obtain rfl | hfull := h
    · rfl
    rw [linesFrom_eq]
    cases terminatedLines input with
    | nil => rfl
    | cons line lines =>
      rw [modifyHead_cons, takeWhile_cons_of_neg]
      · rfl
      · rw [length_append, decide_eq_true_eq]
        omega
  | @read buf input out n hpos hasked hinput _ ih =>
    have hscan : scan re [] (buf ++ input.take n) = scan re buf (input.take n) := scan_line re hbuf ..
    obtain ⟨hrest, hlines⟩ := length_scan_le re buf (input.take n)
    rw [length_take, min_eq_left hinput] at hrest hlines
    rw [hscan] at ih ⊢
    rw [ih (newline_notMem_scan re hbuf _) (by omega), scan_written, matching, matching, matching, ← flatMap_append]
    conv_rhs => rw [← take_append_drop n input, linesFrom_append re]
    rw [takeWhile_append_of_pos]
    intro l hl
    have := hlines l hl
    rw [decide_eq_true_eq]
    omega

/-- `grep` writes all lines that match, exactly if none of them comes at or after a line that fills the
buffer. -/
theorem grep_complete_iff (h : Reads re [] input out) : out = matching re (terminatedLines input) ↔
    ∀ line ∈ (terminatedLines input).dropWhile (·.length < BUFLEN), matchText re line = false := by
  have hlines : linesFrom [] input = terminatedLines input := by
    rw [linesFrom_eq]
    cases terminatedLines input <;> rfl
  have hout := h.out_eq not_mem_nil (Nat.zero_le _)
  have hall : matching re (terminatedLines input) =
      out ++ matching re ((terminatedLines input).dropWhile (·.length < BUFLEN)) := by
    rw [hout, hlines, matching, matching, matching, ← flatMap_append, takeWhile_append_dropWhile]
  rw [hall, self_eq_append_right, matching, flatMap_eq_nil_iff]
  simp [writeLine]

/-- A line that fills the buffer. -/
def longLine : List UInt8 := List.replicate BUFLEN 97 ++ [newline]

/-- The empty pattern matches the long line, and `grep` does not write it. -/
theorem grep_loses_longLine : ∃ out, Reads [] [] longLine out ∧ out ≠ matching [] (terminatedLines longLine) := by
  obtain ⟨out, hrun⟩ := exists_reads [] [] longLine (Nat.zero_le _)
  refine ⟨out, hrun, ?_⟩
  rw [hrun.out_eq not_mem_nil (Nat.zero_le _)]
  decide +kernel

/-- Two lines, of which the second one matches. -/
theorem grep_complete_two : ∃ out, Reads [98] [] [97, 10, 97, 98, 10] out ∧
    out = matching [98] (terminatedLines [97, 10, 97, 98, 10]) := by
  obtain ⟨out, hrun⟩ := exists_reads [98] [] [97, 10, 97, 98, 10] (Nat.zero_le _)
  exact ⟨out, hrun, (grep_complete_iff hrun).2 (by decide +kernel)⟩

end Output

end Xv6.Grep
