import Mathlib.Data.List.Basic
import Mathlib.Tactic.Common
import Xv6.Shell.Code

/-!
# Tokens of the shell

A text spells tokens if it is made of them, with any number of spaces before each of them and at the end,
and at least one space or symbol behind each word. `peek` sees the first of the tokens that are left, and
`gettoken` takes it.
-/

namespace Xv6.Shell

open List

/-- The kinds of redirections. -/
inductive Redirect
  | input
  | output
  | append
deriving DecidableEq, Repr

/-- The tokens of the language. -/
inductive Token
  | word (w : List Char)
  | redirect (r : Redirect)
  | bar
  | amp
  | semi
  | left
  | right
deriving DecidableEq, Repr

/-- The characters of a token. -/
def Token.text : Token → List Char
  | .word w => w
  | .redirect .input => ['<']
  | .redirect .output => ['>']
  | .redirect .append => ['>', '>']
  | .bar => ['|']
  | .amp => ['&']
  | .semi => [';']
  | .left => ['(']
  | .right => [')']

/-- What `gettoken` returns for a token. -/
def Token.ret : Token → Char
  | .word _ => 'a'
  | .redirect .input => '<'
  | .redirect .output => '>'
  | .redirect .append => '+'
  | .bar => '|'
  | .amp => '&'
  | .semi => ';'
  | .left => '('
  | .right => ')'

/-- A word is not empty and has no space, no symbol and no NUL in it. -/
def WordOk (w : List Char) : Prop := w ≠ [] ∧ ∀ c ∈ w, inWord c = true ∧ c ≠ NUL

instance (w : List Char) : Decidable (WordOk w) :=
  decidable_of_iff (w ≠ [] ∧ w.all (fun c => inWord c && c != NUL) = true) (by
    rw [WordOk, List.all_eq_true]
    simp only [Bool.and_eq_true, bne_iff_ne])

/-- A text that may stand behind a token. -/
def Token.Parts (tok : Token) (t : List Char) : Prop :=
  match tok with
  | .word w => WordOk w ∧ ∀ c ∈ t.head?, inWord c = false
  | .redirect .output => ∀ c ∈ t.head?, c ≠ '>'
  | _ => True

/-- The text spells the tokens, with spaces before them and at the end. -/
inductive Spelled : List Token → List Char → Prop
  | nil {w : List Char} (hw : ∀ c ∈ w, strchr whitespace c = true) : Spelled [] w
  | cons {w t : List Char} {tok : Token} {toks : List Token}
      (hw : ∀ c ∈ w, strchr whitespace c = true) (hparts : tok.Parts t) (ht : Spelled toks t) :
      Spelled (tok :: toks) (w ++ (tok.text ++ t))

/-- Memory has a text at an address, and NUL behind it. -/
def Holds (mem : Memory) : ℕ → List Char → Prop
  | s, [] => mem s = NUL
  | s, c :: t => mem s = c ∧ Holds mem (s + 1) t

/-- Memory has the spelling of the tokens at an address, up to the end of the text. -/
def At (mem : Memory) (es s : ℕ) (toks : List Token) : Prop :=
  ∃ t, Spelled toks t ∧ Holds mem s t ∧ es = s + t.length

variable {mem : Memory} {es s : ℕ} {toks : List Token} {tok : Token}

theorem strchr_iff {l : List Char} {c : Char} : strchr l c = true ↔ c ∈ l := by
  rw [strchr, contains_eq_mem, decide_eq_true_eq]

theorem inWord_iff {c : Char} : inWord c = true ↔ c ∉ whitespace ∧ c ∉ symbols := by
  rw [inWord, Bool.and_eq_true, Bool.not_eq_true', Bool.not_eq_true', ← Bool.not_eq_true, ← Bool.not_eq_true,
    strchr_iff, strchr_iff]

variable {t u : List Char}

theorem Holds.append (h : Holds mem s (t ++ u)) : Holds mem (s + t.length) u := by
  induction t generalizing s with
  | nil => exact h
  | cons c t ih =>
    rw [length_cons, Nat.add_comm t.length, ← Nat.add_assoc]
    exact ih h.2

/-- Skipping stops behind the characters of a kind. -/
theorem skip_eq {p : Char → Bool} {w : List Char} (h : Holds mem s (w ++ t)) (hw : ∀ c ∈ w, p c = true)
    (ht : ∀ c ∈ t.head?, p c = false) : skip p mem (w ++ t).length s = s + w.length := by
  induction w generalizing s with
  | nil =>
    cases t with
    | nil => rfl
    | cons c t =>
      have hc : mem s = c := h.1
      rw [nil_append, length_cons, skip, hc, ht c rfl]
      rfl
  | cons c w ih =>
    have hc : mem s = c := h.1
    rw [cons_append, length_cons, skip, hc, if_pos (hw c mem_cons_self),
      ih h.2 fun d hd => hw d (mem_cons_of_mem c hd), length_cons]
    omega

/-- The tokens are spelled at an address, without a space before them. -/
def Ready (mem : Memory) (es s : ℕ) : List Token → Prop
  | [] => s = es ∧ mem s = NUL
  | tok :: toks => ∃ t, tok.Parts t ∧ Spelled toks t ∧ Holds mem s (tok.text ++ t) ∧
      es = s + (tok.text ++ t).length

/-- The first character of the tokens. -/
def first : List Token → Char
  | [] => NUL
  | tok :: _ => tok.text.headD NUL

theorem Token.text_ne_nil (h : tok.Parts t) : tok.text ≠ [] := by
  match tok with
  | .word w => exact h.1.1
  | .redirect .input | .redirect .output | .redirect .append => exact cons_ne_nil _ _
  | .bar | .amp | .semi | .left | .right => exact cons_ne_nil _ _

/-- A token does not start with a space. -/
theorem Token.not_space (h : tok.Parts t) : ∀ c ∈ (tok.text ++ t).head?, strchr whitespace c = false := by
  match tok with
  | .word [] => exact absurd rfl h.1.1
  | .word (c :: w) =>
    intro d hd
    obtain rfl := Option.some.inj hd
    have hc := (inWord_iff.1 (h.1.2 c mem_cons_self).1).1
    exact Bool.eq_false_iff.2 fun hspace => hc (strchr_iff.1 hspace)
  | .redirect .input | .redirect .output | .redirect .append | .bar | .amp | .semi | .left | .right =>
    intro d hd
    obtain rfl := Option.some.inj hd
    decide

/-- Skipping spaces leads to the first token. -/
theorem At.ready (h : At mem es s toks) : Ready mem es (skipSpace mem es s) toks := by
  obtain ⟨t, ht, hmem, rfl⟩ := h
  rw [skipSpace, Nat.add_sub_cancel_left]
  cases ht with
  | nil hw =>
    have hend : skip (strchr whitespace) mem t.length s = s + t.length := by
      have hmem : Holds mem s (t ++ []) := by rwa [append_nil]
      have := skip_eq hmem hw fun c hc => nomatch hc
      rwa [append_nil] at this
    rw [hend]
    have hmem : Holds mem s (t ++ []) := by rwa [append_nil]
    exact ⟨rfl, hmem.append⟩
  | @cons w t tok toks hw hparts ht =>
    rw [skip_eq hmem hw (Token.not_space hparts)]
    refine ⟨t, hparts, ht, hmem.append, ?_⟩
    rw [length_append, Nat.add_assoc]

theorem Ready.at (h : Ready mem es s toks) : At mem es s toks := by
  cases toks with
  | nil =>
    obtain ⟨rfl, hnul⟩ := h
    exact ⟨[], .nil fun c hc => absurd hc not_mem_nil, hnul, rfl⟩
  | cons tok toks =>
    obtain ⟨t, hparts, ht, hmem, hes⟩ := h
    exact ⟨_, .cons (w := []) (fun c hc => absurd hc not_mem_nil) hparts ht, hmem, hes⟩

/-- Memory has the first character of the tokens. -/
theorem Ready.mem_eq (h : Ready mem es s toks) : mem s = first toks := by
  cases toks with
  | nil => exact h.2
  | cons tok toks =>
    obtain ⟨t, hparts, ht, hmem, hes⟩ := h
    cases htext : tok.text with
    | nil => exact absurd htext (Token.text_ne_nil hparts)
    | cons c u =>
      rw [htext] at hmem
      rw [first, htext]
      exact hmem.1

/-- The words of a text are words. -/
theorem Spelled.wordOk (h : Spelled toks t) {w : List Char} (hw : .word w ∈ toks) : WordOk w := by
  induction h with
  | nil => exact absurd hw not_mem_nil
  | cons _ hparts _ ih =>
    cases mem_cons.1 hw with
    | inl heq =>
      subst heq
      exact hparts.1
    | inr hw => exact ih hw

/-- Whether the first token starts with one of some characters. -/
def starts (chars : List Char) (toks : List Token) : Bool :=
  first toks ≠ NUL && strchr chars (first toks)

/-- A word is not a symbol. -/
theorem starts_word {w : List Char} (hw : WordOk w) {chars : List Char}
    (hchars : chars.all (strchr symbols) = true) : starts chars (.word w :: toks) = false := by
  cases w with
  | nil => exact absurd rfl hw.1
  | cons c w =>
    have hc := (inWord_iff.1 (hw.2 c mem_cons_self).1).2
    rw [starts, Bool.and_eq_false_iff]
    refine .inr (Bool.eq_false_iff.2 fun h => hc ?_)
    exact strchr_iff.1 (all_eq_true.1 hchars c (strchr_iff.1 h))

/-- `peek` tells how the first token starts and leaves the tokens where they are. -/
theorem peek_spec (h : At mem es s toks) (chars : List Char) :
    (peek mem es s chars).1 = starts chars toks ∧ Ready mem es (peek mem es s chars).2 toks := by
  have hready := h.ready
  refine ⟨?_, hready⟩
  rw [peek, starts, ← hready.mem_eq]

/-- A word from one address to another, with something else behind it. -/
structure WordAt (mem : Memory) (q eq : ℕ) (w : List Char) : Prop where
  ok : WordOk w
  text : ∀ i (h : i < w.length), mem (q + i) = w[i]
  stop : eq = q + w.length
  ends : inWord (mem eq) = false ∨ mem eq = NUL

theorem Holds.get (h : Holds mem s (t ++ u)) (i : ℕ) (hi : i < t.length) : mem (s + i) = t[i] := by
  induction t generalizing s i with
  | nil => exact absurd hi (Nat.not_lt_zero i)
  | cons c t ih =>
    cases i with
    | zero => exact h.1
    | succ i =>
      rw [← Nat.add_assoc, Nat.add_right_comm]
      exact ih h.2 i (Nat.lt_of_succ_lt_succ hi)

/-- The kind of a token, and where it ends. -/
theorem scan_eq (hparts : tok.Parts t) (hmem : Holds mem s (tok.text ++ t))
    (hes : es = s + (tok.text ++ t).length) : scan mem es s = (tok.ret, s + tok.text.length) := by
  match tok with
  | .word [] => exact absurd rfl hparts.1.1
  | .word (c :: w) =>
    obtain ⟨hw, hnext⟩ := hparts
    obtain ⟨hc, hnul⟩ := hw.2 c mem_cons_self
    have hmc : mem s = c := hmem.1
    have hnot : c ∉ symbols := (inWord_iff.1 hc).2
    have hsub : ['|', '(', ')', ';', '&', '<'].all (strchr symbols) = true := by decide
    have hsym : ¬ strchr ['|', '(', ')', ';', '&', '<'] c = true := fun h =>
      hnot (strchr_iff.1 (all_eq_true.1 hsub c (strchr_iff.1 h)))
    have hgt : c ≠ '>' := fun heq => hnot (heq ▸ (by decide : '>' ∈ symbols))
    have hskip := skip_eq hmem (fun d hd => (hw.2 d hd).1) hnext
    have hlen : es - s = (c :: w ++ t).length := by
      rw [hes]
      exact Nat.add_sub_cancel_left _ _
    rw [scan, hmc, if_neg hnul, if_neg hsym, if_neg hgt, hlen]
    exact congrArg (Prod.mk 'a') hskip
  | .redirect .output =>
    have hmc : mem s = '>' := hmem.1
    have hnext : mem (s + 1) ≠ '>' := by
      cases t with
      | nil =>
        have hnul : mem (s + 1) = NUL := hmem.2
        rw [hnul]
        decide
      | cons c t =>
        have hc : mem (s + 1) = c := hmem.2.1
        rw [hc]
        exact hparts c rfl
    rw [scan, hmc, if_neg (by decide), if_neg (by decide), if_pos rfl, if_neg hnext]
    rfl
  | .redirect .append =>
    have hmc : mem s = '>' := hmem.1
    have hnext : mem (s + 1) = '>' := hmem.2.1
    rw [scan, hmc, if_neg (by decide), if_neg (by decide), if_pos rfl, if_pos hnext]
    rfl
  | .redirect .input | .bar | .amp | .semi | .left | .right =>
    have hmc := hmem.1
    rw [scan, hmc, if_neg (by decide), if_pos (by decide)]
    rfl

/-- `gettoken` takes the first token. -/
theorem gettoken_spec (h : At mem es s (tok :: toks)) :
    (gettoken mem es s).ret = tok.ret ∧ Ready mem es (gettoken mem es s).s toks ∧
      ∀ w, tok = .word w → WordAt mem (gettoken mem es s).q (gettoken mem es s).eq w := by
  obtain ⟨t, hparts, ht, hmem, hes⟩ := h.ready
  have hscan := scan_eq hparts hmem hes
  have hat : At mem es (skipSpace mem es s + tok.text.length) toks := by
    refine ⟨t, ht, hmem.append, hes.trans ?_⟩
    rw [length_append, Nat.add_assoc]
  refine ⟨congrArg Prod.fst hscan, ?_, ?_⟩
  · change Ready mem es (skipSpace mem es (scan mem es (skipSpace mem es s)).2) toks
    rw [hscan]
    exact hat.ready
  · intro w hw
    subst hw
    change WordAt mem (skipSpace mem es s) (scan mem es (skipSpace mem es s)).2 w
    rw [hscan]
    refine ⟨hparts.1, hmem.get, rfl, ?_⟩
    have hnext : Holds mem (skipSpace mem es s + w.length) t := hmem.append
    cases t with
    | nil => exact .inr hnext
    | cons c t =>
      have hc : mem (skipSpace mem es s + w.length) = c := hnext.1
      exact .inl (hc ▸ hparts.2 c rfl)

/-- At the end of the text `gettoken` finds nothing. -/
theorem gettoken_end (h : At mem es s []) : (gettoken mem es s).ret = NUL ∧ Ready mem es (gettoken mem es s).s [] := by
  obtain ⟨hs, hnul⟩ := h.ready
  have hscan : scan mem es (skipSpace mem es s) = (NUL, skipSpace mem es s) := by
    rw [scan, if_pos hnul, hnul]
  refine ⟨congrArg Prod.fst hscan, ?_⟩
  change Ready mem es (skipSpace mem es (scan mem es (skipSpace mem es s)).2) []
  rw [hscan]
  exact h.ready.at.ready

end Xv6.Shell
