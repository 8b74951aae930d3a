import Mathlib.Computability.Language

/-!
# The matcher of `grep`

`match`, `matchhere` and `matchstar` of `grep.c`. A string is the list of its bytes before the null byte, so
that the null byte is the end of the list. A pattern is read as a sequence of items between two optional
anchors and denotes a language; the matcher decides it.
-/

namespace Xv6.Grep

open Computability

/-- `'^'`. -/
abbrev caret : UInt8 := 94

/-- `'$'`. -/
abbrev dollar : UInt8 := 36

/-- `'*'`. -/
abbrev star : UInt8 := 42

/-- `'.'`. -/
abbrev dot : UInt8 := 46

/-- `matchstar`, where `here` is `matchhere` of the rest of the pattern. -/
def matchstar (c : UInt8) (here : List UInt8 → Bool) : List UInt8 → Bool
  | [] => here []
  | b :: text => here (b :: text) || ((b = c || c = dot) && matchstar c here text)

/-- `matchhere`. -/
def matchhere : List UInt8 → List UInt8 → Bool
  | [], _ => true
  | [c], text =>
    if c = dollar then text = []
    else match text with
      | [] => false
      | b :: text => (c = dot || c = b) && matchhere [] text
  | c :: d :: re, text =>
    if d = star then matchstar c (matchhere re) text
    else match text with
      | [] => false
      | b :: text => (c = dot || c = b) && matchhere (d :: re) text

/-- `match`: the suffixes of the text are tried one after the other, down to the empty one. -/
def matchText (re text : List UInt8) : Bool :=
  if re.head? = some caret then matchhere re.tail text else text.tails.any (matchhere re)

section Reading

/-- An item of a pattern: a character or `'.'`, starred or not. -/
structure Item where
  char : UInt8
  starred : Bool

/-- A pattern as it is read: is it anchored at the start, its items, and is it anchored at the end. -/
structure Pattern where
  caret : Bool
  items : List Item
  dollar : Bool

/-- Read the items of a pattern and the anchor at its end. -/
def readItems : List UInt8 → List Item × Bool
  | [] => ([], false)
  | [c] => if c = dollar then ([], true) else ([⟨c, false⟩], false)
  | c :: d :: re =>
    if d = star then (⟨c, true⟩ :: (readItems re).1, (readItems re).2)
    else (⟨c, false⟩ :: (readItems (d :: re)).1, (readItems (d :: re)).2)

/-- Read a pattern. -/
def readPattern (re : List UInt8) : Pattern :=
  let body := readItems (if re.head? = some caret then re.tail else re)
  ⟨re.head? = some caret, body.1, body.2⟩

end Reading

section Meaning

/-- The texts of one character that an item stands for; `'.'` stands for all of them. -/
def atom (c : UInt8) : Language UInt8 := {text | ∃ b, text = [b] ∧ (c = dot ∨ c = b)}

/-- The texts that an item stands for. -/
def Item.lang (i : Item) : Language UInt8 := if i.starred then (atom i.char)∗ else atom i.char

/-- What may stand at an end of a pattern: nothing if it is anchored there, any text otherwise. -/
def beyond (anchored : Bool) : Language UInt8 := if anchored then 1 else ⊤

/-- The language of a pattern. -/
def Pattern.lang (p : Pattern) : Language UInt8 :=
  beyond p.caret * (p.items.map Item.lang).prod * beyond p.dollar

end Meaning

section Correctness

variable {c b : UInt8} {text : List UInt8} {l : Language UInt8}

theorem nil_notMem_atom_mul : [] ∉ atom c * l := by
  rintro ⟨u, ⟨b, rfl, -⟩, v, -, hcat⟩
  cases hcat

theorem cons_mem_atom_mul : b :: text ∈ atom c * l ↔ (c = dot ∨ c = b) ∧ text ∈ l := by
  constructor
  · rintro ⟨u, ⟨b', rfl, hb⟩, v, hv, hcat⟩
    obtain ⟨rfl, rfl⟩ := List.cons.inj hcat
    exact ⟨hb, hv⟩
  · rintro ⟨hb, htext⟩
    exact ⟨[b], ⟨b, rfl, hb⟩, text, htext, rfl⟩

/-- A starred item is absent, or there is one character of it in front. -/
theorem mem_star_mul : text ∈ (atom c)∗ * l ↔ text ∈ l ∨ text ∈ atom c * ((atom c)∗ * l) := by
  rw [← mul_assoc, ← Language.mem_add]
  nth_rewrite 1 [← Language.one_add_self_mul_kstar_eq_kstar (atom c)]
  rw [add_mul, one_mul]

theorem mem_beyond_true : text ∈ beyond true ↔ text = [] := Iff.rfl

theorem mem_beyond_false : text ∈ beyond false := Set.mem_univ text

theorem matchstar_iff {here : List UInt8 → Bool} (hhere : ∀ t, here t ↔ t ∈ l) (text : List UInt8) :
    matchstar c here text ↔ text ∈ (atom c)∗ * l := by
  induction text with
  | nil => simp [matchstar, mem_star_mul, nil_notMem_atom_mul, hhere]
  | cons b text ih =>
    rw [mem_star_mul, cons_mem_atom_mul, ← ih, ← hhere]
    simp only [matchstar, Bool.or_eq_true, Bool.and_eq_true, decide_eq_true_eq]
    rw [or_comm (a := b = c), eq_comm (a := b)]

/-- `matchhere` looks for the items of a pattern at the beginning of the text. -/
theorem matchhere_iff (re text : List UInt8) :
    matchhere re text ↔ text ∈ ((readItems re).1.map Item.lang).prod * beyond (readItems re).2 := by
  induction re using readItems.induct generalizing text with
  | case1 => simp [matchhere, readItems, mem_beyond_false]
  | case2 => simp [matchhere, readItems, mem_beyond_true]
  | case3 c hc =>
    cases text with
    | nil => simp [matchhere, readItems, hc, Item.lang, nil_notMem_atom_mul]
    | cons b text => simp [matchhere, readItems, hc, Item.lang, cons_mem_atom_mul, mem_beyond_false]
  | case4 c re ih => simpa [matchhere, readItems, Item.lang, mul_assoc] using matchstar_iff ih text
  | case5 c d re hd ih =>
    cases text with
    | nil => simp [matchhere, readItems, hd, Item.lang, mul_assoc, nil_notMem_atom_mul]
    | cons b text => simp [matchhere, readItems, hd, Item.lang, mul_assoc, cons_mem_atom_mul, ih]

/-- The matcher of `grep` accepts a text exactly if it is in the language that the pattern denotes. -/
theorem matchText_iff (re text : List UInt8) : matchText re text = true ↔ text ∈ (readPattern re).lang := by
  rw [matchText, readPattern, Pattern.lang, mul_assoc]
  by_cases h : re.head? = some caret
  · simp only [h, if_true, decide_true, matchhere_iff]
    rw [show beyond true = 1 from rfl, one_mul]
  · simp only [h, if_false, decide_false, List.any_eq_true, List.mem_tails, matchhere_iff]
    constructor
    · rintro ⟨rest, ⟨front, rfl⟩, hrest⟩
      exact Language.append_mem_mul mem_beyond_false hrest
    · rintro ⟨front, -, rest, hrest, rfl⟩
      exact ⟨rest, ⟨front, rfl⟩, hrest⟩

end Correctness

end Xv6.Grep
