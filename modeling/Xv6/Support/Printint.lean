import Mathlib.Data.Nat.Digits.Lemmas
import Mathlib.Tactic.Common

/-!
# Printing numbers

The two versions of `printint`, of `kernel/printf.c` and of `user/printf.c`. Both put the digits of a number
into a buffer of 20 characters, the last one first, and then write the buffer out backwards. A character
that does not fit into the buffer leaves no result.
-/

namespace Xv6.Support

open List Nat

/-- `buf[i++] = c`, in a buffer with `i` characters. -/
def store (buf : List Char) (c : Char) : Option (List Char) :=
  if buf.length < 20 then some (buf ++ [c]) else none

/-- The loop over the digits. -/
def digitLoop (digits : List Char) (base : ℕ) : ℕ → ℕ → List Char → Option (List Char)
  | 0, _, _ => none
  | fuel + 1, x, buf => do
    let buf ← store buf (digits.getD (x % base) ' ')
    if x / base = 0 then some buf else digitLoop digits base fuel (x / base) buf

/-- The digits and the sign, and the buffer backwards; 64 bits have at most 64 digits. -/
def emit (digits : List Char) (base : ℕ) (neg : Bool) (x : BitVec 64) : Option (List Char) := do
  let buf ← digitLoop digits base 64 x.toNat []
  let buf ← if neg then store buf '-' else some buf
  some buf.reverse

namespace Kernel

/-- The digits of the kernel. -/
def digits : List Char := "0123456789abcdef".toList

/-- `printint` of the kernel; its test replaces `sign` by the sign of the number. -/
def printint (xx : BitVec 64) (base : ℕ) (sign : Bool) : Option (List Char) :=
  let sign := if sign then decide (xx.toInt < 0) else sign
  emit digits base sign (if sign then -xx else xx)

end Kernel

namespace User

/-- The digits of the user library. -/
def digits : List Char := "0123456789ABCDEF".toList

/-- `printint` of the user library. -/
def printint (xx : BitVec 64) (base : ℕ) (sgn : Bool) : Option (List Char) :=
  let neg := decide (sgn = true ∧ xx.toInt < 0)
  emit digits base neg (if neg then -xx else xx)

end User

/-- The number as it is treated. -/
def treated (sign : Bool) (xx : BitVec 64) : ℤ := if sign then xx.toInt else xx.toNat

/-- The bases that `printf` passes. -/
def radix (hex : Bool) : ℕ := if hex then 16 else 10

/-- The value of a digit in either case. -/
def figure (c : Char) : ℕ := Kernel.digits.idxOf c.toLower

/-- The value of a numeral. -/
def evaluate (base : ℕ) (numeral : List Char) : ℕ := numeral.foldl (fun n c => n * base + figure c) 0

/-- A text is the numeral of a number, with a sign exactly if the number is negative. -/
def Prints (base : ℕ) (v : ℤ) (text : List Char) : Prop :=
  ∃ numeral, text = (if v < 0 then '-' :: numeral else numeral) ∧ numeral ≠ [] ∧
    (∀ c ∈ numeral, figure c < base) ∧ (numeral.head? = some '0' → numeral = ['0']) ∧
    evaluate base numeral = v.natAbs

/-- The digits of a number, the last one first; zero has one digit. -/
def figures (base x : ℕ) : List ℕ := (x % base) :: Nat.digits base (x / base)

/-- The characters of a number. -/
def numeral (digits : List Char) (base x : ℕ) : List Char :=
  ((figures base x).map fun i => digits.getD i ' ').reverse

variable {digits : List Char} {base x : ℕ} {neg : Bool} {w : BitVec 64}

section

variable (hbase : 1 < base)

include hbase

/-- The loop stores the digits of a number, if there is room for them. -/
theorem digitLoop_eq {fuel : ℕ} {buf : List Char} (hroom : buf.length + (figures base x).length ≤ 20)
    (hfuel : (figures base x).length ≤ fuel) : digitLoop digits base fuel x buf =
      some (buf ++ (figures base x).map fun i => digits.getD i ' ') := by
  induction fuel generalizing x buf with
  | zero => cases hfuel
  | succ fuel ih =>
    rw [figures, length_cons] at hroom hfuel
    have hstore : buf.length < 20 := by omega
    by_cases hdiv : x / base = 0
    · simp [digitLoop, store, figures, hdiv, hstore]
    · have hdigits : figures base (x / base) = Nat.digits base (x / base) :=
        (Nat.digits_def' hbase (Nat.pos_of_ne_zero hdiv)).symm
      have hrest : digitLoop digits base fuel (x / base) (buf ++ [digits.getD (x % base) ' ']) = _ :=
        ih (by rw [hdigits, length_append, length_singleton]; omega) (by rw [hdigits]; omega)
      rw [digitLoop, store, if_pos hstore]
      change (if x / base = 0 then _ else _) = _
      rw [if_neg hdiv, hrest, hdigits, figures, map_cons, append_assoc]
      rfl

theorem length_figures_le {k : ℕ} (hx : x < base ^ (k + 1)) : (figures base x).length ≤ k + 1 := by
  have hdiv : x / base < base ^ k := Nat.div_lt_of_lt_mul (by rwa [← pow_succ'])
  exact Nat.succ_le_succ ((Nat.digits_length_le_iff hbase _).2 hdiv)

theorem lt_of_mem_figures {i : ℕ} (hi : i ∈ figures base x) : i < base := by
  cases mem_cons.1 hi with
  | inl h => exact h ▸ mod_lt x (by omega)
  | inr h => exact digits_lt_base hbase h

/-- The digits and the sign are printed if there is room for them. -/
theorem emit_eq (hlen : (figures base w.toNat).length + neg.toNat ≤ 20) : emit digits base neg w =
    some (if neg then '-' :: numeral digits base w.toNat else numeral digits base w.toNat) := by
  rw [emit, digitLoop_eq hbase (by rw [length_nil]; omega) (by omega)]
  cases neg with
  | false => simp [numeral]
  | true =>
    have hstore : (figures base w.toNat).length < 20 := hlen
    simp [store, numeral, hstore]

variable (hle : base ≤ 16) (hdigits : ∀ i < 16, figure (digits.getD i ' ') = i)

include hle hdigits

/-- A numeral is evaluated back to its number. -/
theorem evaluate_numeral : evaluate base (numeral digits base x) = x := by
  have hall : ∀ l : List ℕ, (∀ i ∈ l, i < base) →
      evaluate base (l.map fun i => digits.getD i ' ').reverse = ofDigits base l := by
    intro l hl
    induction l with
    | nil => rfl
    | cons i l ih =>
      have hrest := ih fun j hj => hl j (mem_cons_of_mem i hj)
      have hi := hdigits i ((hl i mem_cons_self).trans_le hle)
      rw [evaluate] at hrest ⊢
      rw [map_cons, reverse_cons, foldl_append, hrest, foldl_cons, foldl_nil, hi, ofDigits_cons]
      exact (add_comm _ _).trans (congrArg _ (mul_comm _ _))
  rw [numeral, hall _ fun i hi => lt_of_mem_figures hbase hi, figures, ofDigits_cons, ofDigits_digits]
  exact mod_add_div x base

/-- The numeral of the absolute value of a number is that of the number. -/
theorem prints_numeral {v : ℤ} (hneg : v < 0 ↔ neg = true) (hv : v.natAbs = x) :
    Prints base v (if neg then '-' :: numeral digits base x else numeral digits base x) := by
  refine ⟨numeral digits base x, ?_, ?_, ?_, ?_, ?_⟩
  · simp only [hneg]
  · simp [numeral, figures]
  · intro c hc
    rw [numeral, mem_reverse, mem_map] at hc
    obtain ⟨i, hi, rfl⟩ := hc
    have hlt := lt_of_mem_figures hbase hi
    rwa [hdigits i (hlt.trans_le hle)]
  · -- the first digit of a number is the last one of its list
    intro hzero
    by_cases hdiv : x / base = 0
    · rw [numeral, figures, hdiv] at hzero ⊢
      simpa using hzero
    · have hne : Nat.digits base (x / base) ≠ [] := Nat.digits_ne_nil_iff_ne_zero.2 hdiv
      rw [numeral, figures, head?_reverse, getLast?_map, getLast?_cons_of_ne_nil hne,
        getLast?_eq_getLast_of_ne_nil hne, Option.map_some, Option.some.injEq] at hzero
      have hlt := (digits_lt_base hbase (getLast_mem hne)).trans_le hle
      have hfigure := hdigits _ hlt
      rw [hzero] at hfigure
      exact absurd hfigure.symm (getLast_digit_ne_zero base hdiv)
  · rw [evaluate_numeral hbase hle hdigits, hv]

end

/-- The digits and the sign fit into the buffer, without room to spare. -/
theorem length_figures_add_sign (hbase : 10 ≤ base) (hw : neg = true → w.toNat ≤ 2 ^ 63) :
    (figures base w.toNat).length + neg.toNat ≤ 20 := by
  have hpow (k : ℕ) : 10 ^ k ≤ base ^ k := Nat.pow_le_pow_left hbase k
  cases neg with
  | true =>
    have hw := hw rfl
    exact succ_le_succ (length_figures_le (k := 18) (by omega) (lt_of_lt_of_le (by omega) (hpow 19)))
  | false => exact length_figures_le (k := 19) (by omega) (lt_of_lt_of_le (by omega) (hpow 20))

/-- The sign and the digits that are printed are those of the number. -/
theorem treated_spec (sign : Bool) (xx : BitVec 64) (hneg : (sign && decide (xx.toInt < 0)) = neg)
    (hw : (if neg then -xx else xx) = w) :
    (treated sign xx < 0 ↔ neg = true) ∧ (treated sign xx).natAbs = w.toNat ∧
      (neg = true → w.toNat ≤ 2 ^ 63) := by
  have hlt := xx.isLt
  have hint := BitVec.toInt_eq_toNat_cond xx
  subst hneg hw
  cases sign with
  | false => simp [treated]
  | true =>
    simp only [treated, if_true, Bool.true_and, decide_eq_true_eq, true_and]
    split
    · rw [BitVec.toNat_neg]
      split at hint <;> omega
    · split at hint <;> omega

/-- For every 64-bit number, in base 10 or 16 and with or without a sign, both versions of `printint` stay
within their buffers and print the number as it is treated: a numeral without leading zeros that is evaluated
back to it, behind a sign exactly if it is negative. The texts are the same up to the case of the digits. -/
theorem printint_prints (xx : BitVec 64) (hex sign : Bool) : ∃ text text',
    Kernel.printint xx (radix hex) sign = some text ∧ User.printint xx (radix hex) sign = some text' ∧
      Prints (radix hex) (treated sign xx) text ∧ Prints (radix hex) (treated sign xx) text' ∧
      text'.map Char.toLower = text := by
  have hten : 10 ≤ radix hex := by cases hex <;> decide
  have hle : radix hex ≤ 16 := by cases hex <;> decide
  generalize radix hex = base at hten hle
  have hbase : 1 < base := by omega
  generalize hneg : (sign && decide (xx.toInt < 0)) = neg
  generalize hw : (if neg then -xx else xx) = w
  have hkernel : Kernel.printint xx base sign = emit Kernel.digits base neg w := by
    subst hw hneg
    cases sign <;> simp [Kernel.printint]
  have huser : User.printint xx base sign = emit User.digits base neg w := by
    subst hw hneg
    cases sign <;> simp [User.printint]
  obtain ⟨hsign, habs, hmin⟩ := treated_spec sign xx hneg hw
  have hlen := length_figures_add_sign hten hmin
  refine ⟨_, _, hkernel.trans (emit_eq hbase hlen), huser.trans (emit_eq hbase hlen),
    prints_numeral hbase hle (by decide) hsign habs, prints_numeral hbase hle (by decide) hsign habs, ?_⟩
  have hcase : ∀ i < 16, (User.digits.getD i ' ').toLower = Kernel.digits.getD i ' ' := by decide
  have htext : (numeral User.digits base w.toNat).map Char.toLower = numeral Kernel.digits base w.toNat := by
    rw [numeral, numeral, map_reverse, map_map]
    refine congrArg reverse (map_congr_left fun i hi => ?_)
    exact hcase i ((lt_of_mem_figures hbase hi).trans_le hle)
  cases neg with
  | false => exact htext
  | true => exact congrArg (cons '-') htext

end Xv6.Support
