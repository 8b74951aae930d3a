import Mathlib.Data.Nat.Basic
import Mathlib.Tactic.Ring

/-!
# Little-endian words in fixed-size byte containers

A container of `size` bytes is a function on `Fin size`. Reading the word number `i` of width
`w` combines the bytes `w * i, …, w * i + w - 1`, least significant first; storing a word
replaces exactly these bytes. A stored word is read back modulo `256 ^ w`, and storing one word
leaves every other word of the same width alone.
-/

namespace Xv6.Library

/-- A container of `size` bytes. -/
abbrev Bytes (size : ℕ) := Fin size → UInt8

/-- The byte at a position, and zero past the end of the container. -/
def Bytes.at {size : ℕ} (bytes : Bytes size) (i : ℕ) : UInt8 :=
  if h : i < size then bytes ⟨i, h⟩ else 0

theorem Bytes.at_of_lt {size : ℕ} (bytes : Bytes size) {i : ℕ} (h : i < size) : bytes.at i = bytes ⟨i, h⟩ := dif_pos h

/-- The number whose little-endian base-256 digits are the first `w` values of `byte`. -/
def wordOfBytes : ℕ → (ℕ → UInt8) → ℕ
  | 0, _ => 0
  | w + 1, byte => (byte 0).toNat + 256 * wordOfBytes w fun k => byte (k + 1)

/-- The little-endian byte of `value` at position `k`. -/
def byteOfWord (value k : ℕ) : UInt8 := UInt8.ofNat (value / 256 ^ k)

/-- The word of width `w` with index `i`. -/
def Bytes.getWord {size : ℕ} (bytes : Bytes size) (w i : ℕ) : ℕ :=
  wordOfBytes w fun k => bytes.at (w * i + k)

/-- Store `value` as the word of width `w` with index `i`. -/
def Bytes.setWord {size : ℕ} (bytes : Bytes size) (w i value : ℕ) : Bytes size :=
  fun j => if j.val / w = i then byteOfWord value (j.val % w) else bytes j

/-- A word depends only on its own bytes. -/
theorem wordOfBytes_congr {w : ℕ} {byte byte' : ℕ → UInt8}
    (h : ∀ k < w, byte k = byte' k) : wordOfBytes w byte = wordOfBytes w byte' := by
  induction w generalizing byte byte' with
  | zero => rfl
  | succ w ih =>
    rw [wordOfBytes, wordOfBytes, h 0 (by omega), ih fun k hk => h (k + 1) (by omega)]

/-- The digits of a number determine it up to the width of the word. -/
theorem wordOfBytes_byteOfWord (w value : ℕ) : wordOfBytes w (byteOfWord value) = value % 256 ^ w := by
  induction w generalizing value with
  | zero => simp [wordOfBytes, Nat.mod_one]
  | succ w ih =>
    have hshift : (fun k => byteOfWord value (k + 1)) = byteOfWord (value / 256) := by
      funext k
      rw [byteOfWord, byteOfWord, pow_succ', Nat.div_div_eq_div_mul]
    have hzero : (byteOfWord value 0).toNat = value % 256 := by simp [byteOfWord]
    rw [wordOfBytes, hshift, ih, hzero, pow_succ', Nat.mod_mul]

/-- A word of zero bytes is zero. -/
theorem wordOfBytes_zero (w : ℕ) : wordOfBytes w (fun _ => 0) = 0 := by
  induction w with
  | zero => rfl
  | succ w ih => simp [wordOfBytes, ih]

/-- A word of width `w` is below `256 ^ w`. -/
theorem wordOfBytes_lt (w : ℕ) (byte : ℕ → UInt8) : wordOfBytes w byte < 256 ^ w := by
  induction w generalizing byte with
  | zero => simp [wordOfBytes]
  | succ w ih =>
    have htail := ih fun k => byte (k + 1)
    have hhead : (byte 0).toNat < 256 := (byte 0).toNat_lt
    rw [wordOfBytes, pow_succ']
    omega

section Container

variable {size : ℕ} (bytes : Bytes size) {w i : ℕ}

/-- The words of a cleared container are zero. -/
@[simp] theorem getWord_zero (w i : ℕ) : Bytes.getWord (fun _ => 0 : Bytes size) w i = 0 := by
  have hat : (fun k => Bytes.at (fun _ => 0 : Bytes size) (w * i + k)) = fun _ => 0 := by
    funext k
    unfold Bytes.at
    split <;> rfl
  rw [Bytes.getWord, hat, wordOfBytes_zero]

/-- A word of a container is below `256 ^ w`. -/
theorem getWord_lt (w i : ℕ) : bytes.getWord w i < 256 ^ w := wordOfBytes_lt _ _

/-- There is nothing but zero past the end of a container. -/
theorem getWord_of_size_le (h : size ≤ w * i) : bytes.getWord w i = 0 := by
  have hat : (fun k => bytes.at (w * i + k)) = fun _ => 0 := by
    funext k
    rw [Bytes.at, dif_neg (by omega)]
  rw [Bytes.getWord, hat, wordOfBytes_zero]

/-- A stored word is read back, up to its width. -/
theorem getWord_setWord_same (value : ℕ) (hfit : w * i + w ≤ size) :
    (bytes.setWord w i value).getWord w i = value % 256 ^ w := by
  rw [← wordOfBytes_byteOfWord, Bytes.getWord]
  refine wordOfBytes_congr fun k hk => ?_
  have hin : w * i + k < size := by omega
  have hdiv : (w * i + k) / w = i := by
    rw [Nat.mul_add_div (by omega), Nat.div_eq_of_lt hk, add_zero]
  have hmod : (w * i + k) % w = k := by rw [Nat.mul_add_mod, Nat.mod_eq_of_lt hk]
  simp [Bytes.at, Bytes.setWord, hin, hdiv, hmod]

/-- Storing one word leaves the words at other indices alone. -/
theorem getWord_setWord_ne {j : ℕ} (value : ℕ) (hne : j ≠ i) :
    (bytes.setWord w i value).getWord w j = bytes.getWord w j := by
  refine wordOfBytes_congr fun k hk => ?_
  have hdiv : (w * j + k) / w = j := by
    rw [Nat.mul_add_div (by omega), Nat.div_eq_of_lt hk, add_zero]
  simp [Bytes.at, Bytes.setWord, hdiv, hne]

/-- Reading a word after storing one, in one equation. -/
theorem getWord_setWord {j : ℕ} (value : ℕ) (hfit : w * i + w ≤ size) :
    (bytes.setWord w i value).getWord w j = if j = i then value % 256 ^ w else bytes.getWord w j := by
  split
  · next h => subst h; exact getWord_setWord_same bytes value hfit
  · next h => exact getWord_setWord_ne bytes value h

end Container

end Xv6.Library
