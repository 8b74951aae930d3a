import Mathlib.Logic.Function.Basic
import Mathlib.Tactic.Common
import Xv6.Kernel.Param

/-!
# Moving memory

The two versions of `memmove`, of `kernel/string.c` and of `user/ulib.c`. The first goes down from the end
only if the destination starts inside the source, the second whenever it does not start below the source.
Their lengths are the same 32 bits, read as a `uint` and as an `int`.
-/

namespace Xv6.Support

open Function

/-- The bytes of memory. -/
abbrev Memory : Type := ℕ → UInt8

/-- The loop that copies upwards. -/
def copyUp : ℕ → Memory → ℕ → ℕ → Memory
  | 0, m, _, _ => m
  | n + 1, m, d, s => copyUp n (update m d (m s)) ((d + 1) % UINT64) ((s + 1) % UINT64)

/-- A pointer after it was decremented. -/
def before (p : ℕ) : ℕ := (UINT64 - 1 + p) % UINT64

/-- The loop that copies downwards, from behind the ranges. -/
def copyDown : ℕ → Memory → ℕ → ℕ → Memory
  | 0, m, _, _ => m
  | n + 1, m, d, s => copyDown n (update m (before d) (m (before s))) (before d) (before s)

/-- `memmove` of the kernel: the memory and the returned pointer. -/
def Kernel.memmove (m : Memory) (dst src : ℕ) (n : BitVec 32) : Memory × ℕ :=
  if n = 0 then (m, dst)
  else if src < dst ∧ (src + n.toNat) % UINT64 > dst then
    (copyDown n.toNat m ((dst + n.toNat) % UINT64) ((src + n.toNat) % UINT64), dst)
  else (copyUp n.toNat m dst src, dst)

/-- A pointer moved by an `int`. -/
def offset (p : ℕ) (n : BitVec 32) : ℕ := ((p + n.toInt) % UINT64).toNat

/-- `memmove` of the user library; a loop over a negative `int` is not entered. -/
def User.memmove (m : Memory) (dst src : ℕ) (n : BitVec 32) : Memory × ℕ :=
  if src > dst then (copyUp n.toInt.toNat m dst src, dst)
  else (copyDown n.toInt.toNat m (offset dst n) (offset src n), dst)

/-- The memory in which one range has the old contents of another. -/
def moved (m : Memory) (dst src n : ℕ) : Memory := fun a =>
  if dst ≤ a ∧ a < dst + n then m (src + (a - dst)) else m a

variable {m : Memory} {d s dst src n : ℕ}

theorem moved_zero : moved m d s 0 = m := funext fun _ => if_neg (by omega)

/-- After the first byte the rest is moved, if that byte is no longer needed. -/
theorem moved_update_first (h : d ≤ s ∨ s + (n + 1) ≤ d) :
    moved (update m d (m s)) (d + 1) (s + 1) n = moved m d s (n + 1) := by
  funext a
  grind [moved, update_apply]

/-- After the last byte the rest is moved, if that byte is no longer needed. -/
theorem moved_update_last (h : s ≤ d ∨ d + (n + 1) ≤ s) :
    moved (update m (d + n) (m (s + n))) d s n = moved m d s (n + 1) := by
  funext a
  grind [moved, update_apply]

/-- Copying upwards is right unless the destination starts inside the source. -/
theorem copyUp_eq_moved (hd : d + n ≤ UINT64) (hs : s + n ≤ UINT64) (h : d ≤ s ∨ s + n ≤ d) :
    copyUp n m d s = moved m d s n := by
  induction n generalizing m d s with
  | zero => exact moved_zero.symm
  | succ n ih =>
    rw [copyUp, ← moved_update_first h]
    -- the pointers may be zero behind the last byte
    cases n with
    | zero => exact moved_zero.symm
    | succ n =>
      rw [Nat.mod_eq_of_lt (by omega), Nat.mod_eq_of_lt (by omega)]
      exact ih (by omega) (by omega) (by omega)

/-- The pointer to the last byte of a range. -/
theorem before_stop {p : ℕ} (hp : p + (n + 1) ≤ UINT64) : before ((p + (n + 1)) % UINT64) = p + n := by
  change p + (n + 1) ≤ 2 ^ 64 at hp
  change (2 ^ 64 - 1 + (p + (n + 1)) % 2 ^ 64) % 2 ^ 64 = p + n
  omega

/-- Copying downwards is right unless the source starts inside the destination. -/
theorem copyDown_eq_moved (hd : d + n ≤ UINT64) (hs : s + n ≤ UINT64) (h : s ≤ d ∨ d + n ≤ s) :
    copyDown n m ((d + n) % UINT64) ((s + n) % UINT64) = moved m d s n := by
  induction n generalizing m with
  | zero => exact moved_zero.symm
  | succ n ih =>
    rw [copyDown, before_stop hd, before_stop hs, ← moved_update_last h,
      ← ih (by omega) (by omega) (by omega), Nat.mod_eq_of_lt (by omega), Nat.mod_eq_of_lt (by omega)]

/-- A pointer moved by a length that is not negative. -/
theorem offset_eq {p : ℕ} {n : BitVec 32} (hn : 0 ≤ n.toInt) : offset p n = (p + n.toInt.toNat) % UINT64 := by
  change ((p + n.toInt) % 2 ^ 64).toNat = (p + n.toInt.toNat) % 2 ^ 64
  omega

section

variable (m) {n : BitVec 32}

theorem Kernel.memmove_eq (hd : dst + n.toNat ≤ UINT64) (hs : src + n.toNat ≤ UINT64) :
    Kernel.memmove m dst src n = (moved m dst src n.toNat, dst) := by
  unfold Kernel.memmove
  by_cases hzero : n = 0
  · rw [if_pos hzero, hzero]
    exact congrArg (·, dst) moved_zero.symm
  · rw [if_neg hzero]
    split
    next h => rw [copyDown_eq_moved hd hs (.inl (Nat.le_of_lt h.1))]
    next h =>
      -- if the source ends with the address space, the destination does not start behind it
      have hpos : 0 < n.toNat := Nat.pos_of_ne_zero fun h0 => hzero (BitVec.eq_of_toNat_eq h0)
      change dst + n.toNat ≤ 2 ^ 64 at hd
      change ¬ (src < dst ∧ (src + n.toNat) % 2 ^ 64 > dst) at h
      rw [copyUp_eq_moved hd hs (by omega)]

theorem User.memmove_eq (hd : dst + n.toInt.toNat ≤ UINT64) (hs : src + n.toInt.toNat ≤ UINT64) :
    User.memmove m dst src n = (moved m dst src n.toInt.toNat, dst) := by
  unfold User.memmove
  split
  next h => rw [copyUp_eq_moved hd hs (.inl (Nat.le_of_lt h))]
  next h =>
    by_cases hn : 0 ≤ n.toInt
    · rw [offset_eq hn, offset_eq hn, copyDown_eq_moved hd hs (.inl (Nat.not_lt.1 h))]
    · rw [Int.toNat_of_nonpos (by omega), moved_zero, copyDown]

end

/-- Both versions of `memmove` leave the old contents of the source in the destination and every other byte
as it was, for all memories, addresses and lengths of their types and however the ranges overlap; they agree
on the lengths that both have. -/
theorem memmove_moved (m : Memory) (dst src : ℕ) (n : BitVec 32) :
    (dst + n.toNat ≤ UINT64 → src + n.toNat ≤ UINT64 →
      Kernel.memmove m dst src n = (moved m dst src n.toNat, dst)) ∧
    (dst + n.toInt.toNat ≤ UINT64 → src + n.toInt.toNat ≤ UINT64 →
      User.memmove m dst src n = (moved m dst src n.toInt.toNat, dst)) ∧
    (dst + n.toNat ≤ UINT64 → src + n.toNat ≤ UINT64 → 0 ≤ n.toInt →
      User.memmove m dst src n = Kernel.memmove m dst src n) := by
  refine ⟨Kernel.memmove_eq m, User.memmove_eq m, fun hd hs hn => ?_⟩
  have hlen : n.toInt.toNat = n.toNat := by
    rw [BitVec.toInt_eq_toNat_cond] at hn ⊢
    split at hn <;> omega
  rw [Kernel.memmove_eq m hd hs, User.memmove_eq m (hlen ▸ hd) (hlen ▸ hs), hlen]

/-- A move to a range that overlaps the source. -/
theorem memmove_moved_overlap : Kernel.memmove UInt8.ofNat 3 1 5 = (moved UInt8.ofNat 3 1 5, 3) ∧
    User.memmove UInt8.ofNat 3 1 5 = (moved UInt8.ofNat 3 1 5, 3) ∧
    User.memmove UInt8.ofNat 3 1 5 = Kernel.memmove UInt8.ofNat 3 1 5 := by
  obtain ⟨hkernel, huser, hsame⟩ := memmove_moved UInt8.ofNat 3 1 5
  exact ⟨hkernel (by decide) (by decide), huser (by decide) (by decide),
    hsame (by decide) (by decide) (by decide)⟩

end Xv6.Support
