import Mathlib.Data.Nat.ModEq
import Mathlib.Logic.Function.Basic
import Xv6.Library.Clash

/-!
# Ring buffers

A ring of cells passes items on in the order in which they come. The item that comes as number `i`, from
zero, goes to cell `i % size`; the numbers of items that have come and gone are counted modulo `m`. The ring
is right as long as the counters can tell a full ring from an empty one, that is for `size < m`, and the
cells can be addressed by the counters if `size` divides `m`.
-/

namespace Xv6.Library

open Function List Nat

variable {α : Type*}

/-- The ring holds the items that have come, but for the first `taken` of them. -/
structure Ring (size : ℕ) (cell : ℕ → α) (items : List α) (taken : ℕ) : Prop where
  taken_le : taken ≤ items.length
  room : items.length ≤ taken + size
  cells : ∀ i (h : i < items.length), taken ≤ i → cell (i % size) = items[i]

namespace Ring

variable {size : ℕ} {cell : ℕ → α} {items : List α} {taken : ℕ}

/-- A ring with nothing in it. -/
theorem nil (size : ℕ) (cell : ℕ → α) : Ring size cell [] 0 where
  taken_le := le_rfl
  room := zero_le _
  cells := fun i h => absurd h (not_lt_zero i)

/-- Numbers of items that are in the ring together have different cells. -/
theorem mod_ne {i n : ℕ} (hi : i < n) (hn : n < i + size) : i % size ≠ n % size := by
  intro heq
  have hdvd : size ∣ n - i := (Nat.modEq_iff_dvd' hi.le).1 heq
  have hle := Nat.le_of_dvd (Nat.sub_pos_of_lt hi) hdvd
  omega

/-- An item comes. -/
theorem put (h : Ring size cell items taken) (hroom : items.length < taken + size) (x : α) :
    Ring size (update cell (items.length % size) x) (items ++ [x]) taken where
  taken_le := by
    rw [length_append]
    exact h.taken_le.trans (le_add_right _ _)
  room := by
    rw [length_append, length_singleton]
    exact hroom
  cells := by
    intro i hi htaken
    rw [length_append, length_singleton] at hi
    by_cases hlast : i = items.length
    · subst hlast
      rw [update_self, getElem_concat_length rfl]
    · have hi : i < items.length := by omega
      have hne : i % size ≠ items.length % size := mod_ne hi (by omega)
      rw [update_of_ne hne, getElem_append_left hi]
      exact h.cells i hi htaken

/-- The first item goes. -/
theorem take (h : Ring size cell items taken) (hsome : taken < items.length) :
    Ring size cell items (taken + 1) where
  taken_le := hsome
  room := h.room.trans (by omega)
  cells := fun i hi htaken => h.cells i hi (le_of_succ_le htaken)

/-- The last items are taken back. -/
theorem shrink {more : List α} (h : Ring size cell (items ++ more) taken) (hle : taken ≤ items.length) :
    Ring size cell items taken where
  taken_le := hle
  room := by
    have hroom := h.room
    rw [length_append] at hroom
    omega
  cells := by
    intro i hi htaken
    have hlt : i < (items ++ more).length := by simp; omega
    rw [h.cells i hlt htaken, getElem_append_left hi]

/-- The cell of the next item may be written before the item has come. -/
theorem stage (h : Ring size cell items taken) (hroom : items.length < taken + size) (x : α) :
    Ring size (update cell (items.length % size) x) items taken :=
  (h.put hroom x).shrink h.taken_le

/-- An item comes that is in its cell already. -/
theorem commit (h : Ring size cell items taken) (hroom : items.length < taken + size) :
    Ring size cell (items ++ [cell (items.length % size)]) taken := by
  have hput := h.put hroom (cell (items.length % size))
  rw [update_eq_self] at hput
  exact hput

/-- What the cells hold, from the first item on, is what has not gone. -/
theorem contents (h : Ring size cell items taken) :
    (List.range (items.length - taken)).map (fun j => cell ((taken + j) % size)) = items.drop taken := by
  apply ext_getElem
  · rw [length_map, length_range, length_drop]
  · intro i hi hi'
    rw [length_drop] at hi'
    have hlt : taken + i < items.length := by omega
    rw [getElem_map, getElem_range, getElem_drop]
    exact h.cells (taken + i) hlt (le_add_right _ _)

end Ring

section Counters

variable {m size r w : ℕ}

section

variable (hle : r ≤ w) (hroom : w ≤ r + size) (hm : size < m)

include hle hroom hm

/-- Counters that are close to each other are equal modulo `m` only if they are equal. -/
theorem counter_eq_iff : r % m = w % m ↔ r = w := by
  constructor
  · intro heq
    have hdvd : m ∣ w - r := (modEq_iff_dvd' hle).1 heq
    have hzero : w - r = 0 := eq_zero_of_dvd_of_lt hdvd (by omega)
    omega
  · rintro rfl
    rfl

/-- The ring is full exactly if the counters say so. -/
theorem counter_full_iff : w % m = (r % m + size) % m ↔ w = r + size := by
  rw [mod_add_mod]
  exact counter_eq_iff hroom (by omega : r + size ≤ w + size) hm

/-- The difference of the counters is the number of items in the ring. -/
theorem counter_sub : (w % m + m - r % m) % m = w - r := by
  obtain ⟨d, rfl⟩ := Nat.exists_eq_add_of_le hle
  have hr : r % m < m := Nat.mod_lt r (by omega)
  have hd : d < m := by omega
  have hw : (r + d) % m = (r % m + d) % m := by rw [Nat.mod_add_mod]
  rw [hw, Nat.add_sub_cancel_left]
  by_cases hlt : r % m + d < m
  · have heq : r % m + d + m - r % m = d + m := by omega
    rw [mod_eq_of_lt hlt, heq, add_mod_right, mod_eq_of_lt hd]
  · have heq : r % m + d - m + m - r % m = d := by omega
    have hsub : (r % m + d) % m = r % m + d - m := by
      rw [mod_eq_sub_mod (by omega), mod_eq_of_lt (by omega)]
    rw [hsub, heq, mod_eq_of_lt hd]

end

/-- Counting one back. -/
theorem counter_pred (hm : 0 < m) (n : ℕ) : ((n + 1) % m + m - 1) % m = n % m := by
  obtain ⟨k, rfl⟩ := exists_eq_succ_of_ne_zero hm.ne'
  have hsub : (n + 1) % (k + 1) + (k + 1) - 1 = (n + 1) % (k + 1) + k := by omega
  rw [hsub, mod_add_mod, show n + 1 + k = n + (k + 1) by omega, add_mod_right]

end Counters

end Xv6.Library
