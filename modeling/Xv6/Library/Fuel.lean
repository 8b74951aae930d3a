import Mathlib.Order.Filter.AtTopBot.Basic

/-!
# Computations with fuel

A loop or a recursion that need not end is a function of the fuel it may use. It settles on a result if it
has that result with enough fuel, however much there is of it. With one more unit of fuel the loop makes one
more round, so that it settles if the rest of it does.
-/

namespace Xv6.Library

open Filter

variable {α : Type*}

/-- With enough fuel the computation has the result. -/
def Settles (f : ℕ → α) (a : α) : Prop := ∀ᶠ fuel in atTop, f fuel = a

/-- A computation settles on one result. -/
theorem Settles.unique {f : ℕ → α} {a b : α} (ha : Settles f a) (hb : Settles f b) : a = b := by
  obtain ⟨fuel, hfa, hfb⟩ := (ha.and hb).exists
  exact hfa.symm.trans hfb

/-- A bound on the fuel that is enough. -/
theorem settles_of_le {f : ℕ → α} {a : α} (k : ℕ) (h : ∀ fuel, k ≤ fuel → f fuel = a) : Settles f a :=
  eventually_atTop.2 ⟨k, h⟩

/-- What holds with enough fuel for the rest holds with enough fuel for the whole. -/
theorem eventually_succ {p q : ℕ → Prop} (h : ∀ᶠ n in atTop, p n) (hstep : ∀ n, p n → q (n + 1)) :
    ∀ᶠ n in atTop, q n := by
  obtain ⟨k, hk⟩ := eventually_atTop.1 h
  refine eventually_atTop.2 ⟨k + 1, fun n hn => ?_⟩
  obtain ⟨m, rfl⟩ : ∃ m, n = m + 1 := ⟨n - 1, by omega⟩
  exact hstep m (hk m (Nat.le_of_succ_le_succ hn))

variable {β γ : Type*} {f : ℕ → α} {g : ℕ → β} {e : ℕ → γ} {a : α} {b : β} {c : γ}

/-- A computation settles if it has its result with any fuel but none. -/
theorem settles_of_succ (h : ∀ n, f (n + 1) = a) : Settles f a :=
  settles_of_le 1 fun n hn => by
    obtain ⟨m, rfl⟩ : ∃ m, n = m + 1 := ⟨n - 1, by omega⟩
    exact h m

/-- A computation settles if what it does after its first round does. -/
theorem Settles.succ (hf : Settles f a) (h : ∀ n, f n = a → g (n + 1) = b) : Settles g b := eventually_succ hf h

/-- A computation settles if the two parts of it do. -/
theorem Settles.succ₂ (hf : Settles f a) (hg : Settles g b) (h : ∀ n, f n = a → g n = b → e (n + 1) = c) :
    Settles e c :=
  eventually_succ (hf.and hg) fun n hn => h n hn.1 hn.2

/-- One computation after another, with the same fuel. -/
theorem Settles.and_then (hf : Settles f a) (hg : Settles g b) (h : ∀ n, f n = a → g n = b → e n = c) :
    Settles e c :=
  (hf.and hg).mono fun n hn => h n hn.1 hn.2

end Xv6.Library
