import Mathlib.Logic.Function.Basic
import Mathlib.Data.List.Basic

/-!
# Write traces of a device and crashes between writes

A device maps addresses to contents, and each write replaces the contents of one address
atomically. A program is observed through the list of its writes: a crash loses everything but
the device, and leaves it as some prefix of that list made it. A recovery procedure that may
itself crash any finite number of times is described by `Recovers`, with one rule that turns a
crash invariant into a statement about every completed recovery.
-/

namespace Xv6.Library

open Function

variable {A B : Type*} [DecidableEq A]

/-- The device after the writes of a trace, oldest first. -/
def applyWrites (device : A → B) (writes : List (A × B)) : A → B :=
  writes.foldl (fun d write => Function.update d write.1 write.2) device

@[simp] theorem applyWrites_nil (device : A → B) : applyWrites device [] = device := rfl

@[simp] theorem applyWrites_cons (device : A → B) (write : A × B) (writes : List (A × B)) :
    applyWrites device (write :: writes) =
      applyWrites (update device write.1 write.2) writes := rfl

/-- Traces of consecutive program parts compose. -/
theorem applyWrites_append (device : A → B) (first second : List (A × B)) :
    applyWrites device (first ++ second) = applyWrites (applyWrites device first) second :=
  List.foldl_append

/-- An address that no write of the trace names keeps its contents. -/
theorem applyWrites_of_forall_ne (device : A → B) (writes : List (A × B)) (a : A)
    (h : ∀ write ∈ writes, write.1 ≠ a) : applyWrites device writes a = device a := by
  induction writes generalizing device with
  | nil => rfl
  | cons write writes ih =>
    rw [applyWrites_cons, ih _ fun w hw => h w (List.mem_cons_of_mem _ hw),
      update_of_ne (h write List.mem_cons_self).symm]

/-- An address that is written, always with the same value, holds that value. -/
theorem applyWrites_of_written (device : A → B) (writes : List (A × B)) (a : A) (value : B)
    (hall : ∀ write ∈ writes, write.1 = a → write.2 = value)
    (hsome : ∃ write ∈ writes, write.1 = a) : applyWrites device writes a = value := by
  induction writes generalizing device with
  | nil => simp at hsome
  | cons write writes ih =>
    have hrest : ∀ w ∈ writes, w.1 = a → w.2 = value := fun w hw => hall w (List.mem_cons_of_mem _ hw)
    rw [applyWrites_cons]
    by_cases hlater : ∃ w ∈ writes, w.1 = a
    · exact ih _ hrest hlater
    · -- no later write names the address, so the head write is the last one that does
      have hnone : ∀ w ∈ writes, w.1 ≠ a := fun w hw hwa => hlater ⟨w, hw, hwa⟩
      obtain ⟨w, hw, hwa⟩ := hsome
      rcases List.mem_cons.1 hw with rfl | hw
      · rw [applyWrites_of_forall_ne _ _ _ hnone, ← hwa, update_self]
        exact hall w List.mem_cons_self hwa
      · exact absurd hwa (hnone w hw)

/-- A recovery procedure, given by the writes it makes on a device, run until it completes, with
any finite number of crashes after any of its writes. -/
inductive Recovers (recover : (A → B) → List (A × B)) : (A → B) → (A → B) → Prop
  | completes (device : A → B) : Recovers recover device (applyWrites device (recover device))
  | crashes (device final : A → B) (k : ℕ)
      (again : Recovers recover (applyWrites device ((recover device).take k)) final) :
      Recovers recover device final

/-- A property of devices that survives every crash of the recovery and yields the
postcondition when the recovery completes gives the postcondition of every completed recovery. -/
theorem Recovers.post {recover : (A → B) → List (A × B)} {I Q : (A → B) → Prop}
    (hcrash : ∀ device, I device → ∀ k, I (applyWrites device ((recover device).take k)))
    (hdone : ∀ device, I device → Q (applyWrites device (recover device)))
    {device final : A → B} (h : Recovers recover device final) (hinv : I device) : Q final := by
  induction h with
  | completes device => exact hdone device hinv
  | crashes device final k _ ih => exact ih (hcrash device hinv k)

end Xv6.Library
