import Xv6.Kernel.Proc
import Xv6.Vm.Memory

/-!
# The state of the kernel

The process table, the page shared between processes with its count, and physical memory. Kernel code
that touches only physical memory is lifted to computations over the whole state.
-/

namespace Xv6

open Function Library Vm

/-- The state of the kernel as far as processes and their memory go. -/
structure Kernel where
  phys : Phys
  proc : Fin NPROC → Proc
  nextpid : ℕ
  /-- The page shared between processes, zero if there is none. -/
  sharedPage : ℕ
  refcount : ℤ
  initproc : Fin NPROC

/-- A kernel computation over the whole state. -/
abbrev KernelM := Fallible Panic Kernel

/-- The kernel after a slot of the process table has been replaced. -/
def Kernel.setProc (k : Kernel) (i : Fin NPROC) (p : Proc) : Kernel :=
  { k with proc := Function.update k.proc i p }

@[simp] theorem setProc_proc_self (k : Kernel) (i : Fin NPROC) (p : Proc) : (k.setProc i p).proc i = p := by
  change update k.proc i p i = p
  rw [update_self]

variable {i : Fin NPROC}

theorem setProc_proc_of_ne (k : Kernel) {j : Fin NPROC} (h : j ≠ i) (p : Proc) :
    (k.setProc i p).proc j = k.proc j := by
  change update k.proc i p j = k.proc j
  rw [update_of_ne h]

@[simp] theorem setProc_setProc (k : Kernel) (i : Fin NPROC) (p q : Proc) :
    (k.setProc i p).setProc i q = k.setProc i q := by
  rw [Kernel.setProc, Kernel.setProc, update_idem]
  rfl

/-- Writing a record that is there already changes nothing. -/
theorem setProc_eq_self {k : Kernel} {p : Proc} (h : k.proc i = p) : k.setProc i p = k := by
  rw [Kernel.setProc, ← h, update_eq_self]

/-- Run a computation on the physical memory of the kernel. -/
def onPhys {α : Type} (x : VmM α) : KernelM α := fun k =>
  match x k.phys with
  | .ok (a, s) => .ok (a, { k with phys := s })
  | .error e => .error e

variable {α : Type}

@[simp] theorem ensures_onPhys (x : VmM α) (k : Kernel) (Q : α → Kernel → Prop) :
    Ensures (onPhys x) k Q ↔ Ensures x k.phys fun a s => Q a { k with phys := s } := by
  constructor
  · rintro ⟨a, k', h, hQ⟩
    rw [onPhys] at h
    split at h
    · next b s hx =>
      obtain ⟨rfl, rfl⟩ := Prod.mk.inj (Except.ok.inj h)
      exact ⟨b, s, hx, hQ⟩
    · cases h
  · rintro ⟨a, s, hx, hQ⟩
    exact ⟨a, { k with phys := s }, by rw [onPhys, hx], hQ⟩

/-- A lifted computation panics exactly when the computation does. -/
theorem onPhys_error {x : VmM α} {k : Kernel} {e : Panic} (h : x k.phys = .error e) : onPhys x k = .error e := by
  rw [onPhys, h]

@[simp] theorem yields_onPhys (x : VmM α) (k : Kernel) (Q : α → Kernel → Prop) (R : Panic → Prop) :
    Yields (onPhys x) k Q R ↔ Yields x k.phys (fun a s => Q a { k with phys := s }) R := by
  cases hx : x k.phys with
  | error e =>
    constructor
    · intro h
      exact yields_of_error hx (h.2 e (onPhys_error hx))
    · intro h
      exact yields_of_error (onPhys_error hx) (h.2 e hx)
  | ok r =>
    obtain ⟨a, s⟩ := r
    have hlift : onPhys x k = .ok (a, { k with phys := s }) := by rw [onPhys, hx]
    constructor
    · intro h
      exact Ensures.yields ⟨a, s, hx, h.1 _ _ hlift⟩ R
    · intro h
      exact Ensures.yields ⟨a, _, hlift, h.1 _ _ hx⟩ R

end Xv6
