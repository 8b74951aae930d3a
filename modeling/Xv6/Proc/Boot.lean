import Xv6.Library.Runs
import Xv6.Proc.CreateSpec

/-!
# The kernel after its start, and its runs

The first process has a trapframe and an empty address space, and every other slot is empty. `replay`
computes what the kernel does with a list of operations, and every replay is a run of the kernel.
-/

namespace Xv6

open Kernel Library Vm

variable [KernelImage]

/-- The first process, and the pages that it was given. -/
structure Booted (k k₀ : Kernel) (tf root : ℕ) : Prop where
  fresh : k₀.Fresh
  memory : NewMemory root tf k₀.phys k.phys
  first : k.proc k.initproc = { newProc k₀.nextpid tf root with state := .runnable }
  others : ∀ j, j ≠ k.initproc → k.proc j = Proc.empty
  shared : k.sharedPage = 0
  refcount : k.refcount = 0

variable {k : Kernel}

/-- What the kernel looks like after its start. -/
theorem Kernel.Boot.booted (h : k.Boot) : ∃ k₀ tf root, Booted k k₀ tf root := by
  obtain ⟨k₀, hfresh, hrun⟩ := h
  refine ⟨k₀, ?_⟩
  have hspec : Allows userinit k₀ fun _ k => ∃ tf root, Booted k k₀ tf root := by
    rw [userinit, allows_bind]
    refine (allocproc_spec hfresh.free fun i _ => hfresh.slots i).allows.mono ?_
    intro r k₁ hr
    obtain ⟨rfl, -⟩ | ⟨rfl, -⟩ | ⟨i, tf, root, s', rfl, -, rfl, hmem⟩ := hr
    · exact allows_throw _ _ _
    · exact allows_throw _ _ _
    · refine (allows_modify _ _ _).2 ⟨tf, root, hfresh, hmem, ?_, ?_, hfresh.shared, hfresh.refcount⟩
      · change proc (setProc _ i _) i = _
        rw [setProc_proc_self, staged_proc_self]
      · intro j hj
        change j ≠ i at hj
        change proc (setProc _ i _) j = _
        rw [setProc_proc_of_ne _ hj, staged_proc_of_ne _ hj]
        exact hfresh.slots j
  exact hspec () k hrun

/-- What the kernel does with a list of operations, as long as it does not panic and the processes
can run. -/
def Kernel.replay (scheme : Scheme) (k : Kernel) : List (Fin NPROC × Op) → Option (List Event × Kernel)
  | [] => some ([], k)
  | (i, op) :: rest =>
    if (k.proc i).state = .runnable then
      match runOp scheme i op k with
      | .ok (o, k') => (k'.replay scheme rest).map fun r => (⟨i, op, o⟩ :: r.1, r.2)
      | .error _ => none
    else none

variable {ops : List (Fin NPROC × Op)} {events : List Event} {scheme : Scheme} {k' : Kernel}

/-- The first operation of a replay is a step of the kernel, and the rest is replayed after it. -/
theorem Kernel.replay_cons {i : Fin NPROC} {op : Op} (h : k.replay scheme ((i, op) :: ops) = some (events, k')) :
    ∃ o k₁ rest, k.Step scheme i op o k₁ ∧ k₁.replay scheme ops = some (rest, k') ∧
      events = ⟨i, op, o⟩ :: rest := by
  rw [replay] at h
  split_ifs at h with hstate
  cases hrun : runOp scheme i op k with
  | error e =>
    rw [hrun] at h
    cases h
  | ok r =>
    obtain ⟨o, k₁⟩ := r
    rw [hrun] at h
    obtain ⟨r, hr, heq⟩ := Option.map_eq_some_iff.1 h
    obtain ⟨rfl, rfl⟩ := Prod.mk.inj heq
    exact ⟨o, k₁, r.1, ⟨hstate, hrun⟩, hr, rfl⟩

/-- A replay is a run with the given operations. -/
theorem Kernel.run_of_replay (h : k.replay scheme ops = some (events, k')) :
    Run (Kernel.Moves scheme) k events k' ∧ events.map (fun e => (e.proc, e.op)) = ops := by
  induction ops generalizing k events with
  | nil =>
    obtain ⟨rfl, rfl⟩ := Prod.mk.inj (Option.some.inj h)
    exact ⟨Run.nil, rfl⟩
  | cons first rest ih =>
    obtain ⟨o, k₁, events', hstep, hrest, rfl⟩ := replay_cons h
    obtain ⟨hrun, hops⟩ := ih hrest
    exact ⟨hrun.cons hstep, by rw [List.map_cons, hops]⟩

variable {step : Kernel → Event → Kernel → Prop}

/-- A replay of good operations is a run of every system that has the moves with good operations. -/
theorem Kernel.run_of_replay_good (good : Fin NPROC × Op → Prop)
    (h : k.replay scheme ops = some (events, k')) (hgood : ∀ q ∈ ops, good q)
    (hstep : ∀ t e u, Kernel.Moves scheme t e u → good (e.proc, e.op) → step t e u) : Run step k events k' := by
  obtain ⟨hrun, hops⟩ := run_of_replay h
  refine hrun.restrict (fun e => good (e.proc, e.op)) ?_ hstep
  intro e he
  apply hgood
  rw [← hops]
  exact List.mem_map_of_mem he

/-- A replay whose result passes a check exists. -/
theorem Kernel.exists_replay (scheme : Scheme) (k : Kernel) (ops : List (Fin NPROC × Op))
    (check : List Event → Kernel → Bool) (h : ((k.replay scheme ops).any fun r => check r.1 r.2) = true) :
    ∃ events k', k.replay scheme ops = some (events, k') ∧ check events k' = true := by
  obtain ⟨r, hr, hcheck⟩ := (Option.any_eq_true _ _).1 h
  exact ⟨r.1, r.2, hr, hcheck⟩

/-- What the kernel does with a list of operations, as long as each move passes a check. -/
def Kernel.replayWhen (scheme : Scheme) (ok : Kernel → Event → Kernel → Bool) (k : Kernel) :
    List (Fin NPROC × Op) → Option (List Event × Kernel)
  | [] => some ([], k)
  | (i, op) :: rest =>
    if (k.proc i).state = .runnable then
      match runOp scheme i op k with
      | .ok (o, k') =>
        if ok k ⟨i, op, o⟩ k' then
          (k'.replayWhen scheme ok rest).map fun r => (⟨i, op, o⟩ :: r.1, r.2)
        else none
      | .error _ => none
    else none

/-- A replay of moves that pass the check is a run of every system which has these moves. -/
theorem Kernel.run_of_replayWhen {ok : Kernel → Event → Kernel → Bool}
    (h : k.replayWhen scheme ok ops = some (events, k'))
    (hok : ∀ t e u, Kernel.Moves scheme t e u → ok t e u = true → step t e u) :
    Run step k events k' ∧ events.map (fun e => (e.proc, e.op)) = ops := by
  induction ops generalizing k events with
  | nil =>
    cases h
    exact ⟨Run.nil, rfl⟩
  | cons first rest ih =>
    obtain ⟨i, op⟩ := first
    rw [replayWhen] at h
    split_ifs at h with hstate
    cases hrun : runOp scheme i op k with
    | error e =>
      rw [hrun] at h
      cases h
    | ok r =>
      obtain ⟨o, k₁⟩ := r
      rw [hrun] at h
      dsimp only at h
      split_ifs at h with hcheck
      obtain ⟨r, hr, heq⟩ := Option.map_eq_some_iff.1 h
      obtain ⟨rfl, rfl⟩ := Prod.mk.inj heq
      obtain ⟨hruns, hops⟩ := ih hr
      have hmove : k.Moves scheme ⟨i, op, o⟩ k₁ := ⟨hstate, hrun⟩
      exact ⟨Run.cons (hok _ _ _ hmove hcheck) hruns, by rw [List.map_cons, hops]⟩

/-- A replay of checked moves whose result passes a last check exists. -/
theorem Kernel.exists_replayWhen (scheme : Scheme) (ok : Kernel → Event → Kernel → Bool) (k : Kernel)
    (ops : List (Fin NPROC × Op)) (check : List Event → Kernel → Bool)
    (hok : ∀ t e u, Kernel.Moves scheme t e u → ok t e u = true → step t e u)
    (h : ((k.replayWhen scheme ok ops).any fun r => check r.1 r.2) = true) :
    ∃ events k', Run step k events k' ∧ events.map (fun e => (e.proc, e.op)) = ops ∧
      check events k' = true := by
  obtain ⟨r, hr, hcheck⟩ := (Option.any_eq_true _ _).1 h
  obtain ⟨hrun, hops⟩ := run_of_replayWhen hr hok
  exact ⟨r.1, r.2, hrun, hops, hcheck⟩

/-- A kernel with `n` free pages that has not started a process yet. -/
def freshKernel (n : ℕ) : Kernel where
  phys := ⟨fun _ => filled 0, (List.range n).map fun i => 0x80100000 + 4096 * i, false⟩
  proc _ := Proc.empty
  nextpid := 1
  sharedPage := 0
  refcount := 0
  initproc := 0

/-- The kernel after its start with `n` free pages. -/
def bootKernel (n : ℕ) : Kernel :=
  match userinit (freshKernel n) with
  | .ok ((), k) => k
  | .error _ => freshKernel n

omit [KernelImage] in
/-- The free pages of the concrete kernel lie between its image and the end of memory. -/
theorem freshKernel_fresh {n : ℕ} (hn : n ≤ 32512) : @Kernel.Fresh linkedImage (freshKernel n) := by
  refine @Kernel.Fresh.mk linkedImage _ (@FreeOk.mk linkedImage _ ?_ ?_) rfl (fun _ => rfl) rfl rfl
  · apply List.nodup_range.map
    intro a b hab
    change 0x80100000 + 4096 * a = 0x80100000 + 4096 * b at hab
    omega
  · intro x hx
    obtain ⟨a, ha, rfl⟩ := List.mem_map.1 hx
    have hlt := List.mem_range.1 ha
    refine ⟨?_, ?_, ?_⟩
    · change (0x80100000 + 4096 * a) % 4096 = 0
      omega
    · change 0x80025000 ≤ 0x80100000 + 4096 * a
      omega
    · change 0x80100000 + 4096 * a < 0x88000000
      omega

omit [KernelImage] in
/-- The concrete kernel starts if there is memory enough for its first process. -/
theorem bootKernel_boot {n : ℕ} (hn : n ≤ 32512) (hok : (@userinit linkedImage (freshKernel n)).isOk = true) :
    @Kernel.Boot linkedImage (@bootKernel linkedImage n) := by
  refine ⟨freshKernel n, freshKernel_fresh hn, ?_⟩
  cases hrun : @userinit linkedImage (freshKernel n) with
  | error e =>
    rw [hrun] at hok
    cases hok
  | ok r =>
    simp only [bootKernel, hrun]

omit [KernelImage] in
/-- The concrete kernel with 40 free pages. -/
theorem bootKernel_forty : @Kernel.Boot linkedImage (@bootKernel linkedImage 40) ∧
    (@bootKernel linkedImage 40).initproc = 0 :=
  ⟨bootKernel_boot (by decide) (by decide +kernel), by decide +kernel⟩

end Xv6
