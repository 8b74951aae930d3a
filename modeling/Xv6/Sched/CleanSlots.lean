import Xv6.Sched.ExitWait

/-!
# Slots that are not in use

`freeproc` resets the fields of a slot and `allocproc` relies on it. The invariant says that an `UNUSED`
slot is empty, so long as nobody calls `kkill` with pid zero: the loop of `kkill` compares pids only, and
the pid of an `UNUSED` slot is zero.
-/

namespace Xv6.Sched

open Function Library

variable {C L D K : Type} [DecidableEq C]

/-- A slot with nothing but what `allocproc` gives it. -/
def Fresh (p : Proc) : Prop :=
  p = { Proc.empty with pid := p.pid, state := .used, trapframe := p.trapframe, pagetable := p.pagetable }

namespace Pc

/-- The locked slot to which the thread has given nothing but what `allocproc` gives, and whether it has a
page table. -/
def fresh : Pc L K → Option (Fin NPROC × Bool)
  | .forkTrapframe q _ | .forkSetTrapframe q _ _ | .forkPagetable q _ => some (q, false)
  | .forkSetPagetable q _ _ | .forkFree q _ => some (q, false)
  | .forkContext q _ | .forkCopy q _ => some (q, true)
  | _ => none

/-- The pid that the thread looks for in `kkill`. -/
def kills : Pc L K → Option ℤ
  | .yieldAcquire k | .yieldState k | .yieldSched k | .yieldRelease k => k.kills
  | .sleepAcquire _ _ k | .sleepRelease _ _ k | .sleepState _ _ k => k.kills
  | .sleepSched _ k | .sleepTidy _ k | .sleepUnlock _ k | .sleepReacquire _ k => k.kills
  | .wakeup _ _ k | .wakeupTest _ _ _ k | .wakeupRelease _ _ _ k | .handler _ k => k.kills
  | .kill pid _ _ | .killTest pid _ _ _ | .killSkip pid _ _ _ => some pid
  | _ => none

/-- The locked slot that the thread is about to kill. -/
def slays : Pc L K → Option (Fin NPROC)
  | .killState q _ => some q
  | _ => none

section Annotations

variable {me : Option (Fin NPROC)} {pc : Pc L K} {q : Fin NPROC}

theorem slotLock_of_fresh {b : Bool} (h : pc.fresh = some (q, b)) : pc.slotLock me = some q := by
  cases pc <;> (cases h <;> rfl)

theorem slotLock_of_slays (h : pc.slays = some q) : pc.slotLock me = some q := by
  cases pc <;> (cases h <;> rfl)

/-- The code of the client neither creates nor kills anew. -/
theorem frame_clean (back : Option (Pc L K)) (k k' : K) : (frame back k').creating = (frame back k).creating ∧
    (frame back k').fresh = none ∧ (frame back k').slays = none ∧ (frame back k').kills = (frame back k).kills := by
  cases back <;> exact ⟨rfl, rfl, rfl, rfl⟩

theorem fresh_of_slotLock (h : pc.slotLock me = none) : pc.fresh = none := by
  cases hfresh : pc.fresh with
  | none => rfl
  | some fresh => rw [slotLock_of_fresh hfresh] at h; cases h

theorem slays_of_slotLock (h : pc.slotLock me = none) : pc.slays = none := by
  cases hslays : pc.slays with
  | none => rfl
  | some q => rw [slotLock_of_slays hslays] at h; cases h

theorem kin_of_fresh {b : Bool} (h : pc.fresh = some (q, b)) : pc.kin = some (q, false) := by
  cases pc <;> (cases h <;> rfl)

theorem Resumable.clean (h : pc.Resumable) : pc.fresh = none ∧ pc.slays = none := by
  cases pc <;> first | exact ⟨rfl, rfl⟩ | cases h

end Annotations

end Pc

/-- What an assignment does to the contents of a slot. -/
inductive CleanWrites (me : Option (Fin NPROC)) (pc : Pc L K) (i : Fin NPROC)
    (f : (Fin NPROC → Proc) → Proc) (next : Pc L K) : Prop
  /-- Fields of a slot in use. -/
  | touch (hpid : ∀ proc, (f proc).pid = (proc i).pid)
      (htable : ∀ proc, (f proc).pagetable = (proc i).pagetable)
      (hstate : ∀ proc, (f proc).state = (proc i).state ∨ (f proc).state ≠ .unused ∧ (f proc).state ≠ .used)
      (hcreating : next.creating = pc.creating) (hkills : next.kills = pc.kills ∨ next.kills = none)
      (hfresh : next.fresh = none) (hslays : next.slays = none)
      (hslot : pc.slotLock me = some i ∧ (∀ proc, f proc = proc i ∨ (proc i).state = .sleeping) ∨
        me = some i ∧ pc.ownState = .running ∨ pc.sees = some (i, .runnable) ∨
        pc.slays = some i ∧ (∀ proc, (proc i).state = .used → (f proc).state = .used) ∨
        pc.child = some i ∧ ∀ proc, (f proc).state = (proc i).state)
  /-- Fields of a slot under creation. -/
  | build (ready : Bool) (hcreating : pc.creating = some (i, ready)) (hnext : next.creating = pc.creating)
      (hpid : ∀ proc, (f proc).pid = (proc i).pid)
      (htable : ready = true → ∀ proc, (f proc).pagetable = (proc i).pagetable)
      (hstate : ∀ proc, (f proc).state = (proc i).state) (hkills : next.kills = none)
      (hfresh : ∀ q b, next.fresh = some (q, b) → q = i ∧ (∃ b', pc.fresh = some (i, b')) ∧
        ∀ proc, (Fresh (proc i) → Fresh (f proc)) ∧ (b = true → (f proc).pagetable ≠ 0))
      (hslays : next.slays = none)
  /-- A new process is ready to run. -/
  | start (hcreating : pc.creating = some (i, true)) (hnext : next.creating = none)
      (hpid : ∀ proc, (f proc).pid = (proc i).pid)
      (htable : ∀ proc, (f proc).pagetable = (proc i).pagetable)
      (hstate : ∀ proc, (f proc).state = .runnable) (hkills : next.kills = none)
      (hfresh : next.fresh = none) (hslays : next.slays = none)
  /-- `freeproc`. -/
  | free (hslot : pc.slotLock me = some i) (hf : ∀ proc, f proc = freed (proc i))
      (hold : pc.sees = some (i, .zombie) ∨ ∃ b, pc.fresh = some (i, b)) (hnext : next.creating = none)
      (hkills : next.kills = none) (hfresh : next.fresh = none) (hslays : next.slays = none)

/-- What an instruction has to do with the contents of slots. -/
def Instr.Clean (me : Option (Fin NPROC)) (pc : Pc L K) : Instr L K → Prop
  | .goto next | .acquire _ next | .release _ next | .setCurrent _ next =>
    (next.kills = pc.kills ∨ next.kills = none) ∧ next.fresh = none ∧ next.slays = none
  | .read i next => ∀ p, ((next p).kills = pc.kills ∨ (next p).kills = none) ∧ (next p).fresh = none ∧
      ∀ q, (next p).slays = some q → q = i ∧ ∃ pid, pc.kills = some pid ∧ (p.pid : ℤ) = pid
  | .any next => ∀ value, ((next value).kills = pc.kills ∨ (next value).kills = none) ∧
      (next value).slays = none ∧ ∀ q b, (next value).fresh = some (q, b) →
        ∃ b', pc.fresh = some (q, b') ∧ (b = true → b' = true)
  | .write i f next => CleanWrites me pc i f next
  | .allocpid i next => next.kills = none ∧ next.slays = none ∧ next.fresh = some (i, false)
  | .context i next => next.kills = none ∧ next.slays = none ∧ next.fresh = some (i, true) ∧
      pc.fresh = some (i, true)
  | .swtch _ next => next.kills = none
  | .sched next => next.kills = pc.kills

variable {instr : Instr L K}

/-- The common part of the code and the contents of slots. -/
theorem commonCode_clean {me : Option (Fin NPROC)} {pc : Pc L K} (hwf : pc.WF me)
    (hcode : commonCode me pc = some instr) : instr.Clean me pc := by
  cases pc with
  | wakeup chan rest k =>
    cases rest with
    | nil =>
      cases hcode
      exact ⟨.inl rfl, Pc.fresh_of_slotLock hwf.2.1, Pc.slays_of_slotLock hwf.2.1⟩
    | cons q rest =>
      cases hcode
      split <;> exact ⟨.inl rfl, rfl, rfl⟩
  | wakeupTest chan q rest k =>
    cases hcode
    refine .touch (fun _ => (awakened_fields ..).2.1) (fun _ => (awakened_fields ..).2.2.2) ?_ rfl (.inl rfl)
      rfl rfl (.inl ⟨rfl, ?_⟩)
    · intro proc
      refine (awakened_state chan (proc q)).imp_right fun h => ?_
      rw [h.2]
      exact ⟨nofun, nofun⟩
    · intro proc
      by_cases hsleep : (proc q).state = .sleeping ∧ (proc q).chan = chan
      · exact .inr hsleep.1
      · exact .inl (by rw [awakened, if_neg hsleep])
  | wakeupRelease chan q rest k =>
    cases hcode
    exact ⟨.inl rfl, rfl, rfl⟩
  | _ => cases hcode

/-- The code of the scheduler and the contents of slots. -/
theorem schedCode_clean {pc : Pc L K} (hwf : pc.WF none)
    (hcode : schedCode pc = some instr) : instr.Clean none pc := by
  cases pc with
  | schedIdle | schedCurrent | schedBack | schedRelease =>
    cases hcode
    exact ⟨.inl rfl, rfl, rfl⟩
  | schedScan rest => cases rest <;> (cases hcode; exact ⟨.inl rfl, rfl, rfl⟩)
  | schedTest q rest =>
    cases hcode
    intro p
    beta_reduce
    split <;> exact ⟨.inl rfl, rfl, nofun⟩
  | schedState q rest =>
    cases hcode
    exact .touch (fun _ => rfl) (fun _ => rfl) (fun _ => .inr ⟨nofun, nofun⟩) rfl
      (.inl rfl) rfl rfl (.inr (.inr (.inl rfl)))
  | schedSwtch q rest =>
    cases hcode
    exact rfl
  | _ => exact commonCode_clean hwf hcode

/-- The code of a process and the contents of slots. -/
theorem procCode_clean {me : Fin NPROC} {pc : Pc L K} (hwf : pc.WF (some me))
    (hcode : procCode me pc = some instr) : instr.Clean (some me) pc := by
  cases pc with
  -- Locks taken and released.
  | forkret | yieldAcquire | sleepAcquire | sleepRelease | sleepUnlock
  | killedAcquire | killedRelease | setkilledAcquire | setkilledRelease | killRelease | killSkip
  | forkSkip | forkUnlock | forkWait | forkWaitRelease | forkRelock | forkRelease | forkAbort
  | exitAcquire | exitRelease | waitAcquire | waitLock | waitSkip | waitUnlock | waitReturn | waitKilled =>
    cases hcode
    exact ⟨.inl rfl, rfl, rfl⟩
  | yieldRelease k =>
    cases hcode
    exact ⟨.inl rfl, Pc.fresh_of_slotLock hwf.2.1, Pc.slays_of_slotLock hwf.2.1⟩
  | sleepReacquire lk k =>
    cases hcode
    obtain ⟨l, k', rfl, rfl⟩ | ⟨k', rfl, rfl⟩ := hwf <;> exact ⟨.inl rfl, rfl, rfl⟩
  | waitKilledRelease killed k =>
    cases hcode
    cases killed <;> exact ⟨.inl rfl, rfl, rfl⟩
  | exitWait status =>
    obtain ⟨-, rfl⟩ := procCode_exitWait hcode
    exact ⟨.inl rfl, rfl, rfl⟩
  -- Loops.
  | kill pid rest k =>
    cases rest <;> cases hcode
    · exact ⟨.inr rfl, rfl, rfl⟩
    · exact ⟨.inl rfl, rfl, rfl⟩
  | forkScan rest k => cases rest <;> (cases hcode; exact ⟨.inl rfl, rfl, rfl⟩)
  | reparent rest status =>
    cases rest with
    | nil =>
      cases hcode
      exact ⟨.inl rfl, rfl, rfl⟩
    | cons q rest =>
      cases hcode
      intro p
      beta_reduce
      split <;> exact ⟨.inl rfl, rfl, nofun⟩
  | waitScan rest havekids k =>
    cases rest with
    | nil =>
      cases hcode
      cases havekids <;> exact ⟨.inl rfl, rfl, rfl⟩
    | cons q rest =>
      cases hcode
      intro p
      beta_reduce
      split <;> exact ⟨.inl rfl, rfl, nofun⟩
  -- Fields read.
  | killedRead | forkPidRead | exitWakeup | waitPid | waitKilledRead =>
    cases hcode
    exact fun _ => ⟨.inl rfl, rfl, nofun⟩
  | forkTest | forkShare | waitTest =>
    cases hcode
    intro p
    beta_reduce
    split <;> exact ⟨.inl rfl, rfl, nofun⟩
  | killTest pid q rest k =>
    cases hcode
    intro p
    beta_reduce
    split
    · rename_i hpid
      refine ⟨.inr rfl, rfl, ?_⟩
      intro q' hq
      cases hq
      exact ⟨rfl, pid, rfl, hpid⟩
    · exact ⟨.inl rfl, rfl, nofun⟩
  -- Values of the memory below.
  | forkTrapframe | forkPagetable =>
    cases hcode
    exact fun _ => ⟨.inl rfl, rfl, fun q b h => ⟨b, h, id⟩⟩
  | forkShareMap =>
    cases hcode
    intro value
    beta_reduce
    split <;> exact ⟨.inl rfl, rfl, nofun⟩
  | forkCopy q k =>
    cases hcode
    intro value
    beta_reduce
    split
    · refine ⟨.inl rfl, rfl, ?_⟩
      intro q' b h
      cases h
      exact ⟨true, rfl, fun _ => rfl⟩
    · exact ⟨.inl rfl, rfl, nofun⟩
  | waitCopyout =>
    cases hcode
    intro value
    beta_reduce
    split <;> exact ⟨.inl rfl, rfl, nofun⟩
  -- Fields written.
  | sleepTidy | setkilledState | forkShareParent =>
    cases hcode
    exact .touch (fun _ => rfl) (fun _ => rfl) (fun _ => .inl rfl) rfl (.inl rfl) rfl rfl (.inr (.inl ⟨rfl, rfl⟩))
  | yieldState | sleepState | exitState =>
    cases hcode
    exact .touch (fun _ => rfl) (fun _ => rfl) (fun _ => .inr ⟨nofun, nofun⟩) rfl
      (.inl rfl) rfl rfl (.inr (.inl ⟨rfl, rfl⟩))
  | killState q k =>
    cases hcode
    refine .touch (fun _ => rfl) (fun _ => rfl) ?_ rfl (.inl rfl) rfl rfl (.inr (.inr (.inr (.inl ⟨rfl, ?_⟩))))
    · intro proc
      refine (slain_state (proc q)).imp_right fun h => ?_
      rw [h.2]
      exact ⟨nofun, nofun⟩
    · intro proc hused
      exact (if_neg (by rw [hused]; exact nofun)).trans hused
  | reparentAssign =>
    cases hcode
    exact .touch (fun _ => rfl) (fun _ => rfl) (fun _ => .inl rfl) rfl (.inl rfl) rfl rfl
      (.inr (.inr (.inr (.inr ⟨rfl, fun _ => rfl⟩))))
  | forkSetTrapframe q trapframe k =>
    cases hcode
    have hfresh : ∀ p : Proc, Fresh p → Fresh { p with trapframe } := by
      intro p hp
      rw [hp]
      rfl
    split
    all_goals
      refine .build false rfl rfl (fun _ => rfl) (fun _ _ => rfl) (fun _ => rfl) rfl ?_ rfl
      intro q' b h
      cases h
      exact ⟨rfl, ⟨false, rfl⟩, fun proc => ⟨hfresh (proc q), nofun⟩⟩
  | forkSetPagetable q pagetable k =>
    cases hcode
    have hfresh : ∀ p : Proc, Fresh p → Fresh { p with pagetable } := by
      intro p hp
      rw [hp]
      rfl
    split
    · refine .build false rfl rfl (fun _ => rfl) nofun (fun _ => rfl) rfl ?_ rfl
      intro q' b h
      cases h
      exact ⟨rfl, ⟨false, rfl⟩, fun proc => ⟨hfresh (proc q), nofun⟩⟩
    · rename_i hne
      refine .build false rfl rfl (fun _ => rfl) nofun (fun _ => rfl) rfl ?_ rfl
      intro q' b h
      cases h
      exact ⟨rfl, ⟨false, rfl⟩, fun proc => ⟨hfresh (proc q), fun _ => hne⟩⟩
  | forkInherit | forkParent | forkShareChild | forkShareFlag =>
    cases hcode
    exact .build true rfl rfl (fun _ => rfl) (fun _ _ => rfl) (fun _ => rfl) rfl nofun rfl
  | forkState =>
    cases hcode
    exact .start rfl rfl (fun _ => rfl) (fun _ => rfl) (fun _ => rfl) rfl rfl rfl
  | forkFree =>
    cases hcode
    exact .free rfl (fun _ => rfl) (.inr ⟨_, rfl⟩) rfl rfl rfl rfl
  | waitFree =>
    cases hcode
    exact .free rfl (fun _ => rfl) (.inl rfl) rfl rfl rfl rfl
  | forkPid =>
    cases hcode
    exact ⟨rfl, rfl, rfl⟩
  | forkContext =>
    cases hcode
    exact ⟨rfl, rfl, rfl, rfl⟩
  -- Switches to the scheduler.
  | yieldSched | sleepSched | exitSched =>
    cases hcode
    exact rfl
  | _ => exact commonCode_clean hwf hcode

/-- The code and the contents of slots. -/
theorem code_clean {me : Option (Fin NPROC)} {pc : Pc L K} (hwf : pc.WF me)
    (hcode : code me pc = some instr) : instr.Clean me pc := by
  cases me with
  | none => exact schedCode_clean hwf hcode
  | some p => exact procCode_clean hwf hcode

namespace Machine

/-- What holds of the contents of slots while nobody calls `kkill` with pid zero. -/
structure Clean (s : Machine C L D K) : Prop where
  unused : ∀ i, (s.proc i).state = .unused → s.proc i = Proc.empty
  table : ∀ i, (s.proc i).state ≠ .unused → (s.proc i).state ≠ .used → (s.proc i).pagetable ≠ 0
  ready : ∀ t q, (s.point t).creating = some (q, true) → (s.proc q).pagetable ≠ 0
  fresh : ∀ c q b, (s.here c).fresh = some (q, b) →
    Fresh (s.proc q) ∧ (b = true → (s.proc q).pagetable ≠ 0)
  kills : ∀ t pid, (s.point t).kills = some pid → pid ≠ 0
  slays : ∀ c q, (s.here c).slays = some q → (s.proc q).pid ≠ 0

/-- What the contents of slots have to do with the points when a CPU moves. -/
structure CleanLegal (s : Machine C L D K) (c : C) (next : Pc L K) (s' : Machine C L D K) : Prop where
  unused : ∀ i, (s'.proc i).state = .unused → s'.proc i = Proc.empty
  table : ∀ i, (s'.proc i).state ≠ .unused → (s'.proc i).state ≠ .used → (s'.proc i).pagetable ≠ 0
  ready : ∀ q, next.creating = some (q, true) → (s'.proc q).pagetable ≠ 0
  fresh : ∀ q b, next.fresh = some (q, b) → Fresh (s'.proc q) ∧ (b = true → (s'.proc q).pagetable ≠ 0)
  kills : ∀ pid, next.kills = some pid → pid ≠ 0
  slays : ∀ q, next.slays = some q → (s'.proc q).pid ≠ 0
  /-- The slots of which other threads rely are not changed, but for fields on which they do not. -/
  keep : ∀ i, s'.proc i = s.proc i ∨ (s.here c).slotLock (s.running c) = some i ∨
    (s'.proc i).pid = (s.proc i).pid ∧ ((s.proc i).state ≠ .used ∨ (s.proc i).parent ≠ none ∨
      ∃ r, (s.here c).creating = some (i, r))
  pagetable : ∀ i, (s'.proc i).pagetable = (s.proc i).pagetable ∨ (s.proc i).state ≠ .used ∨
    ∃ r, (s.here c).creating = some (i, r)

variable {s s' t : Machine C L D K} {c : C} {next : Pc L K}

/-- A legal move keeps the invariant. -/
theorem Clean.of_goes (hc : Clean s) (hs : Exclusive s) (hk : Kinship s) (h : Goes s c next s')
    (hlegal : CleanLegal s c next s') : Clean s' where
  unused := hlegal.unused
  table := hlegal.table
  ready := by
    intro u q hu
    rw [h.point] at hu
    split at hu
    · exact hlegal.ready q hu
    · rename_i huc
      obtain hsame | hstate | ⟨r, hr⟩ := hlegal.pagetable q
      · rw [hsame]
        exact hc.ready u q hu
      · exact absurd (hs.creating u q true hu).1 hstate
      · rw [here_eq] at hr
        exact absurd (hs.creator u _ q true r hu hr) huc
  fresh := by
    intro d q b hd
    by_cases hdc : d = c
    · rw [hdc, h.here_self] at hd
      exact hlegal.fresh q b hd
    · rw [h.here_ne hs.thread hdc] at hd
      have hkin := Pc.kin_of_fresh hd
      obtain hsame | hslot | ⟨-, hstate | hparent | ⟨r, hr⟩⟩ := hlegal.keep q
      · rw [hsame]
        exact hc.fresh d q b hd
      · exact absurd (hs.slotLock_unique (Pc.slotLock_of_fresh hd) hslot) hdc
      · exact absurd (hs.used_of_kin hkin) hstate
      · exact absurd (hk.kin_here hkin) hparent
      · obtain ⟨r', hr'⟩ := Pc.creating_of_kin hkin
        rw [here_eq] at hr hr'
        exact absurd (hs.thread (hs.creator _ _ q r' r hr' hr)) hdc
  kills := by
    intro u pid hu
    rw [h.point] at hu
    split at hu
    · exact hlegal.kills pid hu
    · exact hc.kills u pid hu
  slays := by
    intro d q hd
    by_cases hdc : d = c
    · rw [hdc, h.here_self] at hd
      exact hlegal.slays q hd
    · rw [h.here_ne hs.thread hdc] at hd
      obtain hsame | hslot | ⟨hpid, -⟩ := hlegal.keep q
      · rw [hsame]
        exact hc.slays d q hd
      · exact absurd (hs.slotLock_unique (Pc.slotLock_of_slays hd) hslot) hdc
      · rw [hpid]
        exact hc.slays d q hd

omit [DecidableEq C] in
/-- A move that changes no slot. -/
theorem CleanLegal.of_same (hc : Clean s) (hproc : s'.proc = s.proc)
    (hready : ∀ q, next.creating = some (q, true) → (s.here c).creating = some (q, true))
    (hfresh : ∀ q b, next.fresh = some (q, b) → ∃ b', (s.here c).fresh = some (q, b') ∧
      (b = true → b' = true))
    (hkills : ∀ pid, next.kills = some pid → pid ≠ 0)
    (hslays : ∀ q, next.slays = some q → (s.proc q).pid ≠ 0) : CleanLegal s c next s' where
  unused := by
    rw [hproc]
    exact hc.unused
  table := by
    rw [hproc]
    exact hc.table
  ready := by
    intro q hq
    have hold := hready q hq
    rw [here_eq] at hold
    rw [hproc]
    exact hc.ready _ q hold
  fresh := by
    intro q b hq
    obtain ⟨b', hold, hb⟩ := hfresh q b hq
    rw [hproc]
    exact ⟨(hc.fresh c q b' hold).1, fun h => (hc.fresh c q b' hold).2 (hb h)⟩
  kills := hkills
  slays := by
    rw [hproc]
    exact hslays
  keep := fun i => .inl (by rw [hproc])
  pagetable := fun i => .inl (by rw [hproc])

section Writes

variable {i : Fin NPROC} {f : (Fin NPROC → Proc) → Proc}

/-- `freeproc` leaves an empty slot. -/
theorem freed_eq_empty {p : Proc} (h : p.pagetable ≠ 0 ∨ p.mapRoVa = 0) : freed p = Proc.empty := by
  unfold freed
  obtain hne | hzero := h
  · rw [if_pos hne]
    rfl
  · rw [hzero, ite_self]
    rfl

omit [DecidableEq C] in
/-- An assignment to one slot is legal if it is for that slot. -/
theorem CleanLegal.of_slot (hc : Clean s) (hother : ∀ j, j ≠ i → s'.proc j = s.proc j)
    (hself : s'.proc i = f s.proc) (hunused : (f s.proc).state = .unused → f s.proc = Proc.empty)
    (htable : (f s.proc).state ≠ .unused → (f s.proc).state ≠ .used → (f s.proc).pagetable ≠ 0)
    (hready : ∀ q, next.creating = some (q, true) → (q = i → (f s.proc).pagetable ≠ 0) ∧
      (q ≠ i → (s.here c).creating = some (q, true)))
    (hfresh : ∀ q b, next.fresh = some (q, b) →
      q = i ∧ Fresh (f s.proc) ∧ (b = true → (f s.proc).pagetable ≠ 0))
    (hkills : ∀ pid, next.kills = some pid → pid ≠ 0) (hslays : next.slays = none)
    (hkeep : f s.proc = s.proc i ∨ (s.here c).slotLock (s.running c) = some i ∨
      (f s.proc).pid = (s.proc i).pid ∧ ((s.proc i).state ≠ .used ∨ (s.proc i).parent ≠ none ∨
        ∃ r, (s.here c).creating = some (i, r)))
    (hpagetable : (f s.proc).pagetable = (s.proc i).pagetable ∨ (s.proc i).state ≠ .used ∨
      ∃ r, (s.here c).creating = some (i, r)) : CleanLegal s c next s' where
  unused := by
    intro j hj
    by_cases hji : j = i
    · rw [hji, hself] at hj ⊢
      exact hunused hj
    · rw [hother j hji] at hj ⊢
      exact hc.unused j hj
  table := by
    intro j hj
    by_cases hji : j = i
    · rw [hji, hself] at hj ⊢
      exact htable hj
    · rw [hother j hji] at hj ⊢
      exact hc.table j hj
  ready := by
    intro q hq
    obtain ⟨hi, hold⟩ := hready q hq
    by_cases hqi : q = i
    · rw [hqi, hself]
      exact hi hqi
    · have hold := hold hqi
      rw [here_eq] at hold
      rw [hother q hqi]
      exact hc.ready _ q hold
  fresh := by
    intro q b hq
    obtain ⟨rfl, hf⟩ := hfresh q b hq
    rw [hself]
    exact hf
  kills := hkills
  slays := fun _ => none_elim hslays
  keep := by
    intro j
    by_cases hji : j = i
    · rw [hji, hself]
      exact hkeep
    · exact .inl (hother j hji)
  pagetable := by
    intro j
    by_cases hji : j = i
    · rw [hji, hself]
      exact hpagetable
    · exact .inl (by rw [hother j hji])

omit [DecidableEq C] in
/-- A slot whose fields are assigned is in use, or it is as it was. -/
theorem inUse_of_touch (hc : Clean s) (hs : Exclusive s) (hk : Kinship s)
    (hslot : (s.here c).slotLock (s.running c) = some i ∧
        (f s.proc = s.proc i ∨ (s.proc i).state = .sleeping) ∨
      s.running c = some i ∧ (s.here c).ownState = .running ∨ (s.here c).sees = some (i, .runnable) ∨
      (s.here c).slays = some i ∧ ((s.proc i).state = .used → (f s.proc).state = .used) ∨
      (s.here c).child = some i ∧ (f s.proc).state = (s.proc i).state) :
    (f s.proc = s.proc i ∨ (s.proc i).state ≠ .unused) ∧
      ((s.proc i).state = .used → (f s.proc).state = .used) ∧
      ((s.here c).slotLock (s.running c) = some i ∨ (s.proc i).state ≠ .used ∨ (s.proc i).parent ≠ none) := by
  obtain ⟨hlock, hsame | hsleep⟩ | ⟨hrun, hown⟩ | hsees | ⟨hslays, hused⟩ | ⟨hchild, hsame⟩ := hslot
  · exact ⟨.inl hsame, fun h => by rw [hsame, h], .inl hlock⟩
  · rw [hsleep]
    exact ⟨.inr nofun, nofun, .inl hlock⟩
  · have hstate : (s.proc i).state = .running := by
      rw [hs.state_of_running hrun, hown]
    rw [hstate]
    exact ⟨.inr nofun, nofun, .inr (.inl nofun)⟩
  · rw [hs.sees c i _ hsees]
    exact ⟨.inr nofun, nofun, .inl (Pc.slotLock_of_sees hsees)⟩
  · refine ⟨.inr fun hunused => hc.slays c i hslays ?_, hused, .inl (Pc.slotLock_of_slays hslays)⟩
    rw [hc.unused i hunused]
    rfl
  · obtain ⟨hrun, hparent⟩ := hk.child c i hchild
    have hne : (s.proc i).parent ≠ none := by
      rw [hparent]
      exact hrun
    exact ⟨.inr fun hunused => hne (hk.unused i hunused), fun h => hsame.trans h, .inr (.inr hne)⟩

omit [DecidableEq C] in
/-- What an assignment does to the contents of slots is legal. -/
theorem CleanLegal.of_writes (hc : Clean s) (hs : Exclusive s) (hk : Kinship s)
    (hother : ∀ j, j ≠ i → s'.proc j = s.proc j) (hself : s'.proc i = f s.proc)
    (hwrites : CleanWrites (s.running c) (s.here c) i f next) : CleanLegal s c next s' := by
  cases hwrites with
  | touch hpid htable hstate hcreating hkills hfresh hslays hslot =>
    obtain ⟨hinUse, hused, hkeep⟩ := inUse_of_touch (f := f) hc hs hk
      (hslot.imp (fun h => ⟨h.1, h.2 s.proc⟩) (Or.imp id (Or.imp id
        (Or.imp (fun h => ⟨h.1, h.2 s.proc⟩) (fun h => ⟨h.1, h.2 s.proc⟩)))))
    refine .of_slot hc hother hself ?_ ?_ ?_ ?_ ?_ hslays ?_ (.inl (htable _))
    · intro hunused
      obtain hsame | ⟨hne, -⟩ := hstate s.proc
      · obtain hid | hne := hinUse
        · rw [hid] at hunused ⊢
          exact hc.unused i hunused
        · exact absurd (hsame.symm.trans hunused) hne
      · exact absurd hunused hne
    · intro hunused hnotUsed
      rw [htable]
      refine hc.table i (fun h => ?_) (fun h => hnotUsed (hused h))
      obtain hid | hne := hinUse
      · rw [hid] at hunused
        exact hunused h
      · exact hne h
    · intro q hq
      rw [hcreating] at hq
      refine ⟨fun hqi => ?_, fun _ => hq⟩
      rw [here_eq] at hq
      rw [htable, ← hqi]
      exact hc.ready _ q hq
    · intro q b hq
      exact none_elim hfresh hq
    · intro pid hq
      obtain hold | hnone := hkills
      · rw [hold, here_eq] at hq
        exact hc.kills _ pid hq
      · exact none_elim hnone hq
    · obtain hslot | hstate | hparent := hkeep
      · exact .inr (.inl hslot)
      · exact .inr (.inr ⟨hpid _, .inl hstate⟩)
      · exact .inr (.inr ⟨hpid _, .inr (.inl hparent)⟩)
  | build ready hcreating hnext hpid htable hstate hkills hfresh hslays =>
    have hc' := hcreating
    rw [here_eq] at hc'
    have hused := (hs.creating _ i ready hc').1
    refine .of_slot hc hother hself ?_ ?_ ?_ ?_ (fun _ => none_elim hkills) hslays
      (.inr (.inr ⟨hpid _, .inr (.inr ⟨ready, hcreating⟩)⟩)) (.inr (.inr ⟨ready, hcreating⟩))
    · intro hunused
      rw [hstate, hused] at hunused
      cases hunused
    · intro _ hnotUsed
      rw [hstate] at hnotUsed
      exact absurd hused hnotUsed
    · intro q hq
      rw [hnext] at hq
      refine ⟨fun hqi => ?_, fun _ => hq⟩
      rw [hcreating] at hq
      cases hq
      rw [htable rfl]
      exact hc.ready _ i hc'
    · intro q b hq
      obtain ⟨hqi, ⟨b', hold⟩, hf⟩ := hfresh q b hq
      exact ⟨hqi, (hf s.proc).1 (hc.fresh c i b' hold).1, (hf s.proc).2⟩
  | start hcreating hnext hpid htable hstate hkills hfresh hslays =>
    have hc' := hcreating
    rw [here_eq] at hc'
    refine .of_slot hc hother hself ?_ ?_ (fun _ => none_elim hnext)
      (fun _ _ => none_elim hfresh) (fun _ => none_elim hkills) hslays
      (.inr (.inr ⟨hpid _, .inr (.inr ⟨true, hcreating⟩)⟩)) (.inl (htable _))
    · intro hunused
      rw [hstate] at hunused
      cases hunused
    · intro _ _
      rw [htable]
      exact hc.ready _ i hc'
  | free hslot hf hold hnext hkills hfresh hslays =>
    have hempty : f s.proc = Proc.empty := by
      rw [hf]
      obtain hsees | ⟨b, hold⟩ := hold
      · have hzombie := hs.sees c i _ hsees
        exact freed_eq_empty (.inl (hc.table i (by rw [hzombie]; exact nofun) (by rw [hzombie]; exact nofun)))
      · refine freed_eq_empty (.inr ?_)
        rw [(hc.fresh c i b hold).1]
        rfl
    refine .of_slot hc hother hself (fun _ => hempty) ?_ (fun _ => none_elim hnext)
      (fun _ _ => none_elim hfresh) (fun _ => none_elim hkills) hslays
      (.inr (.inl hslot)) (.inr ?_)
    · intro hunused
      rw [hempty] at hunused
      exact absurd rfl hunused
    · obtain hsees | ⟨b, hold⟩ := hold
      · rw [hs.sees c i _ hsees]
        exact .inl nofun
      · exact .inr (Pc.creating_of_kin (Pc.kin_of_fresh hold))

end Writes

namespace Clean

/-- An instruction keeps the invariant. -/
theorem code (hc : Clean s) (hs : Exclusive s) (hk : Kinship s)
    (hcode : Sched.code (s.running c) (s.here c) = some instr) (hnext : instr.Next s.proc next)
    (hgoes : Goes s c next t) (hproc : t.proc = instr.effect s.nextpid s.proc) : Clean t := by
  have hclean := code_clean (hs.here_wf c) hcode
  have htyped := code_typed (hs.here_wf c) hcode
  refine hc.of_goes hs hk hgoes ?_
  -- A thread that moves looks for the same pid.
  have hkills : ∀ k : Pc L K, k.kills = (s.here c).kills ∨ k.kills = none →
      ∀ pid, k.kills = some pid → pid ≠ 0 := by
    intro k hk pid hpid
    obtain hold | hnone := hk
    · rw [hold, here_eq] at hpid
      exact hc.kills _ pid hpid
    · exact none_elim hnone hpid
  have hready : ∀ k : Pc L K, (∀ q r, k.creating = some (q, r) →
      ∃ ready, (s.here c).creating = some (q, ready) ∧ (r = true → ready = true)) →
      ∀ q, k.creating = some (q, true) → (s.here c).creating = some (q, true) := by
    intro k hk q hq
    obtain ⟨ready, hold, hr⟩ := hk q true hq
    rw [hold, hr rfl]
  cases instr with
  | goto | acquire | release =>
    cases hnext
    obtain ⟨hold, hfresh, hslays⟩ := hclean
    exact .of_same hc hproc (hready _ htyped.1.creating) (fun _ _ => none_elim hfresh)
      (hkills _ hold) (fun _ => none_elim hslays)
  | setCurrent =>
    cases hnext
    obtain ⟨hold, hfresh, hslays⟩ := hclean
    exact .of_same hc hproc (hready _ htyped.2.1.creating) (fun _ _ => none_elim hfresh)
      (hkills _ hold) (fun _ => none_elim hslays)
  | read i =>
    cases hnext
    obtain ⟨hold, hfresh, hslays⟩ := hclean (s.proc i)
    refine .of_same hc hproc (hready _ (htyped (s.proc i)).1.creating)
      (fun _ _ => none_elim hfresh) (hkills _ hold) ?_
    intro q hq
    obtain ⟨rfl, pid, hpid, heq⟩ := hslays q hq
    rw [here_eq] at hpid
    have hne := hc.kills _ pid hpid
    rw [← heq] at hne
    exact fun h => hne (by rw [h]; rfl)
  | any =>
    obtain ⟨value, rfl⟩ := hnext
    obtain ⟨hold, hslays, hfresh⟩ := hclean value
    exact .of_same hc hproc (hready _ (htyped value).1.creating) hfresh (hkills _ hold) (fun _ => none_elim hslays)
  | write i f =>
    cases hnext
    exact .of_writes hc hs hk (fun j hj => by rw [hproc]; exact update_of_ne hj ..)
      (by rw [hproc]; exact update_self ..) hclean
  | allocpid i =>
    cases hnext
    obtain ⟨hnone, hslays, hfresh⟩ := hclean
    obtain ⟨hsees, hold, hnew, -⟩ := htyped
    have hempty := hc.unused i (hs.sees c i _ hsees)
    refine .of_slot (f := fun proc => { proc i with pid := s.nextpid, state := .used }) hc
      (fun j hj => by rw [hproc]; exact update_of_ne hj ..)
      (by rw [hproc]; exact update_self ..) nofun (fun _ h => absurd rfl h)
      (fun q hq => by rw [hnew] at hq; cases hq) ?_ (fun pid hq => by rw [hnone] at hq; cases hq) hslays
      (.inr (.inl (Pc.slotLock_of_sees hsees))) (.inl rfl)
    intro q b hq
    rw [hfresh] at hq
    cases hq
    refine ⟨rfl, ?_, nofun⟩
    rw [hempty]
    rfl
  | context | swtch | sched => cases hnext

omit [DecidableEq C] in
/-- Points at which no CPU relies on a slot do not matter. -/
theorem of_points (hc : Clean s) (hproc : t.proc = s.proc)
    (hcreating : ∀ u q, (t.point u).creating = some (q, true) → (s.point u).creating = some (q, true))
    (hkills : ∀ u pid, (t.point u).kills = some pid → (s.point u).kills = some pid)
    (hhere : ∀ d, t.here d = s.here d ∨ (t.here d).fresh = none ∧ (t.here d).slays = none) : Clean t where
  unused := by
    rw [hproc]
    exact hc.unused
  table := by
    rw [hproc]
    exact hc.table
  ready := by
    intro u q hu
    rw [hproc]
    exact hc.ready u q (hcreating u q hu)
  fresh := by
    intro d q b hd
    rw [hproc]
    obtain hsame | ⟨hnone, -⟩ := hhere d
    · exact hc.fresh d q b (hsame ▸ hd)
    · exact none_elim hnone hd
  kills := fun u pid hu => hc.kills u pid (hkills u pid hu)
  slays := by
    intro d q hd
    rw [hproc]
    obtain hsame | ⟨-, hnone⟩ := hhere d
    · exact hc.slays d q (hsame ▸ hd)
    · exact none_elim hnone hd

variable {p : Fin NPROC}

section

variable (hc : Clean s) (hs : Exclusive s) (hk : Kinship s)

include hc hs hk

/-- Setting a context up keeps the invariant. -/
theorem context {i : Fin NPROC} {entry : K} (hcode : Sched.code (s.running c) (s.here c) = some (.context i next))
    (hgoes : Goes (s.setContext i entry) c next t)
    (hproc : t.proc = update s.proc i { s.proc i with pagefaultCount := 0, vr := ⟨0, 0, false⟩ }) : Clean t := by
  obtain ⟨hnone, hslays, hnext, hold⟩ := code_clean (hs.here_wf c) hcode
  obtain ⟨hcreating, hready, hslot, -⟩ := code_typed (hs.here_wf c) hcode
  have hused := hs.used_of_creating hcreating
  have hhere := hs.here_setContext hused entry
  have hc₁ : Clean (s.setContext i entry) := by
    refine hc.of_points rfl ?_ ?_ fun d => .inl (hhere d)
    · intro u q hu
      rw [setContext_point] at hu
      split at hu
      · cases hu
      · exact hu
    · intro u pid hu
      rw [setContext_point] at hu
      split at hu
      · cases hu
      · exact hu
  have hk₁ : Kinship (s.setContext i entry) := by
    refine hk.of_points rfl ?_ fun d => .inl ⟨hhere d, rfl⟩
    intro u q b hu
    rw [setContext_point] at hu
    split at hu
    · cases hu
    · exact hu
  obtain ⟨hfresh, htable⟩ := hc.fresh c i true hold
  refine hc₁.of_goes (hs.setContext hused entry) hk₁ hgoes
    (.of_slot (f := fun proc => { proc i with pagefaultCount := 0, vr := ⟨0, 0, false⟩ }) hc₁
      (fun j hj => by rw [hproc]; exact update_of_ne hj ..)
      (by rw [hproc]; exact update_self ..) ?_ (fun _ h => absurd hused h) ?_ ?_
      (fun _ => none_elim hnone) hslays (.inr (.inl (by rw [hhere]; exact hslot))) (.inl rfl))
  · intro hunused
    change (s.proc i).state = .unused at hunused
    rw [hused] at hunused
    cases hunused
  · intro q hq
    rw [hready] at hq
    cases hq
    exact ⟨fun _ => htable rfl, fun h => absurd rfl h⟩
  · intro q b hq
    rw [hnext] at hq
    cases hq
    refine ⟨rfl, ?_, fun _ => htable rfl⟩
    change Fresh { s.proc i with pagefaultCount := 0, vr := ⟨0, 0, false⟩ }
    rw [hfresh]
    rfl

/-- A thread goes on in the code of the client, or enters a function from there. -/
theorem client_step (hgoes : Goes s c next t) (hcreating : next.creating = (s.here c).creating)
    (hfresh : next.fresh = none) (hslays : next.slays = none) (hkills : ∀ pid, next.kills = some pid → pid ≠ 0)
    (hproc : t.proc = s.proc) : Clean t :=
  hc.of_goes hs hk hgoes (.of_same hc hproc (fun _ hq => hcreating ▸ hq)
    (fun _ _ => none_elim hfresh) hkills (fun _ => none_elim hslays))

/-- A process changes its private fields. -/
theorem own {op : PrivateOp} {k k' : K} (hrun : s.running c = some p) (hpc : s.here c = .client k)
    (hgoes : Goes s c (.client k') t) (hproc : t.proc = update s.proc p (op.apply (s.proc p))) : Clean t := by
  have hstate : (s.proc p).state = .running := by
    rw [hs.state_of_running hrun, hpc]
    rfl
  have htable : (op.apply (s.proc p)).pagetable ≠ 0 := by
    have hold := hc.table p (by rw [hstate]; exact nofun) (by rw [hstate]; exact nofun)
    cases op with
    | exec pagetable sz name => exact pagetable.property
    | mapzero size =>
      change (sysMapzero (s.proc p) size).2.pagetable ≠ 0
      unfold sysMapzero
      split <;> exact hold
    | _ => exact hold
  obtain ⟨hsame, -, hpid, -⟩ := op.apply_fields (s.proc p)
  refine hc.of_goes hs hk hgoes (.of_slot (f := fun proc => op.apply (proc p)) hc
    (fun j hj => by rw [hproc]; exact update_of_ne hj ..)
    (by rw [hproc]; exact update_self ..) ?_ (fun _ _ => htable) nofun
    nofun nofun rfl (.inr (.inr ⟨hpid, .inl ?_⟩)) (.inr (.inl ?_)))
  · intro hunused
    rw [hsame, hstate] at hunused
    cases hunused
  · rw [hstate]
    exact nofun
  · rw [hstate]
    exact nofun

end

/-- A call other than of `kkill` with pid zero. -/
theorem call_clean {op : Op L D K} {pid : ℕ} (hcall : op.call = some next)
    (hevent : op.event p pid ≠ .kill 0) : next.creating = none ∧ next.fresh = none ∧ next.slays = none ∧
      ∀ pid, next.kills = some pid → pid ≠ 0 := by
  cases op with
  | kill victim k =>
    cases hcall
    refine ⟨rfl, rfl, rfl, ?_⟩
    rintro pid hpid rfl
    cases hpid
    exact hevent rfl
  | sleep | killed | setkilled | fork | exit | wait =>
    cases hcall
    exact ⟨rfl, rfl, rfl, nofun⟩
  | acquire | release | access | own | wakeup => cases hcall

variable {client : Client L D K}

omit [DecidableEq C] in
/-- A thread that looks for the pid for which it did does not look for pid zero. -/
theorem kills_of_eq (hc : Clean s) (hkills : next.kills = (s.here c).kills) (pid : ℤ) (hpid : next.kills = some pid) :
    pid ≠ 0 := by
  rw [hkills, here_eq] at hpid
  exact hc.kills _ pid hpid

/-- Every step keeps the invariant, unless it calls `kkill` with pid zero. -/
theorem step [DecidableEq L] (hc : Clean s) (hs : Exclusive s) (hk : Kinship s) {e : Event}
    (h : Step client s e t) (hevent : e ≠ .kill 0) : Clean t := by
  cases hs.acts h with
  | code c instr next hcode hready hnext hgoes hproc hlock hdata => exact hc.code hs hk hcode hnext hgoes hproc
  | context c i next hcode hgoes hproc hlock hdata => exact hc.context hs hk hcode hgoes hproc
  | resume c q next hcode hidle ht =>
    obtain ⟨-, -, -, -, -, -, hcreating, -⟩ := code_typed (hs.here_wf c) hcode
    have hkills : next.kills = none := code_clean (hs.here_wf c) hcode
    rw [ht]
    refine hc.of_points rfl ?_ ?_ ?_
    · intro u q hu
      rw [resume_point] at hu
      split at hu
      · exact none_elim hcreating hu
      · exact hu
    · intro u pid hu
      rw [resume_point] at hu
      split at hu
      · exact none_elim hkills hu
      · exact hu
    · intro d
      by_cases hd : d = c
      · rw [hd, resume_here_self]
        exact .inr (hs.resumable hcode).clean
      · exact .inl (resume_here_ne hd)
  | suspend c p next hcode hrun honly ht =>
    obtain ⟨-, -, -, hcreating, -⟩ := code_typed (hs.here_wf c) hcode
    have hkills : next.kills = (s.here c).kills := code_clean (hs.here_wf c) hcode
    obtain ⟨-, ⟨rest, hsched⟩, -⟩ := hs.own c p hrun
    rw [Exclusive.here_of_running hrun] at hcreating hkills
    rw [ht]
    refine hc.of_points rfl ?_ ?_ ?_
    · intro u q hu
      rw [suspend_point] at hu
      split at hu
      · rename_i hup
        rw [hcreating] at hu
        rw [hup]
        exact hu
      · exact hu
    · intro u pid hu
      rw [suspend_point] at hu
      split at hu
      · rename_i hup
        rw [hkills] at hu
        rw [hup]
        exact hu
      · exact hu
    · intro d
      by_cases hd : d = c
      · rw [hd, suspend_here_self, hsched]
        exact .inr ⟨rfl, rfl⟩
      · exact .inl (suspend_here_ne hd fun hp => hd (hs.running_unique hp hrun))
  | clientAcquire c back l k k' hop hlock hgoes hproc | clientRelease c back l k k' hop hlock hgoes hproc
  | access c back d k k' hop hgoes hproc =>
    obtain ⟨hcreating, hfresh, hslays, hkills⟩ := Pc.frame_clean back k k'
    exact hc.client_step hs hk hgoes (by rw [hop.here]; exact hcreating) hfresh hslays
      (hc.kills_of_eq (by rw [hop.here]; exact hkills)) hproc
  | wakeup c back chan k k' hop hgoes hproc =>
    obtain ⟨hcreating, -, -, hkills⟩ := Pc.frame_clean back k k'
    exact hc.client_step hs hk hgoes (by rw [hop.here]; exact hcreating) rfl rfl
      (hc.kills_of_eq (by rw [hop.here]; exact hkills)) hproc
  | own c p op k k' hrun hpc hnext hgoes hproc hlock hdata => exact hc.own hs hk hrun hpc hgoes hproc
  | call c p op k next hrun hpc hnext hcall hgoes hproc hlock hdata =>
    obtain ⟨hcreating, hfresh, hslays, hkills⟩ := call_clean hcall hevent
    exact hc.client_step hs hk hgoes (by rw [hpc, hcreating]; rfl) hfresh hslays hkills hproc
  | interrupt c next hfree hnext hgoes hproc hlock hdata =>
    have hkeep : next.creating = (s.here c).creating ∧ next.fresh = none ∧ next.slays = none ∧
        next.kills = (s.here c).kills := by
      obtain rfl | ⟨chan⟩ | ⟨k, hstart⟩ := hnext <;> exact ⟨rfl, rfl, rfl, rfl⟩
    obtain ⟨hcreating, hfresh, hslays, hkills⟩ := hkeep
    exact hc.client_step hs hk hgoes hcreating hfresh hslays (hc.kills_of_eq hkills) hproc
  | iret c k back hpc hend hgoes hproc hlock hdata =>
    have hslot := (hpc ▸ hs.here_wf c : (Pc.handler k back).WF (s.running c)).2.1
    exact hc.client_step hs hk hgoes (by rw [hpc]; rfl) (Pc.fresh_of_slotLock hslot) (Pc.slays_of_slotLock hslot)
      (hc.kills_of_eq (by rw [hpc]; rfl)) hproc

omit [DecidableEq C] in
/-- The invariant holds after `userinit`. -/
theorem initial (h : Initial client s) : Clean s := by
  obtain ⟨trapframe, pagetable, -, hpagetable, hfirst⟩ := h.first
  have hpoint : ∀ u, (s.point u).creating = none ∧ (s.point u).kills = none := by
    intro u
    cases u with
    | sched c =>
      change (s.sched c).creating = none ∧ (s.sched c).kills = none
      rw [h.sched]
      exact ⟨rfl, rfl⟩
    | proc p =>
      change (s.pc p).creating = none ∧ (s.pc p).kills = none
      rw [h.pc]
      split <;> exact ⟨rfl, rfl⟩
  exact {
    unused := by
      intro i hi
      refine h.others i ?_
      rintro rfl
      rw [hfirst] at hi
      cases hi
    table := by
      intro i hunused _
      by_cases hi : i = initproc
      · rw [hi, hfirst]
        exact hpagetable
      · rw [h.others i hi] at hunused
        exact absurd rfl hunused
    ready := fun u q hu => by rw [(hpoint u).1] at hu; cases hu
    fresh := fun c q b hq => by rw [h.here] at hq; cases hq
    kills := fun u pid hu => by rw [(hpoint u).2] at hu; cases hu
    slays := fun c q hq => by rw [h.here] at hq; cases hq }

end Clean

/-- In every run in which nobody calls `kkill` with pid zero: an `UNUSED` slot whose lock is free is empty,
and a process that `allocproc` returns has nothing but its pid, trapframe and page table. -/
theorem clean_slots [DecidableEq L] (client : Client L D K) (init s : Machine C L D K) (events : List Event)
    (hinit : Initial client init) (hrun : Run (Step client) init events s) (hkill : .kill 0 ∉ events) :
    (∀ i, (s.proc i).state = .unused → s.lock (.proc i) = none → s.proc i = Proc.empty) ∧
    ∀ c q k, s.here c = .forkCopy q k → Fresh (s.proc q) ∧ (s.proc q).killed = false := by
  have hinv : Exclusive s ∧ Kinship s ∧ (Event.kill 0 ∉ events → Clean s) := by
    refine hrun.history (fun events s => Exclusive s ∧ Kinship s ∧ (.kill 0 ∉ events → Clean s)) ?_ ?_
    · exact ⟨.initial hinit, .initial hinit, fun _ => .initial hinit⟩
    · intro events s e t ⟨hs, hk, hc⟩ hstep
      refine ⟨hs.step hstep, hk.step hs hstep, fun hkill => ?_⟩
      rw [List.mem_append, not_or, List.mem_singleton] at hkill
      exact (hc hkill.1).step hs hk hstep fun h => hkill.2 h.symm
  have hc := hinv.2.2 hkill
  refine ⟨fun i hunused _ => hc.unused i hunused, fun c q k hpc => ?_⟩
  have hfresh := (hc.fresh c q true (by rw [hpc]; rfl)).1
  refine ⟨hfresh, ?_⟩
  rw [hfresh]
  rfl

/-- Nobody in the family kills. -/
theorem family_spares {s t : Machine C Empty Unit (Option (ℕ × ℤ))} {e : Event} (h : Step family s e t) :
    e ≠ .kill 0 := by
  cases h with
  | write c i f next hcode =>
    unfold Pc.event
    split
    · split <;> exact nofun
    · exact nofun
  | call c p op k next hrun hpc hnext hcall => obtain rfl | rfl | ⟨status, rfl⟩ := hnext <;> exact nofun
  | _ => exact nofun

/-- The parent has its child's exit from `kwait`: the slot of the child is empty again. -/
theorem clean_slots_child :
    ∃ (events : List Event) (s : Machine Hart Empty Unit (Option (ℕ × ℤ))),
      Run (Step family) familyBoot events s ∧ s.pc initproc = .client (some (2, 7)) ∧
      s.proc child = Proc.empty := by
  obtain ⟨events, s, hinit, hrun, huser, hunused, hfree⟩ := exists_family (childFound ++ .replicate 3 (.zero, 1))
    (fun s => (s.pc initproc).user = some (some (2, 7)) ∧ (s.proc child).state = .unused ∧
      s.lock (.proc child) = none) (by decide +kernel)
  have hkill : .kill 0 ∉ events := by
    refine hrun.history (fun events _ => .kill 0 ∉ events) List.not_mem_nil ?_
    intro events s e t h hstep
    rw [List.mem_append, List.mem_singleton]
    exact not_or.2 ⟨h, fun heq => family_spares hstep heq.symm⟩
  exact ⟨events, s, hrun, Pc.eq_of_user huser,
    (clean_slots family familyBoot s events hinit hrun hkill).1 child hunused hfree⟩

/-- The first process calls `kkill` with pid zero: the next slot is `UNUSED` with its lock free, and
`killed` is set. -/
theorem kill_zero_marks_unused :
    ∃ (client : Client Empty Unit Unit) (s : Machine Unit Empty Unit Unit) (i : Fin NPROC),
      Reachable client s ∧ (s.proc i).state = .unused ∧ s.lock (.proc i) = none ∧
        (s.proc i).killed = true := by
  let client : Client Empty Unit Unit := { next := fun _ _ _ op => op = .kill 0 fun _ => (), entry := () }
  let script : Script Empty Unit Unit :=
    { entry := (), choices := fun _ _ _ => some (.kill 0 fun _ => ()), locks := familyScript.locks }
  have hfollows : client.Follows script :=
    ⟨rfl, fun _ _ _ _ _ hop => (Option.some.inj hop).symm, family_follows.locks, nofun, nofun, nofun⟩
  -- The first process leaves `forkret` and calls `kkill`. Its pid is one, that of the next slot is zero.
  have h : ((List.replicate 15 ((), 0)).foldlM (exec script) (boot client () 4096 8192)).any
      (fun s : Machine Unit Empty Unit Unit => (s.proc child).state = .unused ∧ s.lock (.proc child) = none ∧
        (s.proc child).killed = true) = true := by
    decide +kernel
  obtain ⟨events, s, hrun, hs⟩ := exists_run hfollows h
  exact ⟨client, s, child, ⟨_, events, boot_initial _ _ (by decide) (by decide), hrun⟩, hs⟩

end Machine

end Xv6.Sched
