import Xv6.Proc.Boot
import Xv6.Proc.StepSpec

/-!
# Freeing a process that has only used its own memory

`freeproc` finds the pages of a process by its size, by the record of `map_ro` and by the record of
`mapzero`. Each record has room for one entry, and the region of `mapzero` starts wherever the process
ended. A process that never lets a record forget a mapped page, and that calls `mapzero` only with its
size at a page boundary and with room for the region, is freed completely after any sequence of memory
operations.
-/

namespace Xv6

open Library Vm

section Processes

variable [KernelImage]

/-- A process as it has been created: its pages are below its size, and it has no special mapping. -/
structure Kernel.NewProcess (k : Kernel) (i : Fin NPROC) : Prop where
  ok : (k.proc i).Ok k.phys
  below : ∀ v w, leaf k.phys.mem (k.proc i).pagetable v = some w → v < tfVpn → v < pageCount (k.proc i).sz
  mapRo : (k.proc i).mapRoVa = 0
  region : (k.proc i).vr.active = false
  unshared : ¬ (k.proc i).Shares

/-- What an operation must not do for `freeproc` to find all pages afterwards. -/
def Proc.TeardownSafe (p : Proc) (s : Phys) : Op → Prop
  | .mapzero size => p.MapzeroFits size.toInt ∧ (0 < size.toInt → p.sz % 4096 = 0 ∧
      ∀ v w, leaf s.mem p.pagetable v = some w → v ∈ p.regionPages → v ∈ p.mapRoPages ∨
        v * 4096 < p.sz + pageCount size.toInt.natAbs * 4096)
  | .mapRo va => leaf s.mem p.pagetable (va.toNat / 4096) = none →
      (∀ v w, leaf s.mem p.pagetable v = some w → v ∈ p.mapRoPages →
        v ∈ p.regionPages ∨ v < pageCount p.sz) ∧
      (va.toNat / 4096 = 0 → 0 ∈ p.regionPages ∨ 0 < p.sz)
  | _ => True

/-- The moves of one process that only works on its memory, under a condition on each operation. -/
def Kernel.MemoryMoves (i : Fin NPROC) (safe : Proc → Phys → Op → Prop) (k : Kernel) (e : Event)
    (k' : Kernel) : Prop :=
  e.proc = i ∧ e.op.OnMemory ∧ safe (k.proc i) k.phys e.op ∧ k.Moves .lazy e k'

/-- All that `freeproc` needs of a process without shared memory. -/
structure Proc.Freeable (p : Proc) (s : Phys) : Prop where
  ok : p.Ok s
  mapRo : p.MapRoOk
  tracked : p.Tracked s
  unshared : ¬ p.Shares

section Tracking

variable {p p' : Proc} {s s' : Phys}

omit [KernelImage] in
/-- The pages that `freeproc` visits depend on the record of the memory only. -/
theorem Proc.SameMemory.visited (h : p.SameMemory p') :
    p'.sharedPages = p.sharedPages ∧ p'.mapRoPages = p.mapRoPages ∧ p'.regionPages = p.regionPages := by
  simp only [Proc.sharedPages, Proc.mapRoPages, Proc.regionPages, Proc.Shares, h.shmVa, h.usar,
    h.mapRoVa, h.vr, and_self]

omit [KernelImage] in
theorem Proc.SameMemory.tracked (h : p.SameMemory p') (hp : p.Tracked s) : p'.Tracked s := by
  obtain ⟨h1, h2, h3⟩ := h.visited
  refine ⟨?_, ?_⟩
  · rw [h.pagetable, h1, h2, h3, h.sz]
    exact hp.leaves
  · rw [h.vr]
    exact hp.region

theorem Proc.SameMemory.freeable (h : p.SameMemory p') (hp : p.Freeable s) : p'.Freeable s where
  ok := h.ok hp.ok
  mapRo := by
    rw [Proc.MapRoOk, h.mapRoVa]
    exact hp.mapRo
  tracked := h.tracked hp.tracked
  unshared := by
    rw [Proc.Shares, h.usar, h.shmVa]
    exact hp.unshared

omit [KernelImage] in
/-- The page of an address in a region that starts at a page is visited. -/
theorem Proc.InRegion.mem_regionPages {va : ℕ} (h : p.InRegion va) (hstart : p.vr.start % 4096 = 0) :
    va / 4096 ∈ p.regionPages := by
  obtain ⟨hactive, hle, hlt⟩ := h
  refine ⟨hactive, ?_⟩
  rw [mem_pageRange, pagesTo]
  change _ ∧ va / 4096 < p.vr.start / 4096 + (p.vr.limit - p.vr.start + 4095) / 4096
  omega

variable {sz : ℕ}

omit [KernelImage] in
theorem lt_pageCount_of_lt {va : ℕ} (h : va < sz) : va / 4096 < pageCount sz := by
  rw [pageCount]
  omega

section

variable (h : p.Tracked s)

include h

/-- Adding leaves in the region and below the size keeps all leaves tracked. -/
theorem Proc.Tracked.of_growth {allowed : ℕ → ℕ → Prop} (hg : LeafGrowth p.pagetable allowed s s')
    (hallowed : ∀ v perm, allowed v perm → v ∈ p.regionPages ∨ v < pageCount p.sz) : p.Tracked s' := by
  refine ⟨?_, h.region⟩
  intro v w hw hv
  cases hold : leaf s.mem p.pagetable v with
  | some w' => exact h.leaves v w' hold hv
  | none =>
    obtain ⟨m, perm, -, -, -, hperm⟩ := hg.new v w hold hw
    exact .inr (.inr (hallowed v perm hperm))

omit [KernelImage] in
/-- Pages that faults and copies map are tracked. -/
theorem Proc.Tracked.faultVpn {v perm : ℕ} (hv : p.FaultVpn v perm) : v ∈ p.regionPages ∨ v < pageCount p.sz := by
  obtain ⟨-, va, rfl, hva⟩ := hv
  exact hva.imp (fun hin => hin.mem_regionPages (h.region hin.1)) lt_pageCount_of_lt

omit [KernelImage] in
/-- Growing the size keeps all leaves tracked. -/
theorem Proc.Tracked.grow (hle : p.sz ≤ sz) : { p with sz := sz }.Tracked s := by
  refine ⟨?_, h.region⟩
  intro v w hw hv
  refine (h.leaves v w hw hv).imp_right (Or.imp_right (Or.imp_right ?_))
  intro hlt
  exact lt_of_lt_of_le hlt (pageCount_mono hle)

/-- Shrinking the size keeps all leaves tracked, since the ones in between are removed. -/
theorem Proc.Tracked.shrink (hd : Dealloced p.pagetable p.sz sz s sz s') : { p with sz := sz }.Tracked s' := by
  refine ⟨?_, h.region⟩
  intro v w hw hv
  rw [hd.leaf_eq] at hw
  obtain ⟨hold, hout⟩ := removed_eq_some hw
  obtain hc | hc | hc | hc := h.leaves v w hold hv
  · exact .inl hc
  · exact .inr (.inl hc)
  · exact .inr (.inr (.inl hc))
  · exact .inr (.inr (.inr (hout.resolve_right (not_le.2 hc))))

omit [KernelImage] in
/-- A new region keeps all leaves tracked if the leaves of the old one are below the new size. -/
theorem Proc.Tracked.mapzero {size : BitVec 32}
    (hsafe : p.TeardownSafe s (.mapzero size)) : (sysMapzero p size.toInt).2.Tracked s := by
  obtain ⟨hfits, hsafe⟩ := hsafe
  by_cases hpos : 0 < size.toInt
  · obtain ⟨haligned, hold⟩ := hsafe hpos
    rw [sysMapzero_pos hpos (natAbs_toInt_le size) (hfits hpos).1]
    refine ⟨?_, fun _ => haligned⟩
    intro v w hw hv
    have hbelow : v * 4096 < p.sz + pageCount size.toInt.natAbs * 4096 →
        v < pageCount (p.sz + pageCount size.toInt.natAbs * 4096) := fun hlt => lt_pageCount_iff.2 hlt
    obtain hc | hc | hc | hc := h.leaves v w hw hv
    · exact .inl hc
    · exact .inr (.inl hc)
    · exact (hold v w hw hc).elim (fun hc => .inr (.inl hc)) fun hlt => .inr (.inr (.inr (hbelow hlt)))
    · refine .inr (.inr (.inr (hbelow ?_)))
      have := lt_pageCount_iff.1 hc
      omega
  · rw [sysMapzero_nonpos (not_lt.1 hpos)]
    exact h

/-- A new read-only page keeps all leaves tracked if the old one is found without its record. -/
theorem Proc.Tracked.mapRo {va : BitVec 64} (hsafe : p.TeardownSafe s (.mapRo va))
    (hnone : leaf s.mem p.pagetable (va.toNat / 4096) = none)
    (hg : LeafGrowth p.pagetable
      (fun v perm => v = va.toNat / 4096 ∧ perm = PTE_R ||| PTE_U) s s') :
    { p with mapRoVa := PGROUNDDOWN va.toNat }.Tracked s' := by
  obtain ⟨hold, hzero⟩ := hsafe hnone
  obtain ⟨-, hpage⟩ := PGROUNDDOWN_facts va.toNat
  refine ⟨?_, h.region⟩
  intro v w hw hv
  by_cases hvpn : v = va.toNat / 4096
  · right
    by_cases hz : PGROUNDDOWN va.toNat = 0
    · right
      have hz' : va.toNat / 4096 = 0 := by omega
      rw [hvpn, hz']
      exact (hzero hz').imp_right fun hpos => lt_pageCount_iff.2 (by omega)
    · exact .inl ⟨hz, hvpn.trans hpage.symm⟩
  · cases hleaf : leaf s.mem p.pagetable v with
    | none =>
      obtain ⟨m, perm, -, -, -, hperm⟩ := hg.new v w hleaf hw
      exact absurd hperm.1 hvpn
    | some w' =>
      obtain hc | hc | hc := h.leaves v w' hleaf hv
      · exact .inl hc
      · exact .inr (.inr (hold v w' hleaf hc))
      · exact .inr (.inr hc)

end

variable {op : Op} {o : Outcome}

/-- Every safe operation keeps all leaves tracked. -/
theorem MemEffect.tracked (hok : p.Ok s) (h : p.Tracked s)
    (he : MemEffect p s op o p' s') (hsafe : p.TeardownSafe s op) : p'.Tracked s' := by
  have haccess : op.IsAccess → p'.Tracked s' := by
    intro hop
    obtain ⟨hsame, hg⟩ := he.access hok hop
    exact hsame.tracked (h.of_growth hg fun v perm hv => h.faultVpn hv)
  cases he with
  | grow n nonneg => exact h.grow (sbrkTo_nonneg_le nonneg)
  | shrink n _ neg dealloced => exact h.shrink dealloced
  | mapzero size => exact h.mapzero hsafe
  | mapRoFailed va _ growth => exact h.of_growth growth fun v perm hv => hv.elim
  | mapRo va _ low unmapped growth => exact h.mapRo hsafe unmapped growth
  | load va r _ _ outcome => exact haccess trivial
  | store va byte r _ _ outcome => exact haccess trivial
  | copyin va len r _ filled => exact haccess trivial
  | copyout va bytes r _ growth => exact haccess trivial

omit [KernelImage] in
theorem Proc.TeardownSafe.fits (h : p.TeardownSafe s op) : op.Fits p := by
  cases op <;> first | exact h.1 | trivial

/-- Every safe operation keeps the process freeable. -/
theorem MemEffect.freeable (h : p.Freeable s) (he : MemEffect p s op o p' s')
    (hsafe : p.TeardownSafe s op) : p'.Freeable s' := by
  have hsound := he.sound h.ok h.mapRo hsafe.fits
  refine ⟨hsound.ok, hsound.mapRo, he.tracked h.ok h.tracked hsafe, ?_⟩
  rw [Proc.Shares, hsound.handles.usar, hsound.handles.shmVa]
  exact h.unshared

end Tracking

section Run

variable {k₀ k : Kernel} {i : Fin NPROC} {events : List Event}

/-- A new process is freeable. -/
theorem Kernel.NewProcess.freeable (h : k.NewProcess i) : (k.proc i).Freeable k.phys where
  ok := h.ok
  mapRo := by
    rw [Proc.MapRoOk, h.mapRo]
    exact ⟨rfl, by decide⟩
  tracked := by
    refine ⟨fun v w hw hv => .inr (.inr (.inr (h.below v w hw hv))), ?_⟩
    intro hactive
    rw [h.region] at hactive
    cases hactive
  unshared := h.unshared

/-- A process is freeable after every run of safe operations. -/
theorem Run.freeable (hnew : k₀.NewProcess i)
    (hrun : Run (Kernel.MemoryMoves i Proc.TeardownSafe) k₀ events k) : (k.proc i).Freeable k.phys := by
  apply hrun.invariant (fun k => (k.proc i).Freeable k.phys) hnew.freeable
  intro k e k' hk hmove
  obtain ⟨rfl, hop, hsafe, hstep⟩ := hmove
  obtain ⟨p', s', heffect, hafter⟩ := hstep.memEffect hk.ok hop
  obtain ⟨hphys, hsame, -⟩ := hafter.spec
  rw [hphys]
  exact hsame.freeable (heffect.freeable hk hsafe)

/-- After every run of safe operations of a new process, `freeproc` completes, empties the slot and
puts every page of the process on the free list, once. -/
theorem freeproc_after_run (hnew : k₀.NewProcess i)
    (hrun : Run (Kernel.MemoryMoves i Proc.TeardownSafe) k₀ events k) :
    Ensures (freeproc i) k fun _ k' =>
      k' = { k.setProc i Proc.empty with phys := k'.phys } ∧ FreeOk k'.phys.freelist ∧
        ∃ freed, Freed ((k.proc i).pages k.phys ∅) k.phys k'.phys freed := by
  have h := Run.freeable hnew hrun
  have hkept : k.keptPages (k.proc i) = ∅ := by
    ext v
    exact iff_of_false (fun hv => h.unshared hv.1.1) (Set.notMem_empty v)
  have hunshare : k.unshare (k.proc i) = k := if_neg h.unshared
  have hspec := freeproc_spec h.ok h.mapRo fun hshares => absurd hshares h.unshared
  refine (hspec.ensures fun _ he => he h.tracked).mono ?_
  intro _ k' hk'
  rw [hkept, hunshare] at hk'
  obtain ⟨heq, freed, hfreed⟩ := hk'
  exact ⟨heq, h.ok.freeOk_of_freed hfreed, freed, hfreed⟩

/-- The first process is a new process. -/
theorem Kernel.Boot.newProcess (h : k.Boot) : k.NewProcess k.initproc := by
  obtain ⟨k₁, tf, root, hb⟩ := h.booted
  refine ⟨?_, ?_, ?_, ?_, ?_⟩
  · rw [hb.first]
    exact ⟨hb.memory.space, Nat.zero_le _, nofun⟩
  · rw [hb.first]
    intro v w hw hv
    obtain rfl | rfl := hb.memory.only v w hw
    · exact absurd hv (by decide)
    · exact absurd hv (by decide)
  · rw [hb.first]
    rfl
  · rw [hb.first]
    rfl
  · rw [hb.first]
    exact fun hf => nomatch hf.1

end Run

end Processes

section Concrete

attribute [local instance] linkedImage

/-- The region of `mapzero` starts in the middle of a page if the process ends there, and `freeproc`
then asks to unmap an address that is not aligned. -/
theorem freeproc_unaligned_region : ∃ events k, (bootKernel 40).NewProcess 0 ∧
    Run (Kernel.MemoryMoves 0 fun _ _ _ => True) (bootKernel 40) events k ∧
    events.map (fun e => (e.proc, e.op)) = [(0, .sbrk 1), (0, .mapzero 1), (0, .load 1)] ∧
    freeproc 0 k = .error .uvmunmapNotAligned := by
  obtain ⟨events, k, hreplay, hcheck⟩ := Kernel.exists_replay .lazy (bootKernel 40)
    [(0, .sbrk 1), (0, .mapzero 1), (0, .load 1)]
    (fun _ k => decide (freeproc 0 k = .error .uvmunmapNotAligned)) (by decide +kernel)
  obtain ⟨hboot, hinit⟩ := bootKernel_forty
  refine ⟨events, k, hinit ▸ hboot.newProcess, ?_, (Kernel.run_of_replay hreplay).2, of_decide_eq_true hcheck⟩
  apply Kernel.run_of_replay_good (fun q => q.1 = 0 ∧ q.2.OnMemory) hreplay
  · simp [Op.OnMemory]
  · intro t e u hmove hgood
    exact ⟨hgood.1, hgood.2, trivial, hmove⟩

/-- A region that starts at a page boundary is freed with its process. -/
theorem freeproc_after_run_mapzero : ∃ events k,
    Run (Kernel.MemoryMoves 0 Proc.TeardownSafe) (bootKernel 40) events k ∧
    events.map Event.outcome = [.result 0, .loaded regionByte, .result 4096, .stored] ∧
    Ensures (freeproc 0) k fun _ k' =>
      k' = { k.setProc 0 Proc.empty with phys := k'.phys } ∧ FreeOk k'.phys.freelist ∧
        ∃ freed, Freed ((k.proc 0).pages k.phys ∅) k.phys k'.phys freed := by
  obtain ⟨events, k, hreplay, hcheck⟩ := Kernel.exists_replay .lazy (bootKernel 40)
    [(0, .mapzero 1), (0, .load 1), (0, .sbrk 1), (0, .store 4096 66)]
    (fun events _ => decide
      (events.map Event.outcome = [.result 0, .loaded regionByte, .result 4096, .stored]))
    (by decide +kernel)
  obtain ⟨hboot, hinit⟩ := bootKernel_forty
  have hnew : (bootKernel 40).NewProcess 0 := hinit ▸ hboot.newProcess
  obtain ⟨o, k₁, rest, hstep, hrest, heq⟩ := Kernel.replay_cons hreplay
  have hsz : ((bootKernel 40).proc 0).sz = 0 := by decide +kernel
  have hsafe : ((bootKernel 40).proc 0).TeardownSafe (bootKernel 40).phys (.mapzero 1) := by
    refine ⟨fun _ => ?_, fun _ => ⟨?_, ?_⟩⟩
    · rw [hsz]
      decide
    · rw [hsz]
    · intro v w _ hv
      have hactive := hv.1
      rw [hnew.region] at hactive
      cases hactive
  have hrun : Run (Kernel.MemoryMoves 0 Proc.TeardownSafe) (bootKernel 40) events k := by
    rw [heq]
    refine Run.cons ⟨rfl, trivial, hsafe, hstep⟩ ?_
    apply Kernel.run_of_replay_good
      (fun q => q.1 = 0 ∧ q.2.OnMemory ∧ ∀ p s, Proc.TeardownSafe p s q.2) hrest
    · simp [Op.OnMemory, Proc.TeardownSafe]
    · intro t e u hmove hgood
      exact ⟨hgood.1, hgood.2.1, hgood.2.2 _ _, hmove⟩
  exact ⟨events, k, hrun, of_decide_eq_true hcheck, freeproc_after_run hnew hrun⟩

end Concrete

end Xv6
