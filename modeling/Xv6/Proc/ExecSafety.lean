import Xv6.Proc.Guarded
import Xv6.Proc.Teardown

/-!
# `exec` and the special mappings

`exec` frees the old address space by its size alone and keeps the records of `map_ro`, `mapzero` and
the shared page. It is safe for a process that has none of them and no user page above its size. The
page of an earlier `map_ro` above the size makes the kernel panic after the new image is complete.
-/

namespace Xv6

open Library Vm

section Safety

variable [KernelImage]

/-- The process has no special mapping and has not asked for shared memory, and its user pages lie below
its size. -/
structure Proc.Plain (p : Proc) (s : Phys) : Prop where
  unshared : p.shmVa = 0
  usar : p.usarMemoriaCompartida = false
  mapRo : p.mapRoVa = 0
  region : p.vr.active = false
  below : ∀ v w, leaf s.mem p.pagetable v = some w → v < tfVpn → v < pageCount p.sz

/-- What an `exec` that has replaced the image should leave behind: the pages of the old address space
have been freed, each once, the shared page is not among them, and the new process has no special
mapping either and will not share a page by itself. -/
structure ExecClean (p : Proc) (s : Phys) (page : ℕ) (p' : Proc) (s' : Phys) : Prop where
  freed : ∃ freed rest, s'.freelist = freed ++ rest ∧ (∀ x ∈ rest, x ∈ s.freelist) ∧
    (∀ x, x ∈ freed ↔ x ∈ spacePages s.mem p.pagetable p.sz) ∧ page ∉ freed
  once : s'.freelist.Nodup
  plain : p'.Plain s'
  size : p'.sz ≤ TRAPFRAME

variable {k₀ k : Kernel} {events : List Event} {i : Fin NPROC}

/-- The shared page is not part of an address space that does not share it. -/
theorem SlotOk.shared_not_spacePages {p : Proc} {s : Phys} {page : ℕ} (h : SlotOk p s page)
    (hpage : page ≠ 0) (hshm : p.shmVa = 0) : page ∉ spacePages s.mem p.pagetable p.sz := by
  intro hx
  obtain ht | ⟨v, -, w, hw, heq⟩ := hx
  · exact h.notTable hpage ht
  · exact (h.only hpage v w hw heq).1 hshm

/-- A new image is plain if the process was. -/
theorem Executed.plain {p p' : Proc} {s s' : Phys} (he : Executed p s p' s') (h : p.Plain s) : p'.Plain s' := by
  refine ⟨?_, ?_, ?_, ?_, he.only⟩
  · rw [he.record]
    exact h.unshared
  · rw [he.record]
    exact h.usar
  · rw [he.record]
    exact h.mapRo
  · rw [he.record]
    exact h.region

/-- After every run of guarded moves, `exec` by a process without special mappings and without pages
above its size does not panic, and if it replaces the image it does so cleanly. -/
theorem kexec_after_run {path : List UInt8} {file : Option ExecFile} {argv : List (List UInt8)}
    (hboot : k₀.Boot) (hrun : Run Kernel.Guarded k₀ events k) (hi : (k.proc i).state = .runnable)
    (hplain : (k.proc i).Plain k.phys) (hargv : ArgvOk argv) :
    Ensures (kexec (k.proc i) path file argv) k.phys fun r s' =>
      r = (-1, k.proc i) ∨
      r.1 = argv.length ∧ ExecClean (k.proc i) k.phys k.sharedPage r.2 s' := by
  have hlive : (k.proc i).Live := .of_runnable hi
  have hslot := (hboot.invariant.of_run hrun).layout.slot i hlive
  apply ((kexec_spec hslot.ok hargv).mono _ _).ensures (R := fun _ => False) (fun _ => id)
  · intro r s' hr
    obtain ⟨hfail, -⟩ | ⟨hargc, hdone⟩ := hr
    · exact .inl hfail
    refine .inr ⟨hargc, ?_⟩
    obtain ⟨freed, rest, hlist, -, hfreed, hsplit⟩ := hdone.freed
    refine ⟨⟨freed, rest, hlist, fun x hx => (hsplit x).2 (.inr hx), hfreed, ?_⟩,
      hdone.space.within.free.nodup, hdone.plain hplain, hdone.size⟩
    intro hx
    have hpages := (hfreed _).1 hx
    have hpage := (hslot.ok.space.spacePages_out hslot.ok.size hpages).1.ne_zero
    exact hslot.shared_not_spacePages hpage hplain.unshared hpages
  · intro e he
    obtain ⟨-, v, w, hw, hv, hcount⟩ := he
    exact hcount (hplain.below v w hw hv)

end Safety

section Concrete

attribute [local instance] linkedImage

/-- An executable file without segments. -/
def emptyProgram : ExecFile where
  size := 64
  byte j := ([0x7F, 0x45, 0x4C, 0x46] : List UInt8).getD j 0

/-- The new image of `exec` can be completed. -/
def imageBuilt (p : Proc) (file : ExecFile) (argv : List (List UInt8)) (s : Phys) : Bool :=
  match procPagetable p.trapframe s with
  | .ok (some pagetable, s₁) =>
    match buildImage p pagetable file (parseElfHdr (file.readi 0 elfhdrBytes)) argv s₁ with
    | .ok ((_, some _), _) => true
    | _ => false
  | _ => false

/-- An `exec` that has completed the new image does not fail any more. -/
theorem imageBuilt.not_failed {p : Proc} {path : List UInt8} {s s' : Phys} {r : ℤ × Proc}
    (h : imageBuilt p emptyProgram [] s = true)
    (hx : kexec p path (some emptyProgram) [] s = .ok (r, s')) : r.1 = 0 := by
  have hlen : (emptyProgram.readi 0 elfhdrBytes).length = elfhdrBytes := by decide +kernel
  have hmagic : (parseElfHdr (emptyProgram.readi 0 elfhdrBytes)).magic = ELF_MAGIC := by
    decide +kernel
  rw [kexec] at hx
  dsimp only at hx
  rw [if_neg (not_not_intro hlen), if_neg (not_not_intro hmagic)] at hx
  obtain ⟨root, s₁, hroot, hx⟩ := bind_ok_iff.1 hx
  rw [imageBuilt, hroot] at h
  cases root with
  | none => cases h
  | some pagetable =>
    obtain ⟨image, s₂, himage, hx⟩ := bind_ok_iff.1 hx
    obtain ⟨sz, sp⟩ := image
    dsimp only at h
    rw [himage] at h
    cases sp with
    | none => cases h
    | some sp =>
      obtain ⟨_, s₃, -, hx⟩ := bind_ok_iff.1 hx
      obtain ⟨_, s₄, -, hx⟩ := bind_ok_iff.1 hx
      cases hx
      rfl

/-- `exec` after `map_ro` above the size of the process panics when it frees the old page table. -/
theorem kexec_map_ro_panics : ∃ events k, (bootKernel 40).Boot ∧
    Run Kernel.Guarded (bootKernel 40) events k ∧
    events.map (fun e => (e.proc, e.op)) = [(0, .mapRo 4096)] ∧ (k.proc 0).state = .runnable ∧
    kexec (k.proc 0) [] (some emptyProgram) [] k.phys = .error .freewalkLeaf := by
  obtain ⟨events, k, hrun, hops, hcheck⟩ := Kernel.exists_replayGuarded (bootKernel 40)
    [(0, .mapRo 4096)]
    (fun _ k => decide ((k.proc 0).state = .runnable ∧ (k.proc 0).sz = 0 ∧
        (leaf k.phys.mem (k.proc 0).pagetable 1).isSome = true) &&
      imageBuilt (k.proc 0) emptyProgram [] k.phys) (by decide +kernel)
  rw [Bool.and_eq_true, decide_eq_true_eq] at hcheck
  obtain ⟨⟨hstate, hsz, hleaf⟩, hbuilt⟩ := hcheck
  refine ⟨events, k, bootKernel_forty.1, hrun, hops, hstate, ?_⟩
  have hlive : (k.proc 0).Live := .of_runnable hstate
  have hslot := (bootKernel_forty.1.invariant.of_run hrun).layout.slot 0 hlive
  have hargv : ArgvOk [] := ⟨by decide, fun a ha => absurd ha List.not_mem_nil⟩
  have hspec := @kexec_spec _ [] (k.proc 0) k.phys [] (some emptyProgram) hslot.ok hargv
  cases hres : kexec (k.proc 0) [] (some emptyProgram) [] k.phys with
  | error e => rw [(hspec.2 e hres).1]
  | ok r =>
    obtain ⟨r, s'⟩ := r
    have hzero := imageBuilt.not_failed hbuilt hres
    obtain ⟨hr, -⟩ | ⟨-, hdone⟩ := hspec.1 r s' hres
    · rw [hr] at hzero
      cases hzero
    · -- The page of `map_ro` is above the size, so the old table cannot have been freed.
      obtain ⟨w, hw⟩ := Option.isSome_iff_exists.1 hleaf
      have hbelow := hdone.tracked 1 w hw (by decide)
      rw [hsz] at hbelow
      exact absurd hbelow (by decide)

/-- A process without special mappings that has grown its heap and touched a page of it. -/
theorem exists_touched_heap : ∃ events k, Run Kernel.Guarded (bootKernel 40) events k ∧
    events.map (fun e => (e.proc, e.op)) = [(0, .sbrk 8192), (0, .store 5000 77)] ∧
    (k.proc 0).state = .runnable ∧ (k.proc 0).sz = 8192 ∧ (k.proc 0).Ok k.phys ∧
    (k.proc 0).Plain k.phys ∧ (leaf k.phys.mem (k.proc 0).pagetable 1).isSome = true ∧
    leaf k.phys.mem (k.proc 0).pagetable 0 = none ∧ 3 ≤ k.phys.freelist.length := by
  obtain ⟨events, k, hrun, hops, hcheck⟩ := Kernel.exists_replayGuarded (bootKernel 40)
    [(0, .sbrk 8192), (0, .store 5000 77)]
    (fun _ k => decide ((k.proc 0).state = .runnable ∧ (k.proc 0).shmVa = 0 ∧
      (k.proc 0).usarMemoriaCompartida = false ∧ (k.proc 0).mapRoVa = 0 ∧ (k.proc 0).vr.active = false ∧
      (k.proc 0).sz = 8192 ∧ (leaf k.phys.mem (k.proc 0).pagetable 1).isSome = true ∧
      leaf k.phys.mem (k.proc 0).pagetable 0 = none ∧ 3 ≤ k.phys.freelist.length)) (by decide +kernel)
  obtain ⟨hstate, hshm, husar, hro, hvr, hsz, hleaf, hnone, hfree⟩ := of_decide_eq_true hcheck
  obtain ⟨hboot, hinit⟩ := bootKernel_forty
  have hgood : ∀ e ∈ events, e.proc = 0 ∧ e.op.OnMemory ∧
      ∀ p s, Proc.TeardownSafe p s e.op := by
    intro e he
    have hmem := List.mem_map_of_mem (f := fun e : Event => (e.proc, e.op)) he
    rw [hops, List.mem_pair] at hmem
    obtain heq | heq := hmem
    · obtain ⟨hproc, hop⟩ := Prod.mk.inj heq
      rw [hop]
      exact ⟨hproc, trivial, fun _ _ => trivial⟩
    · obtain ⟨hproc, hop⟩ := Prod.mk.inj heq
      rw [hop]
      exact ⟨hproc, trivial, fun _ _ => trivial⟩
  have hmoves : Run (Kernel.MemoryMoves 0 Proc.TeardownSafe) (bootKernel 40) events k :=
    hrun.restrict _ hgood fun t e u hmove hsafe =>
      ⟨hsafe.1, hsafe.2.1, hsafe.2.2 _ _, hmove.moves⟩
  have hnew : (bootKernel 40).NewProcess 0 := hinit ▸ hboot.newProcess
  have htracked := (Run.freeable hnew hmoves).tracked
  have hlive : (k.proc 0).Live := .of_runnable hstate
  have hok := ((hboot.invariant.of_run hrun).layout.slot 0 hlive).ok
  refine ⟨events, k, hrun, hops, hstate, hsz, hok, ⟨hshm, husar, hro, hvr, ?_⟩, hleaf, hnone, hfree⟩
  intro v w hw hv
  obtain hc | hc | hc | hc := htracked.leaves v w hw hv
  · exact absurd hshm hc.1.2
  · exact absurd hro hc.1
  · exact absurd hc.1 (by rw [hvr]; exact Bool.false_ne_true)
  · exact hc

/-- A process that has grown its heap and touched a page replaces its image cleanly. -/
theorem kexec_after_run_stored : ∃ events k, (bootKernel 40).Boot ∧
    Run Kernel.Guarded (bootKernel 40) events k ∧
    events.map (fun e => (e.proc, e.op)) = [(0, .sbrk 8192), (0, .store 5000 77)] ∧
    Ensures (kexec (k.proc 0) [] (some emptyProgram) []) k.phys fun r s' =>
      r = (-1, k.proc 0) ∨ r.1 = ([] : List (List UInt8)).length ∧
        ExecClean (k.proc 0) k.phys k.sharedPage r.2 s' := by
  obtain ⟨events, k, hrun, hops, hstate, -, -, hplain, -⟩ := exists_touched_heap
  exact ⟨events, k, bootKernel_forty.1, hrun, hops, kexec_after_run bootKernel_forty.1 hrun hstate hplain
    ⟨by decide, fun a ha => absurd ha List.not_mem_nil⟩⟩

end Concrete

end Xv6
