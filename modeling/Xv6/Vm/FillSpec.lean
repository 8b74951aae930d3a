import Xv6.Vm.GrowSpec

/-!
# Filling holes of an address space

A page fault, `map_ro` and the copies of the kernel add leaves for pages that were not mapped before.
`Filled` says so for any number of new leaves, each with permissions and contents that are allowed at
its page number. Mapping a page that is mapped already makes the kernel panic, unless there is no
memory for it in the first place.
-/

namespace Xv6.Vm

open Function Library

variable [KernelImage]

/-- Leaves have been added, and what they map is allowed at their page number. -/
structure Filled (root : ℕ) (allowed : ℕ → ℕ → Page → Prop) (s s' : Phys) : Prop where
  quiet : Quiet root s s'
  old : ∀ vpn w, leaf s.mem root vpn = some w → leaf s'.mem root vpn = some w
  new : ∀ vpn w, leaf s.mem root vpn = none → leaf s'.mem root vpn = some w →
    ∃ m perm, m ∈ s.freelist ∧ perm < 1024 ∧ w = mkPte m perm ∧ allowed vpn perm (s'.mem m)

variable {vpn w : ℕ}

section Filled

variable {root tf : ℕ} {allowed : ℕ → ℕ → Page → Prop} {s s' s'' : Phys}

/-- Nothing has been added. -/
theorem Filled.of_same (hq : Quiet root s s')
    (hleaf : ∀ vpn, leaf s'.mem root vpn = leaf s.mem root vpn) : Filled root allowed s s' where
  quiet := hq
  old vpn w hw := (hleaf vpn).trans hw
  new vpn w hn hw := by
    rw [hleaf, hn] at hw
    cases hw

theorem Filled.refl (h : SpaceIn s root) : Filled root allowed s s := Filled.of_same (Quiet.refl h) fun _ => rfl

theorem Filled.trans (hin : SpaceIn s root) (h : Filled root allowed s s')
    (h' : Filled root allowed s' s'') : Filled root allowed s s'' where
  quiet := h.quiet.trans h'.quiet
  old vpn w hw := h'.old vpn w (h.old vpn w hw)
  new vpn w hn hw := by
    cases hmid : leaf s'.mem root vpn with
    | none =>
      obtain ⟨m, perm, hm, hperm, hw', hallowed⟩ := h'.new vpn w hmid hw
      exact ⟨m, perm, h.quiet.free_sub m hm, hperm, hw', hallowed⟩
    | some w' =>
      obtain ⟨m, perm, hm, hperm, rfl, hallowed⟩ := h.new vpn w' hn hmid
      have hsame := h'.old vpn _ hmid
      rw [hw] at hsame
      have hpage := hin.free.valid m hm
      -- the page is mapped now, so the second step does not write it
      obtain ⟨ht, hf⟩ := h.quiet.step.after.mapped_out hmid
      rw [PTE2PA_mkPte hpage.1 hpage.lt_two_pow hperm] at ht hf
      refine ⟨m, perm, hm, hperm, Option.some.inj hsame, ?_⟩
      rw [h'.quiet.same m ht hf]
      exact hallowed

theorem Filled.mono {allowed' : ℕ → ℕ → Page → Prop} (h : Filled root allowed s s')
    (hle : ∀ vpn perm page, allowed vpn perm page → allowed' vpn perm page) : Filled root allowed' s s' where
  quiet := h.quiet
  old := h.old
  new vpn w hn hw := by
    obtain ⟨m, perm, hm, hperm, hw', hallowed⟩ := h.new vpn w hn hw
    exact ⟨m, perm, hm, hperm, hw', hle _ _ _ hallowed⟩

/-- Filling holes keeps the address space of a process. -/
theorem Filled.procSpace (hf : Filled root allowed s s') (h : ProcSpace s root tf) : ProcSpace s' root tf where
  within := hf.quiet.step.after
  tramp := hf.old _ _ h.tramp
  tfLeaf := hf.old _ _ h.tfLeaf
  tfPage := h.tfPage

/-- A mapped page keeps its contents when holes are filled. -/
theorem Filled.mem_eq (hf : Filled root allowed s s') (h : SpaceIn s root)
    (hw : leaf s.mem root vpn = some w) : s'.mem (PTE2PA w) = s.mem (PTE2PA w) := by
  obtain ⟨ht, hfree⟩ := h.mapped_out hw
  exact hf.quiet.same _ ht hfree

/-- One leaf has been added. -/
theorem Filled.of_update {perm m : ℕ} (hq : Quiet root s s') (hnone : leaf s.mem root vpn = none)
    (hm : m ∈ s.freelist) (hperm : perm < 1024)
    (hleaf : ∀ v, leaf s'.mem root v = update (leaf s.mem root) vpn (some (mkPte m perm)) v)
    (hallowed : allowed vpn perm (s'.mem m)) : Filled root allowed s s' where
  quiet := hq
  old v w hw := by
    have hv : v ≠ vpn := ne_of_values hw hnone nofun
    rw [hleaf, update_of_ne hv, hw]
  new v w hn hw := by
    rw [hleaf] at hw
    rcases update_eq_some hw with ⟨rfl, rfl⟩ | ⟨-, hold⟩
    · exact ⟨m, perm, hm, hperm, rfl, hallowed⟩
    · exact none_elim hn hold

/-- The outcome of an allocation as a filled hole. -/
theorem AllocMapped.filled {perm : ℕ} {contents : (ℕ → Page) → Page} {r : Option ℕ}
    (hm : AllocMapped root vpn perm contents s r s') (hperm : perm < 1024) (hnone : leaf s.mem root vpn = none)
    (hallowed : ∀ m ∈ s.freelist, allowed vpn perm (contents (update s.mem m (filled 5)))) :
    Filled root allowed s s' := by
  cases r with
  | none => exact Filled.of_same hm.quiet (hm.failed rfl).1
  | some m =>
    obtain ⟨hmfree, hleaf, hmem, -, -⟩ := hm.mapped m rfl
    exact Filled.of_update hm.quiet hnone hmfree hperm hleaf (hmem ▸ hallowed m hmfree)

/-- A resolved fault fills one hole. -/
theorem Faulted.filled {perm m : ℕ} {page : Page} (hf : Faulted root vpn perm page s s' m) (hperm : perm < 1024)
    (hallowed : allowed vpn perm page) : Filled root allowed s s' :=
  Filled.of_update hf.quiet hf.unmapped hf.free hperm hf.leaf_eq (hf.contents ▸ hallowed)

end Filled

/-- Leaves have been added and user pages have been written: the old leaves are still there. -/
structure LeafGrowth (root : ℕ) (allowed : ℕ → ℕ → Prop) (s s' : Phys) : Prop where
  step : SpaceStep root s s'
  old : ∀ vpn w, leaf s.mem root vpn = some w → leaf s'.mem root vpn = some w
  new : ∀ vpn w, leaf s.mem root vpn = none → leaf s'.mem root vpn = some w →
    ∃ m perm, PageAddress m ∧ perm < 1024 ∧ w = mkPte m perm ∧ allowed vpn perm
  exhausted : s.exhausted = true → s'.exhausted = true

section LeafGrowth

variable {root tf : ℕ} {allowed : ℕ → ℕ → Prop} {s s' s'' : Phys}

theorem LeafGrowth.refl (h : SpaceIn s root) : LeafGrowth root allowed s s where
  step := SpaceStep.refl h
  old _ _ hw := hw
  new vpn w hn hw := by
    exact none_elim hn hw
  exhausted := id

theorem LeafGrowth.trans (h : LeafGrowth root allowed s s') (h' : LeafGrowth root allowed s' s'') :
    LeafGrowth root allowed s s'' where
  step := h.step.trans h'.step
  old vpn w hw := h'.old vpn w (h.old vpn w hw)
  new vpn w hn hw := by
    cases hmid : leaf s'.mem root vpn with
    | none => exact h'.new vpn w hmid hw
    | some w' =>
      have hsame := h'.old vpn w' hmid
      rw [hw] at hsame
      exact Option.some.inj hsame ▸ h.new vpn w' hn hmid
  exhausted hex := h'.exhausted (h.exhausted hex)

theorem LeafGrowth.mono {allowed' : ℕ → ℕ → Prop} (h : LeafGrowth root allowed s s')
    (hle : ∀ vpn perm, allowed vpn perm → allowed' vpn perm) : LeafGrowth root allowed' s s' where
  step := h.step
  old := h.old
  new vpn w hn hw := by
    obtain ⟨m, perm, hm, hperm, hw', ha⟩ := h.new vpn w hn hw
    exact ⟨m, perm, hm, hperm, hw', hle _ _ ha⟩
  exhausted := h.exhausted

/-- Filling holes adds leaves. -/
theorem Filled.leafGrowth {filling : ℕ → ℕ → Page → Prop} (hin : SpaceIn s root) (h : Filled root filling s s')
    (hle : ∀ vpn perm page, filling vpn perm page → allowed vpn perm) : LeafGrowth root allowed s s' where
  step := h.quiet.step
  old := h.old
  new vpn w hn hw := by
    obtain ⟨m, perm, hm, hperm, hw', ha⟩ := h.new vpn w hn hw
    exact ⟨m, perm, hin.free.valid m hm, hperm, hw', hle _ _ _ ha⟩
  exhausted := h.quiet.exhausted

/-- Writing a mapped page adds no leaf. -/
theorem leafGrowth_write (h : SpaceIn s root) (hw : leaf s.mem root vpn = some w)
    (hpage : PageAddress (PTE2PA w)) (page : Page) : LeafGrowth root allowed s (s.setPage (PTE2PA w) page) := by
  obtain ⟨ht, -⟩ := h.mapped_out hw
  have hsame : ∀ t ∈ tables s.mem root, (s.setPage (PTE2PA w) page).mem t = s.mem t := by
    intro t htable
    have hne : t ≠ PTE2PA w := fun heq => ht (heq ▸ htable)
    exact setPage_mem_of_ne s hne page
  have hreach := reach_three_congr hsame
  refine ⟨⟨⟨h.space.congr hsame, h.free, ?_⟩, ?_, ?_⟩, ?_, ?_, id⟩
  · intro x hx
    rw [hreach]
    exact h.apart x hx
  · ext x
    rw [resources, resources, Set.mem_ofPred_eq, Set.mem_ofPred_eq, hreach]
    rfl
  · intro x hx
    refine setPage_mem_of_ne s ?_ page
    rintro rfl
    exact hx ⟨hpage, .inl (mem_reach_three.2 (.inr ⟨vpn, w, hw, rfl⟩))⟩
  · intro v w' hw'
    rw [leaf_congr hsame, hw']
  · intro v w' hn hw'
    rw [leaf_congr hsame, hn] at hw'
    cases hw'

/-- Adding leaves keeps the address space of a process. -/
theorem LeafGrowth.procSpace (hg : LeafGrowth root allowed s s') (h : ProcSpace s root tf) :
    ProcSpace s' root tf where
  within := hg.step.after
  tramp := hg.old _ _ h.tramp
  tfLeaf := hg.old _ _ h.tfLeaf
  tfPage := h.tfPage

end LeafGrowth

section Blocked

variable {root va perm : ℕ} {s : Phys} {contents : (ℕ → Page) → Page}

omit [KernelImage] in
/-- A page that is mapped already cannot be mapped again. -/
theorem mappages_remap {pa : ℕ} (hva : va % 4096 = 0) (hmax : va < MAXVA)
    (hw : leaf s.mem root (va / 4096) = some w) : mappages root va PGSIZE pa perm s = .error .mappagesRemap := by
  have hvpn : va / 4096 < 2 ^ 27 := by
    have : va < 2 ^ 38 := hmax
    omega
  rw [leaf_of_lt hvpn] at hw
  obtain ⟨t, ht, hvalid⟩ := Option.bind_eq_some_iff.1 hw
  have hflag : hasFlag (pteAt s.mem t (PX 0 va)) PTE_V = true := by
    rw [PX_zero_eq]
    by_contra hv
    rw [validPte, if_neg hv] at hvalid
    cases hvalid
  rw [mappages, if_neg (not_not.2 hva), if_neg (by decide), if_neg (by decide)]
  change mappagesLoop root perm (0 + 1) va pa s = _
  rw [mappagesLoop, bind_run, walk_found hmax true ht]
  change (readPte ⟨t, PX 0 va⟩ >>= fun w => _ : VmM ℤ) s = _
  rw [bind_run]
  change (if hasFlag (pteAt s.mem t (PX 0 va)) PTE_V then _ else _ : VmM ℤ) s = _
  rw [if_pos hflag]
  rfl

omit [KernelImage] in
/-- Beyond the last address nothing can be mapped. -/
theorem mappages_beyond {pa : ℕ} (hva : va % 4096 = 0) (hmax : MAXVA ≤ va) :
    mappages root va PGSIZE pa perm s = .error .walk := by
  rw [mappages, if_neg (not_not.2 hva), if_neg (by decide), if_neg (by decide)]
  change mappagesLoop root perm (0 + 1) va pa s = _
  rw [mappagesLoop]
  exact bind_error (walk_panic hmax root true s)

/-- Mapping a page where none can be mapped: there is no memory for it, or the kernel panics. -/
theorem allocMap_blocked (h : SpaceIn s root) (hva : va % 4096 = 0)
    (hblocked : MAXVA ≤ va ∨ leaf s.mem root (va / 4096) ≠ none) :
    Yields (allocMap root va perm contents) s
      (fun r s' => r = none ∧ s' = { s with exhausted := true } ∧ s.freelist = [])
      (fun e => va < MAXVA → e = .mappagesRemap) := by
  rw [allocMap, yields_bind]
  cases hl : s.freelist with
  | nil =>
    have hrun : Ensures kalloc s fun r s' => r = none ∧ s' = ⟨s.mem, [], true⟩ := by
      refine kalloc_spec (fun hnil => ⟨rfl, by rw [hnil]⟩) ?_
      intro r rest hcons
      rw [hl] at hcons
      cases hcons
    apply Ensures.yields
    refine hrun.mono ?_
    rintro _ s' ⟨rfl, rfl⟩
    exact (yields_pure _ _ _ _).2 ⟨rfl, rfl, rfl⟩
  | cons n rest =>
    have hrun : Ensures kalloc s fun r s' => r = some n ∧ s' = s.take n rest (filled 5) := by
      refine kalloc_spec ?_ ?_
      · intro hnil
        rw [hl] at hnil
        cases hnil
      · intro r rest' hcons
        rw [hl] at hcons
        obtain ⟨rfl, rfl⟩ := List.cons.inj hcons
        exact ⟨rfl, rfl⟩
    apply Ensures.yields
    refine hrun.mono ?_
    rintro _ s' ⟨rfl, rfl⟩
    rw [yields_bind, yields_modify, yields_bind]
    have hsame := take_same h hl (contents (s.take n rest (filled 5)).mem)
    have herror : ∃ e, mappages root va PGSIZE n perm
        ((s.take n rest (filled 5)).setPage n (contents (s.take n rest (filled 5)).mem)) = .error e ∧
          (va < MAXVA → e = .mappagesRemap) := by
      by_cases hmax : MAXVA ≤ va
      · exact ⟨_, mappages_beyond hva hmax, fun hlt => absurd hlt (not_lt.2 hmax)⟩
      · have hleaf := hblocked.resolve_left hmax
        obtain ⟨w, hw⟩ := Option.ne_none_iff_exists'.1 hleaf
        refine ⟨_, mappages_remap (w := w) hva (not_le.1 hmax) ?_, fun _ => rfl⟩
        rw [← hw, ← leaf_congr hsame, Phys.setPage, Phys.take, Phys.take, update_idem]
    obtain ⟨e, he, hreason⟩ := herror
    exact yields_of_error he hreason

end Blocked

end Xv6.Vm
