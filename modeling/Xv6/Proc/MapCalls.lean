import Xv6.Proc.Guarded

/-!
# What `mapzero` and `map_ro` do for every argument

`mapzero` narrows the rounded length of its region to 32 bits, and the page-fault handler and `freeproc`
widen it again. `map_ro` takes its address unchecked from the user. Both calls do what they should for all
arguments but the extreme ones: a size within a page of `2 ^ 31`, an address in the first page, and an
address that no page table covers.
-/

namespace Xv6

open Library Vm

section Region

variable [KernelImage]

/-- The region that `mapzero` has recorded is what it has added to the process: the page-fault handler
accepts its addresses, and `freeproc` visits its pages, one after the other. -/
structure RegionExact (p p' : Proc) (size : ℕ) : Prop where
  start : p'.vr.start = p.sz
  limit : p'.vr.limit = p'.sz
  length : p'.sz = p.sz + PGROUNDUP size
  nonneg : 0 ≤ p'.vr.size
  aligned : p'.vr.size % PGSIZE = 0
  handler : ∀ va, p'.InRegion va ↔ p.sz ≤ va ∧ va < p'.sz
  loop : freeRegion p' = freeRegionLoop p'.pagetable ((p'.sz - p.sz) / PGSIZE) p.sz

/-- The region of `mapzero` is exact for the sizes whose pages 32 bits can hold. -/
theorem mapzero_region_iff (p : Proc) (size : BitVec 32) (hsz : p.sz ≤ TRAPFRAME) (hpos : 0 < size.toInt) :
    RegionExact p (sysMapzero p size.toInt).2 size.toNat ↔ size.toNat ≤ 2 ^ 31 - PGSIZE := by
  have hle : p.sz ≤ 2 ^ 38 - 4096 - 4096 := hsz
  obtain ⟨hnat, hlt⟩ : size.toInt.natAbs = size.toNat ∧ size.toNat < 2 ^ 31 := by
    rw [BitVec.toInt_eq_toNat_cond] at hpos ⊢
    split_ifs at hpos ⊢ <;> omega
  have hround : PGROUNDUP size.toNat = pageCount size.toNat * 4096 := PGROUNDUP_eq (by omega)
  have hcount : pageCount size.toNat ≤ 2 ^ 19 ∧
      (pageCount size.toNat < 2 ^ 19 ↔ size.toNat ≤ 2 ^ 31 - 4096) := by
    rw [pageCount]
    omega
  have hcall : (sysMapzero p size.toInt).2 = { p with
      vr := ⟨p.sz, toInt32 (pageCount size.toNat * 4096), true⟩
      sz := p.sz + pageCount size.toNat * 4096 } := by
    have hmod : (p.sz + pageCount size.toNat * 4096) % UINT64 = p.sz + pageCount size.toNat * 4096 :=
      Nat.mod_eq_of_lt (show _ < 2 ^ 64 by omega)
    rw [sysMapzero, if_neg (not_le.2 hpos), PGROUNDUP_toUInt64 hpos (by omega), hnat]
    simp only [hmod]
  have hlimit := limit_mapzero hsz hcount.1
  have hiff : size.toNat ≤ 2 ^ 31 - PGSIZE ↔ pageCount size.toNat < 2 ^ 19 := hcount.2.symm
  rw [hcall, hiff]
  generalize pageCount size.toNat = n at hround hcount hlimit
  constructor
  · intro h
    have hend := h.limit
    simp only [hlimit] at hend
    split_ifs at hend <;> omega
  · intro hn
    rw [if_pos hn] at hlimit
    have hwide := toUInt64_toInt32 (show n * 4096 < 2 ^ 31 by omega)
    have hsize : toInt32 (n * 4096) = (n * 4096 : ℕ) := by
      rw [toInt32, BitVec.toInt_eq_toNat_cond, BitVec.toNat_ofNat]
      omega
    refine ⟨rfl, hlimit, by rw [hround], ?_, ?_, ?_, ?_⟩
    · simp only [hsize]
      omega
    · simp only [hsize]
      change ((n * 4096 : ℕ) : ℤ) % (4096 : ℕ) = 0
      omega
    · intro va
      simp [Proc.InRegion, hlimit]
    · have hpages : pagesTo p.sz (p.sz + n * 4096) = (p.sz + n * 4096 - p.sz) / PGSIZE := by
        change ((p.sz + n * 4096) % 2 ^ 64 - p.sz + 4095) / 4096 = (p.sz + n * 4096 - p.sz) / 4096
        omega
      simp [freeRegion, hwide, hpages]

end Region

section Concrete

attribute [local instance] linkedImage

/-- A region of two pages. -/
theorem mapzero_region_two_pages : RegionExact Proc.empty (sysMapzero Proc.empty 5000).2 5000 :=
  (mapzero_region_iff Proc.empty 5000 (by decide) (by decide)).2 (by decide)

/-- The length of the longest region turns negative, and the page-fault handler accepts addresses far above
the process. -/
theorem mapzero_longest_region :
    (sysMapzero Proc.empty 0x7FFFFFFF).2.vr.size = -2 ^ 31 ∧
    (sysMapzero Proc.empty 0x7FFFFFFF).2.sz = 2 ^ 31 ∧
    (sysMapzero Proc.empty 0x7FFFFFFF).2.InRegion (2 ^ 38) := by
  decide

end Concrete

section MapRo

variable [KernelImage]

/-- `map_ro` has mapped a fresh page at the page of an address, for the user to read, and has recorded it
for `freeproc`. -/
structure MapRoAdded (p : Proc) (va : ℕ) (s : Phys) (r : ℕ × Proc) (s' : Phys) (page w : ℕ) : Prop where
  result : r = (0, { p with mapRoVa := PGROUNDDOWN va })
  recorded : r.2.mapRoVa ≠ 0
  fresh : page ∈ s.freelist ∧ page ∉ s'.freelist
  before : leaf s.mem p.pagetable (va / PGSIZE) = none
  added : ∀ v, leaf s'.mem p.pagetable v = Function.update (leaf s.mem p.pagetable) (va / PGSIZE) (some w) v
  entry : PTE2PA w = page ∧ PTE_FLAGS w = PTE_V ||| PTE_R ||| PTE_U

/-- `map_ro` has refused: the leaves, the record and the data pages are as before; pages may have become
tables. -/
structure MapRoRefused (p : Proc) (s : Phys) (r : ℕ × Proc) (s' : Phys) : Prop where
  result : r = (minusOne, p)
  leaves : ∀ v, leaf s'.mem p.pagetable v = leaf s.mem p.pagetable v
  data : ∀ x, x ∉ tables s.mem p.pagetable → x ∉ s.freelist → s'.mem x = s.mem x
  free : ∀ x, x ∈ s.freelist ↔ x ∈ s'.freelist ∨ x ∈ s.freelist ∧ x ∈ tables s'.mem p.pagetable

/-- What `map_ro` should do. -/
def MapRoSound (p : Proc) (va : ℕ) (s : Phys) : Prop :=
  Ensures (sysMapRo p va) s fun r s' => (∃ page w, MapRoAdded p va s r s' page w) ∨ MapRoRefused p s r s'

variable {p : Proc} {s s' : Phys} {va : ℕ}

/-- An allocation that failed has only made tables. -/
theorem mapRoRefused_of_failed (h : p.Ok s) (hq : Quiet p.pagetable s s')
    (hleaf : ∀ v, leaf s'.mem p.pagetable v = leaf s.mem p.pagetable v) : MapRoRefused p s (minusOne, p) s' :=
  ⟨rfl, hleaf, hq.same, hq.free_iff_of_eq h.space.within hleaf⟩

/-- A page is mapped at the page of the address, or there are no free pages for it and its tables. -/
def Proc.MapRoBlocked (p : Proc) (va : ℕ) (s : Phys) : Prop :=
  leaf s.mem p.pagetable (va / PGSIZE) ≠ none ∨
    s.freelist.length ≤ missing s.mem (va / PGSIZE * PGSIZE) 2 p.pagetable

/-- `map_ro` at an address that a page table covers. -/
theorem sysMapRo_spec (h : p.Ok s) (hva : va < MAXVA) :
    Ensures (sysMapRo p va) s fun r s' => p.MapRoBlocked va s ∧ MapRoRefused p s r s' ∨
      ¬ p.MapRoBlocked va s ∧ r = (0, { p with mapRoVa := PGROUNDDOWN va }) ∧
        (r.2.mapRoVa ≠ 0 → ∃ page w, MapRoAdded p va s r s' page w) := by
  obtain ⟨haligned, hdiv⟩ := PGROUNDDOWN_facts va
  have hmax : PGROUNDDOWN va < MAXVA := (Nat.div_mul_le_self va 4096).trans_lt hva
  rw [sysMapRo, ensures_bind]
  refine (ismapped_translation p.pagetable s hmax).mono ?_
  intro b s₁ hb
  obtain ⟨rfl, hb⟩ := hb
  rw [translation_eq, Option.isSome_map, hdiv] at hb
  cases hw : leaf s₁.mem p.pagetable (va / 4096) with
  | some w =>
    rw [hb, hw, Option.isSome_some, if_pos rfl, ensures_pure]
    have hblocked : p.MapRoBlocked va s₁ := .inl (hw ▸ Option.some_ne_none w)
    exact .inl ⟨hblocked, mapRoRefused_of_failed h (.refl h.space.within) fun _ => rfl⟩
  | none =>
    rw [hb, hw, Option.isSome_none, if_neg Bool.false_ne_true, ensures_bind]
    refine (allocMap_outcome h.space.within haligned hmax (hdiv.symm ▸ hw) (by decide)).mono ?_
    intro r s' ho
    rw [hdiv] at ho
    have hm := ho.allocMapped h.space.within hw (by decide) (by decide)
    have hblocked : p.MapRoBlocked va s₁ ↔ r = none := (or_iff_right (not_not_intro hw)).trans ho.none_iff.symm
    cases r with
    | none =>
      exact (ensures_pure ..).2 (.inl ⟨hblocked.2 rfl, mapRoRefused_of_failed h hm.quiet (hm.failed rfl).1⟩)
    | some page =>
      obtain ⟨hfree, hleaf, -⟩ := hm.mapped page rfl
      have hpage := h.space.within.free.valid page hfree
      have hentry : PTE2PA (mkPte page (PTE_R ||| PTE_U)) = page := PTE2PA_mkPte hpage.1 hpage.lt_two_pow (by decide)
      have hmapped : leaf s'.mem p.pagetable (va / 4096) = some (mkPte page (PTE_R ||| PTE_U)) := by
        rw [hleaf, Function.update_self]
      have hnot := (hm.quiet.step.after.mapped_out hmapped).2
      rw [hentry] at hnot
      refine (ensures_pure ..).2 (.inr ⟨fun hb => Option.some_ne_none page (hblocked.1 hb), rfl, fun hne =>
        ⟨page, _, rfl, hne, ⟨hfree, hnot⟩, hw, hleaf, hentry, ?_⟩⟩)
      rw [PTE_FLAGS_mkPte (by decide)]
      rfl

/-- Beyond the last address `map_ro` panics. -/
theorem sysMapRo_panics (hva : MAXVA ≤ va) : sysMapRo p va s = .error .walk := by
  have hmax : MAXVA ≤ PGROUNDDOWN va := by
    change 2 ^ 38 ≤ va / 4096 * 4096
    have hle : 2 ^ 38 ≤ va := hva
    omega
  rw [sysMapRo]
  exact bind_error (by rw [ismapped]; exact bind_error (walk_panic hmax _ _ _))

/-- After every run of guarded moves, `map_ro` does what it should exactly if a page table can cover the
address, and the call cannot map a page at address zero, which the record takes for none: the first page is
mapped, or there is no memory. -/
theorem map_ro_after_run {k₀ k : Kernel} {events : List Event} {i : Fin NPROC} (hboot : k₀.Boot)
    (hrun : Run Kernel.Guarded k₀ events k) (hi : (k.proc i).state = .runnable) (va : BitVec 64) :
    MapRoSound (k.proc i) va.toNat k.phys ↔
      va.toNat < MAXVA ∧ (va.toNat < PGSIZE → (k.proc i).MapRoBlocked va.toNat k.phys) := by
  have hlive : (k.proc i).Live := .of_runnable hi
  have hok := ((hboot.invariant.of_run hrun).layout.slot i hlive).ok
  have hzero : va.toNat < PGSIZE ↔ PGROUNDDOWN va.toNat = 0 := by
    change va.toNat < 4096 ↔ va.toNat / 4096 * 4096 = 0
    omega
  rw [hzero]
  constructor
  · rintro ⟨r, s', hcall, hsound⟩
    have hva : va.toNat < MAXVA := by
      by_contra hge
      rw [sysMapRo_panics (not_lt.1 hge)] at hcall
      cases hcall
    refine ⟨hva, fun hlow => ?_⟩
    obtain ⟨r', s'', hcall', ⟨hblocked, -⟩ | ⟨-, hr, -⟩⟩ := sysMapRo_spec hok hva
    · exact hblocked
    · -- the call has mapped the first page and recorded nothing
      rw [hcall] at hcall'
      obtain ⟨rfl, rfl⟩ := Prod.mk.inj (Except.ok.inj hcall')
      obtain ⟨page, w, hadded⟩ | hrefused := hsound
      · rw [hr] at hadded
        exact absurd hlow hadded.recorded
      · rw [hr] at hrefused
        have hzero : 0 = minusOne := congrArg Prod.fst hrefused.result
        exact absurd hzero (by decide)
  · rintro ⟨hva, hblocked⟩
    obtain ⟨r, s', hcall, ⟨-, hrefused⟩ | ⟨hnot, hr, hadded⟩⟩ := sysMapRo_spec hok hva
    · exact ⟨r, s', hcall, .inr hrefused⟩
    · refine ⟨r, s', hcall, .inl (hadded fun hnone => hnot (hblocked ?_))⟩
      rwa [hr] at hnone

end MapRo

section Concrete

attribute [local instance] linkedImage

/-- A page above the heap. -/
theorem map_ro_after_run_page : MapRoSound ((bootKernel 40).proc 0) 0x5123 (bootKernel 40).phys :=
  (map_ro_after_run bootKernel_forty.1 Run.nil (by decide +kernel) 0x5123).2
    ⟨by decide, fun hlow => absurd hlow (by decide)⟩

/-- An address beyond the last one makes the kernel panic. -/
theorem map_ro_unchecked : ∃ events k, (bootKernel 40).Boot ∧ Run Kernel.Guarded (bootKernel 40) events k ∧
    events.map (fun e => (e.proc, e.op)) = startedOps 0 ∧
    (k.proc 0).state = .runnable ∧ sysMapRo (k.proc 0) (2 ^ 38) k.phys = .error .walk := by
  obtain ⟨events, k, hrun, hops, ⟨hstate, -⟩, -⟩ := exists_started
  exact ⟨events, k, bootKernel_forty.1, hrun, hops, hstate, sysMapRo_panics (by decide)⟩

end Concrete

end Xv6
