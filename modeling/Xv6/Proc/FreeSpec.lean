import Xv6.Proc.AccessSpec
import Xv6.Vm.DropSpec

/-!
# Freeing a process

`freeproc` frees the trapframe, the page of `map_ro`, the pages of the region, the pages below the
size, and at last the tables. It completes exactly when these parts cover all leaves of the process,
and then it has put every page of the process on the free list once.
-/

namespace Xv6

open Kernel Library List Vm

variable [KernelImage]

section FreePagetable

variable {root sz : ℕ} {s s₁ : Phys} {gone release : Set ℕ} {freed : List ℕ}

omit [KernelImage] in
/-- The pages that are freed, named in another way. -/
theorem Vm.Freed.congr {pages pages' : Set ℕ} {s' : Phys} (h : Freed pages s s' freed)
    (heq : ∀ x, x ∈ pages ↔ x ∈ pages') : Freed pages' s s' freed := by
  have : pages = pages' := Set.ext heq
  rwa [← this]

section

variable (hs : Space s.mem root) (hsub : release ⊆ gone) (h : Dropped root s s₁ gone release freed)
  (hsz : sz ≤ TRAPFRAME) (hlow : LowPages s.mem root)

include hs hsub h hsz hlow

/-- `uvmfree` removes the leaves below the size and then the tables. -/
theorem uvmfree_dropped :
    Yields (uvmfree root sz) s₁
      (fun _ s' => (∀ v w, leaf s.mem root v = some w → v ∈ gone ∨ v < pageCount sz) ∧
        ∃ freed', Freed (tables s.mem root ∪
          leafPagesIn s.mem root (release ∪ {v | v < pageCount sz ∧ v ∉ gone})) s s' freed')
      (fun e => e = .freewalkLeaf ∧
        ∃ v w, leaf s.mem root v = some w ∧ v ∉ gone ∧ ¬ v < pageCount sz) := by
  have hcount : pageCount sz ≤ 67108862 := pageCount_le hsz
  have hcall : uvmfree root sz = (if 0 < sz then uvmunmap root 0 (PGROUNDUP sz / PGSIZE) true else pure ()) >>=
      fun _ => freewalk 2 root := by
    rw [uvmfree]
    split_ifs
    · rfl
    · rw [pure_bind]
  have hunmap : Ensures (if 0 < sz then uvmunmap root 0 (PGROUNDUP sz / PGSIZE) true else pure ()) s₁
      fun _ s₂ => ∃ freed₂, Dropped root s₁ s₂ {v | v < pageCount sz} {v | v < pageCount sz} freed₂ := by
    split_ifs with hpos
    · have hpages : PGROUNDUP sz / PGSIZE = pageCount sz := by
        rw [PGROUNDUP_eq (hsz.trans (by decide))]
        exact Nat.mul_div_cancel _ (by decide)
      have hrange : pageRange (0 / 4096) (pageCount sz) = {v | v < pageCount sz} := by
        ext v
        rw [mem_pageRange]
        change _ ↔ v < pageCount sz
        omega
      rw [hpages, ← hrange]
      refine uvmunmap_dropped 0 (pageCount sz) true h.space (by decide) ?_ ?_
      · change 0 + pageCount sz * 4096 ≤ 2 ^ 38
        omega
      · intro _ v hv w hw
        rw [mem_pageRange] at hv
        exact h.lowPages hlow v w (show v < 67108862 by omega) hw
    · rw [ensures_pure]
      refine ⟨[], Dropped.refl h.space (fun v hv => ?_) (le_refl _)⟩
      have hv : v * 4096 < sz := lt_pageCount_iff.1 hv
      omega
  rw [hcall, yields_bind]
  apply Ensures.yields
  refine hunmap.mono ?_
  rintro _ s₂ ⟨freed₂, h₂⟩
  refine (freewalk_dropped hs (h.trans hs hsub h₂)).mono (fun _ _ hfreed => hfreed) ?_
  rintro e ⟨rfl, v, w, hw, hv⟩
  rw [Set.mem_union, not_or] at hv
  exact ⟨rfl, v, w, hw, hv⟩

/-- `proc_freepagetable` also removes the two highest leaves, without freeing their pages. -/
theorem procFreepagetable_dropped :
    Yields (procFreepagetable root sz) s₁
      (fun _ s' => (∀ v w, leaf s.mem root v = some w → v < tfVpn → v ∈ gone ∨ v < pageCount sz) ∧
        ∃ freed', Freed (tables s.mem root ∪
          leafPagesIn s.mem root (release ∪ {v | v < pageCount sz ∧ v ∉ gone})) s s' freed')
      (fun e => e = .freewalkLeaf ∧
        ∃ v w, leaf s.mem root v = some w ∧ v < tfVpn ∧ v ∉ gone ∧ ¬ v < pageCount sz) := by
  rw [procFreepagetable, yields_bind]
  apply Ensures.yields
  refine (uvmunmap_dropped TRAMPOLINE 1 false h.space (by decide) (by decide) nofun).mono ?_
  rintro _ s₂ ⟨freed₂, h₂⟩
  have hd₂ := h.trans hs hsub h₂
  rw [if_neg Bool.false_ne_true, Set.empty_sdiff, Set.union_empty] at hd₂
  rw [yields_bind]
  apply Ensures.yields
  refine (uvmunmap_dropped TRAPFRAME 1 false hd₂.space (by decide) (by decide) nofun).mono ?_
  rintro _ s₃ ⟨freed₃, h₃⟩
  have hsub₂ := hsub.trans (Set.subset_union_left (t := pageRange (TRAMPOLINE / 4096) 1))
  have hd₃ := hd₂.trans hs hsub₂ h₃
  rw [if_neg Bool.false_ne_true, Set.empty_sdiff, Set.union_empty] at hd₃
  have hgone : ∀ v, v ∈ gone ∪ pageRange (TRAMPOLINE / 4096) 1 ∪ pageRange (TRAPFRAME / 4096) 1 ↔
      v ∈ gone ∨ v = tfVpn ∨ v = trampVpn := by
    intro v
    rw [Set.mem_union, Set.mem_union, mem_pageRange, mem_pageRange, or_assoc]
    change _ ∨ (67108863 ≤ v ∧ v < 67108863 + 1) ∨ (67108862 ≤ v ∧ v < 67108862 + 1) ↔
      _ ∨ v = 67108862 ∨ v = 67108863
    exact or_congr_right (by omega)
  have hhigh : ∀ v, v < tfVpn → ¬ (v = tfVpn ∨ v = trampVpn) := by
    rintro v hv (rfl | rfl)
    · exact absurd hv (by decide)
    · exact absurd hv (by decide)
  refine (uvmfree_dropped hs (hsub₂.trans Set.subset_union_left) hd₃ hsz hlow).mono ?_ ?_
  · rintro _ s' ⟨hall, freed', hfreed⟩
    refine ⟨fun v w hw hv => ?_, freed', ?_⟩
    · exact (hall v w hw).imp_left fun hg => ((hgone v).1 hg).resolve_right (hhigh v hv)
    · have hset : {v | v < pageCount sz ∧ v ∉ gone ∪ pageRange (TRAMPOLINE / 4096) 1 ∪
          pageRange (TRAPFRAME / 4096) 1} = {v | v < pageCount sz ∧ v ∉ gone} := by
        ext v
        refine and_congr_right fun hv => not_congr ((hgone v).trans (or_iff_left (hhigh v ?_)))
        exact lt_of_lt_of_le hv (pageCount_le hsz)
      rwa [hset] at hfreed
  · rintro e ⟨rfl, v, w, hw, hv, hlt⟩
    rw [hgone, not_or] at hv
    exact ⟨rfl, v, w, hw, (hs.leaf_cases hw).resolve_right hv.2, hv.1, hlt⟩

end

end FreePagetable

section FreeRegion

variable {root : ℕ} {s : Phys}

omit [KernelImage] in
theorem pageRange_succ (base n : ℕ) : pageRange base 1 ∪ pageRange (base + 1) n = pageRange base (n + 1) := by
  ext v
  rw [Set.mem_union, mem_pageRange, mem_pageRange, mem_pageRange]
  omega

/-- One page of the region. -/
theorem freeRegionPage_dropped {a : ℕ} (hs : Space s.mem root) (hmax : a < TRAPFRAME)
    (htramp : LowPages s.mem root) :
    Yields (freeRegionPage root a) s
      (fun _ s' => ∃ freed,
        Dropped root s s' (pageRange (a / 4096) 1) (pageRange (a / 4096) 1) freed)
      (fun _ => a % 4096 ≠ 0) := by
  have hlow : a < 2 ^ 38 - 4096 - 4096 := hmax
  have hva : a < MAXVA := by
    change a < 2 ^ 38
    omega
  have hvpn : a / 4096 < 2 ^ 27 := by omega
  have hone : ∀ v, v ∈ pageRange (a / 4096) 1 ↔ v = a / 4096 := by
    intro v
    rw [mem_pageRange]
    omega
  have hunmapped : leaf s.mem root (a / 4096) = none → ∃ freed,
      Dropped root s s (pageRange (a / 4096) 1) (pageRange (a / 4096) 1) freed := by
    intro hnone
    refine ⟨[], Dropped.refl hs ?_ (le_refl _)⟩
    intro v hv
    rw [(hone v).1 hv, hnone]
  rw [freeRegionPage, yields_bind]
  apply Ensures.yields
  rw [ensures_walk_false hva]
  cases ht : leafTable s.mem root (a / 4096) with
  | none =>
    apply (yields_pure _ _ _ _).2
    apply hunmapped
    rw [leaf_of_lt hvpn, ht]
    rfl
  | some t =>
    change Yields (readPte _ >>= _) s _ _
    rw [yields_bind]
    apply Ensures.yields
    rw [ensures_readPte, PX_zero_eq]
    cases hv : hasFlag (pteAt s.mem t (a / 4096 % 512)) PTE_V with
    | false =>
      rw [if_neg Bool.false_ne_true]
      apply (yields_pure _ _ _ _).2
      apply hunmapped
      rw [leaf_of_lt hvpn, ht, Option.bind_some, validPte, hv]
      rfl
    | true =>
      rw [if_pos rfl]
      by_cases haligned : a % 4096 = 0
      · apply Ensures.yields
        refine (uvmunmap_dropped a 1 true hs haligned ?_ ?_).mono fun _ s' h => h
        · change a + 1 * 4096 ≤ 2 ^ 38
          omega
        · intro _ v hv w hw
          rw [hone] at hv
          exact htramp v w (show v < 67108862 by omega) hw
      · have herror : uvmunmap root a 1 true s = .error .uvmunmapNotAligned := by
          rw [uvmunmap, if_pos haligned]
          rfl
        exact yields_of_error herror haligned

/-- The pages of a region. -/
theorem freeRegionLoop_dropped (n a : ℕ) (s : Phys) (hs : Space s.mem root)
    (hmax : ∀ j < n, a + j * 4096 < TRAPFRAME) (htramp : LowPages s.mem root) :
    Yields (freeRegionLoop root n a) s
      (fun _ s' => ∃ freed,
        Dropped root s s' (pageRange (a / 4096) n) (pageRange (a / 4096) n) freed)
      (fun _ => a % 4096 ≠ 0) := by
  induction n generalizing a s with
  | zero =>
    apply (yields_pure _ _ _ _).2
    refine ⟨[], Dropped.refl hs ?_ (le_refl _)⟩
    intro v hv
    rw [mem_pageRange] at hv
    omega
  | succ n ih =>
    have hfirst := hmax 0 (Nat.succ_pos n)
    rw [Nat.zero_mul, Nat.add_zero] at hfirst
    rw [freeRegionLoop, yields_bind]
    refine (freeRegionPage_dropped hs hfirst htramp).mono ?_ fun _ he => he
    intro _ s₁ h₁
    obtain ⟨freed₁, h₁⟩ := h₁
    have hmax' : ∀ j < n, a + PGSIZE + j * 4096 < TRAPFRAME := by
      intro j hj
      have hlt : a + (j + 1) * 4096 < TRAPFRAME := hmax (j + 1) (by omega)
      have heq : a + PGSIZE + j * 4096 = a + (j + 1) * 4096 := by
        change a + 4096 + j * 4096 = _
        ring
      rwa [heq]
    refine (ih (a + PGSIZE) s₁ h₁.space hmax' (h₁.lowPages htramp)).mono ?_ ?_
    · intro _ s' h'
      obtain ⟨freed', h'⟩ := h'
      have hdiv : (a + PGSIZE) / 4096 = a / 4096 + 1 := Nat.add_div_right a (by decide)
      rw [hdiv] at h'
      have htrans := h₁.trans hs (le_refl _) h'
      rw [Set.union_sdiff_self, pageRange_succ] at htrans
      exact ⟨_, htrans⟩
    · intro e he
      have hmod : (a + PGSIZE) % 4096 = a % 4096 := Nat.add_mod_right a 4096
      rwa [hmod] at he

/-- The page numbers that `freeproc` visits for the region of a process. -/
def Proc.regionPages (p : Proc) : Set ℕ :=
  {v | p.vr.active = true ∧
    v ∈ pageRange (p.vr.start / 4096) (pagesTo p.vr.start (p.vr.start + toUInt64 p.vr.size))}

/-- The region of a process. -/
theorem freeRegion_dropped {p : Proc} (hs : Space s.mem p.pagetable)
    (hlimit : p.vr.active = true → p.vr.limit ≤ TRAPFRAME) (htramp : LowPages s.mem p.pagetable) :
    Yields (freeRegion p) s
      (fun _ s' => ∃ freed, Dropped p.pagetable s s' p.regionPages p.regionPages freed)
      (fun _ => p.vr.active = true ∧ p.vr.start % 4096 ≠ 0) := by
  rw [freeRegion]
  by_cases hactive : p.vr.active = true
  · rw [if_pos hactive]
    have hset : p.regionPages = pageRange (p.vr.start / 4096)
        (pagesTo p.vr.start (p.vr.start + toUInt64 p.vr.size)) := by
      ext v
      exact and_iff_right hactive
    rw [hset]
    refine (freeRegionLoop_dropped _ _ s hs ?_ htramp).mono (fun _ _ h => h) fun _ he => ⟨hactive, he⟩
    intro j hj
    have hle : p.vr.limit ≤ 2 ^ 38 - 4096 - 4096 := hlimit hactive
    rw [pagesTo] at hj
    change j < (p.vr.limit - p.vr.start + 4095) / 4096 at hj
    change p.vr.start + j * 4096 < 2 ^ 38 - 4096 - 4096
    omega
  · rw [if_neg hactive]
    apply (yields_pure _ _ _ _).2
    refine ⟨[], Dropped.refl hs ?_ (le_refl _)⟩
    intro v hv
    exact absurd hv.1 hactive

/-- The record of `map_ro` is a page below the trapframe. -/
def Proc.MapRoOk (p : Proc) : Prop := p.mapRoVa % 4096 = 0 ∧ p.mapRoVa < TRAPFRAME

/-- The page number that `freeproc` visits for `map_ro`. -/
def Proc.mapRoPages (p : Proc) : Set ℕ := {v | p.mapRoVa ≠ 0 ∧ v = p.mapRoVa / 4096}

/-- The page of `map_ro`. -/
theorem freeMapRo_dropped {p : Proc} (hs : Space s.mem p.pagetable) (hro : p.MapRoOk)
    (htramp : LowPages s.mem p.pagetable) :
    Ensures (freeMapRo p) s fun _ s' =>
      ∃ freed, Dropped p.pagetable s s' p.mapRoPages p.mapRoPages freed := by
  rw [freeMapRo]
  by_cases hzero : p.mapRoVa ≠ 0
  · have hlt : p.mapRoVa < 2 ^ 38 - 4096 - 4096 := hro.2
    have hset : p.mapRoPages = pageRange (p.mapRoVa / 4096) 1 := by
      ext v
      rw [mem_pageRange]
      change _ ∧ _ ↔ _
      rw [and_iff_right hzero]
      omega
    rw [if_pos hzero, hset]
    refine (uvmunmap_dropped p.mapRoVa 1 true hs hro.1 ?_ ?_).mono fun _ _ h => h
    · change p.mapRoVa + 1 * 4096 ≤ 2 ^ 38
      omega
    · intro _ v hv w hw
      rw [mem_pageRange] at hv
      exact htramp v w (show v < 67108862 by omega) hw
  · rw [if_neg hzero]
    apply (ensures_pure _ _ _).2
    refine ⟨[], Dropped.refl hs ?_ (le_refl _)⟩
    intro v hv
    exact absurd hv.1 hzero

end FreeRegion

section FreeShared

variable {k : Kernel} {p : Proc}

/-- The process maps the shared page. -/
def Proc.Shares (p : Proc) : Prop := p.usarMemoriaCompartida = true ∧ p.shmVa ≠ 0

instance (p : Proc) : Decidable p.Shares := by
  unfold Proc.Shares
  infer_instance

/-- The page number at which a process maps the shared page. -/
def Proc.sharedPages (p : Proc) : Set ℕ := {v | p.Shares ∧ v = p.shmVa / 4096}

/-- A process that shares the page maps it where its record says. -/
structure Proc.ShareOk (p : Proc) (s : Phys) (page : ℕ) : Prop where
  aligned : p.shmVa % 4096 = 0
  below : p.shmVa < TRAPFRAME
  mapped : leaf s.mem p.pagetable (p.shmVa / 4096) = some (mkPte page (PTE_W ||| PTE_R ||| PTE_U))
  page : PageAddress page

/-- The kernel after a process has given up the shared page. -/
def Kernel.unshare (k : Kernel) (p : Proc) : Kernel :=
  if p.Shares then
    if k.refcount - 1 = 0 then { k with refcount := k.refcount - 1, sharedPage := 0 }
    else { k with refcount := k.refcount - 1 }
  else k

/-- The shared page is freed with this process. -/
def Kernel.LastShare (k : Kernel) (p : Proc) : Prop := p.Shares ∧ k.refcount - 1 = 0

/-- Freeing the page of a leaf that has just been removed. -/
theorem Vm.Dropped.free_page {root v w : ℕ} {s s₁ : Phys} {gone : Set ℕ} (hs : Space s.mem root)
    (h : Dropped root s s₁ gone ∅ []) (hgone : ∀ u, u ∈ gone ↔ u = v) (hw : leaf s.mem root v = some w) :
    Dropped root s (s₁.free (PTE2PA w))
      gone gone [PTE2PA w] := by
  have hnot : PTE2PA w ∉ tables s.mem root := hs.tree.leaf_not_mem_tables hw
  have hsame : ∀ t ∈ tables s₁.mem root, (s₁.free (PTE2PA w)).mem t = s₁.mem t := by
    intro t ht
    rw [h.tables_eq] at ht
    exact free_mem_of_ne s₁ fun heq => hnot (heq ▸ ht)
  refine ⟨h.space.congr hsame, ?_, nodup_singleton _, ?_, ?_, ?_, ?_, ?_, h.exhausted⟩
  · change PTE2PA w :: s₁.freelist = _
    rw [h.freelist]
    rfl
  · intro x
    rw [mem_singleton]
    constructor
    · intro hx
      exact ⟨v, (hgone v).2 rfl, w, hw, hx.symm⟩
    · intro hx
      obtain ⟨u, hu, w', hw', hx⟩ := hx
      rw [(hgone u).1 hu, hw] at hw'
      rw [← hx, Option.some.inj hw']
  · exact (tables_congr hsame).trans h.tables_eq
  · intro u hu
    exact (leaf_congr hsame u).trans (h.leaf_gone u hu)
  · intro u hu
    exact (leaf_congr hsame u).trans (h.leaf_kept u hu)
  · intro x hx hfreed
    rw [mem_singleton] at hfreed
    exact (free_mem_of_ne s₁ hfreed).trans (h.frame x hx nofun)

/-- The shared page is unmapped, and freed if this was its last user. -/
theorem freeShared_dropped (hs : Space k.phys.mem p.pagetable) (hshare : p.Shares → p.ShareOk k.phys k.sharedPage) :
    Ensures (freeShared p) k fun _ k' => k' = { k.unshare p with phys := k'.phys } ∧
      ∃ freed, Dropped p.pagetable k.phys k'.phys p.sharedPages
        {v | v ∈ p.sharedPages ∧ k.LastShare p} freed := by
  rw [freeShared]
  by_cases hp : p.Shares
  · have hok := hshare hp
    have hcond : (p.usarMemoriaCompartida && p.shmVa != 0) = true := by
      rw [hp.1, Bool.true_and, bne_iff_ne]
      exact hp.2
    have hlt : p.shmVa < 2 ^ 38 - 4096 - 4096 := hok.below
    have hset : ∀ u, u ∈ p.sharedPages ↔ u = p.shmVa / 4096 := fun u => and_iff_right hp
    have hrange : pageRange (p.shmVa / 4096) 1 = p.sharedPages := by
      ext u
      rw [hset, mem_pageRange]
      omega
    rw [if_pos hcond, ensures_bind, ensures_modify, ensures_bind, ensures_onPhys]
    refine (uvmunmap_dropped p.shmVa 1 false hs hok.aligned ?_ nofun).mono ?_
    · change p.shmVa + 1 * 4096 ≤ 2 ^ 38
      omega
    intro _ s₁ h₁
    obtain ⟨freed₁, h₁⟩ := h₁
    rw [hrange, if_neg Bool.false_ne_true] at h₁
    rw [h₁.nil_of_no_release] at h₁
    rw [ensures_bind, ensures_get]
    by_cases hlast : k.refcount - 1 = 0
    · have hunshare : k.unshare p = { k with refcount := k.refcount - 1, sharedPage := 0 } := by
        rw [unshare, if_pos hp, if_pos hlast]
      have hpa : PTE2PA (mkPte k.sharedPage (PTE_W ||| PTE_R ||| PTE_U)) = k.sharedPage :=
        PTE2PA_mkPte hok.page.1 hok.page.lt_two_pow (by decide)
      have hfree := h₁.free_page hs hset hok.mapped
      rw [hpa] at hfree
      have hrel : {v | v ∈ p.sharedPages ∧ k.LastShare p} = p.sharedPages := by
        ext u
        exact and_iff_left ⟨hp, hlast⟩
      rw [if_pos hlast, ensures_bind, ensures_onPhys, hrel, hunshare]
      apply kfree_spec hok.page
      rw [ensures_modify]
      exact ⟨rfl, [k.sharedPage], hfree⟩
    · have hunshare : k.unshare p = { k with refcount := k.refcount - 1 } := by
        rw [unshare, if_pos hp, if_neg hlast]
      rw [if_neg hlast, ensures_pure, hunshare]
      refine ⟨rfl, [], ?_⟩
      have hrel : {v | v ∈ p.sharedPages ∧ k.LastShare p} = ∅ := by
        ext u
        exact iff_of_false (fun hu => hlast hu.2.2) (Set.notMem_empty u)
      rw [hrel]
      exact h₁
  · have hcond : ¬ (p.usarMemoriaCompartida && p.shmVa != 0) = true := by
      rw [Bool.and_eq_true, bne_iff_ne]
      exact hp
    have hempty : ∀ u, u ∉ p.sharedPages := fun u hu => hp hu.1
    rw [if_neg hcond, ensures_pure, unshare, if_neg hp]
    exact ⟨rfl, [], Dropped.refl hs (fun u hu => absurd hu (hempty u)) fun u hu => hu.1⟩

end FreeShared

section Freeproc

variable {k : Kernel} {i : Fin NPROC} {p : Proc} {s : Phys}

/-- Every leaf of the process is one that `freeproc` will find, and the region starts at a page. -/
structure Proc.Tracked (p : Proc) (s : Phys) : Prop where
  leaves : ∀ v w, leaf s.mem p.pagetable v = some w → v < tfVpn →
    v ∈ p.sharedPages ∨ v ∈ p.mapRoPages ∨ v ∈ p.regionPages ∨ v < pageCount p.sz
  region : p.vr.active = true → p.vr.start % 4096 = 0

/-- The pages of a process: its tables, its trapframe and its memory, without some of its leaves. -/
def Proc.pages (p : Proc) (s : Phys) (kept : Set ℕ) : Set ℕ :=
  {x | x ∈ tables s.mem p.pagetable ∨
    ∃ v w, leaf s.mem p.pagetable v = some w ∧ PTE2PA w = x ∧ v ≠ trampVpn ∧ v ∉ kept}

/-- The shared page stays with its other users. -/
def Kernel.keptPages (k : Kernel) (p : Proc) : Set ℕ := {v | v ∈ p.sharedPages ∧ ¬ k.LastShare p}

/-- Removing all leaves and the tables, with the trapframe freed before. -/
theorem freeSpace_spec (hs : Space k.phys.mem p.pagetable) (hnonzero : p.pagetable ≠ 0) (hsz : p.sz ≤ TRAPFRAME)
    (hlimit : p.vr.active = true → p.vr.limit ≤ TRAPFRAME) (hro : p.MapRoOk)
    (hshare : p.Shares → p.ShareOk k.phys k.sharedPage) (htramp : LowPages k.phys.mem p.pagetable) :
    Yields (freeSpace p) k
      (fun _ k' => k' = { k.unshare p with phys := k'.phys } ∧
        (∀ v w, leaf k.phys.mem p.pagetable v = some w → v < tfVpn →
          v ∈ p.sharedPages ∨ v ∈ p.mapRoPages ∨ v ∈ p.regionPages ∨ v < pageCount p.sz) ∧
        ∃ freed, Freed (tables k.phys.mem p.pagetable ∪ leafPagesIn k.phys.mem p.pagetable
          {v | v < tfVpn ∧ v ∉ k.keptPages p}) k.phys k'.phys freed)
      (fun _ => ¬ p.Tracked k.phys) := by
  have hcount := pageCount_le hsz
  rw [freeSpace, if_pos hnonzero, yields_bind]
  apply Ensures.yields
  refine (freeShared_dropped hs hshare).mono ?_
  intro _ k₁ h₁
  obtain ⟨hk₁, freed₁, h₁⟩ := h₁
  have hsub₁ : {v | v ∈ p.sharedPages ∧ k.LastShare p} ⊆ p.sharedPages := fun v hv => hv.1
  rw [yields_bind, yields_onPhys]
  apply Ensures.yields
  refine (freeMapRo_dropped h₁.space hro (h₁.lowPages htramp)).mono ?_
  intro _ s₂ h₂
  obtain ⟨freed₂, h₂⟩ := h₂
  have hd₂ := h₁.trans hs hsub₁ h₂
  rw [yields_bind, yields_onPhys]
  refine (freeRegion_dropped hd₂.space hlimit (hd₂.lowPages htramp)).mono ?_ ?_
  · intro _ s₃ h₃
    obtain ⟨freed₃, h₃⟩ := h₃
    have hd₃ := hd₂.trans hs (by
      intro v hv
      exact hv.elim (fun hv => .inl hv.1) fun hv => .inr hv.1) h₃
    rw [yields_onPhys]
    refine (procFreepagetable_dropped hs (by
      intro v hv
      exact hv.elim (fun hv => .inl (hv.elim (fun hv => .inl hv.1) fun hv => .inr hv.1))
        fun hv => .inr hv.1) hd₃ hsz htramp).mono ?_ ?_
    · intro _ s₄ h₄
      obtain ⟨hall, freed₄, hfreed⟩ := h₄
      have hall' : ∀ v w, leaf k.phys.mem p.pagetable v = some w → v < tfVpn →
          v ∈ p.sharedPages ∨ v ∈ p.mapRoPages ∨ v ∈ p.regionPages ∨ v < pageCount p.sz := by
        intro v w hw hv
        have hcases := hall v w hw hv
        rw [Set.mem_union, Set.mem_union, or_assoc, or_assoc] at hcases
        exact hcases
      refine ⟨by rw [hk₁], hall', freed₄, hfreed.congr ?_⟩
      intro x
      apply or_congr_right
      constructor
      · intro hx
        obtain ⟨v, hv, w, hw, hwx⟩ := hx
        refine ⟨v, ?_, w, hw, hwx⟩
        obtain ((hv | hv) | hv) | hv := hv
        · have hlt := (hshare hv.1.1).below
          have hvpn : v = p.shmVa / 4096 := hv.1.2
          refine ⟨?_, fun hk => hk.2 hv.2⟩
          have : p.shmVa < 2 ^ 38 - 4096 - 4096 := hlt
          change v < 67108862
          omega
        · have hlt : p.mapRoVa < 2 ^ 38 - 4096 - 4096 := hro.2
          have hvpn : v = p.mapRoVa / 4096 := hv.1.2
          refine ⟨?_, fun hk => hv.2 hk.1⟩
          change v < 67108862
          omega
        · have hle : p.vr.limit ≤ 2 ^ 38 - 4096 - 4096 := hlimit hv.1.1
          have hmem := mem_pageRange.1 hv.1.2
          rw [pagesTo] at hmem
          change _ ∧ v < p.vr.start / 4096 + (p.vr.limit - p.vr.start + 4095) / 4096 at hmem
          refine ⟨?_, fun hk => hv.2 (.inl hk.1)⟩
          change v < 67108862
          omega
        · exact ⟨lt_of_lt_of_le hv.1 hcount, fun hk => hv.2 (.inl (.inl hk.1))⟩
      · intro hx
        obtain ⟨v, ⟨hv, hkept⟩, w, hw, hwx⟩ := hx
        refine ⟨v, ?_, w, hw, hwx⟩
        by_cases hsh : v ∈ p.sharedPages
        · refine .inl (.inl (.inl ⟨hsh, ?_⟩))
          by_contra hlast
          exact hkept ⟨hsh, hlast⟩
        by_cases hm : v ∈ p.mapRoPages
        · exact .inl (.inl (.inr ⟨hm, hsh⟩))
        by_cases hr : v ∈ p.regionPages
        · refine .inl (.inr ⟨hr, ?_⟩)
          intro hg
          exact hg.elim hsh hm
        · refine .inr ⟨?_, ?_⟩
          · exact ((hall' v w hw hv).resolve_left hsh |>.resolve_left hm).resolve_left hr
          · intro hg
            exact hg.elim (fun hg => hg.elim hsh hm) hr
    · intro e he htracked
      obtain ⟨-, v, w, hw, hv, hgone, hlt⟩ := he
      rw [Set.mem_union, Set.mem_union, not_or, not_or] at hgone
      obtain hc | hc | hc | hc := htracked.leaves v w hw hv
      · exact hgone.1.1 hc
      · exact hgone.1.2 hc
      · exact hgone.2 hc
      · exact hlt hc
  · intro e he htracked
    exact he.2 (htracked.region he.1)

/-- The pages of a process are its tables, its trapframe and the pages of its lower leaves. -/
theorem pages_iff {page x : ℕ} (hok : p.Ok s) (hshare : p.Shares → p.ShareOk s page) (kept : Set ℕ)
    (hkept : kept ⊆ p.sharedPages) :
    (x ∈ tables s.mem p.pagetable ∨
      ∃ v ∈ {v | v < tfVpn ∧ v ∉ kept}, ∃ w, leaf s.mem p.pagetable v = some w ∧ PTE2PA w = x) ∨
        x = p.trapframe ↔ x ∈ p.pages s kept := by
  have hspace := hok.space
  constructor
  · intro hx
    obtain (hx | ⟨v, ⟨hv, hk⟩, w, hw, hwx⟩) | rfl := hx
    · exact .inl hx
    · exact .inr ⟨v, w, hw, hwx, fun heq => absurd (heq ▸ hv) (by decide), hk⟩
    · refine .inr ⟨tfVpn, _, hspace.tfLeaf, hspace.PTE2PA_tf, by decide, fun hk => ?_⟩
      have hv := hkept hk
      have hlt : p.shmVa < 2 ^ 38 - 4096 - 4096 := (hshare hv.1).below
      have hvpn : 67108862 = p.shmVa / 4096 := hv.2
      omega
  · intro hx
    obtain hx | ⟨v, w, hw, hwx, hv, hk⟩ := hx
    · exact .inl (.inl hx)
    · by_cases htf : v = tfVpn
      · right
        rw [htf, hspace.tfLeaf] at hw
        rw [← hwx, ← Option.some.inj hw, hspace.PTE2PA_tf]
      · have hlt := (hspace.within.space.leaf_cases hw).resolve_right fun h => h.elim htf hv
        exact .inl (.inr ⟨v, ⟨hlt, hk⟩, w, hw, hwx⟩)

variable {kept : Set ℕ}

/-- The pages of a process are pages of the allocator that are not free. -/
theorem Proc.Ok.pages_out {x : ℕ} (h : p.Ok s) (hx : x ∈ p.pages s kept) :
    PageAddress x ∧ x ∈ reach (child s.mem) 3 p.pagetable ∧ x ∉ s.freelist :=
  h.space.page_out (hx.imp_right fun ⟨v, w, hw, hwx, hv, _⟩ => ⟨v, w, hw, hwx, hv⟩)

/-- The free list after the pages of a process have been added to it. -/
theorem Proc.Ok.freeOk_of_freed {s' : Phys} {freed : List ℕ} (h : p.Ok s)
    (hfreed : Freed (p.pages s kept) s s' freed) : FreeOk s'.freelist :=
  hfreed.freeOk h.space.within.free fun _ hx => ⟨(h.pages_out hx).1, (h.pages_out hx).2.2⟩

/-- `freeproc` completes for a process all of whose leaves it finds, and only for such a process. Every
page of the process is then on the free list, once, except that the shared page stays with its other
users. -/
theorem freeproc_spec (hok : (k.proc i).Ok k.phys) (hro : (k.proc i).MapRoOk)
    (hshare : (k.proc i).Shares → (k.proc i).ShareOk k.phys k.sharedPage) :
    Yields (freeproc i) k
      (fun _ k' => k' = { (k.unshare (k.proc i)).setProc i Proc.empty with phys := k'.phys } ∧
        ∃ freed, Freed ((k.proc i).pages k.phys (k.keptPages (k.proc i))) k.phys k'.phys freed)
      (fun _ => ¬ (k.proc i).Tracked k.phys) := by
  generalize hp : k.proc i = p at hok hro hshare ⊢
  have hspace := hok.space
  have htf : p.trapframe ≠ 0 := hspace.tfPage.ne_zero
  have hroot : p.pagetable ≠ 0 := (hspace.within.space.tabs _ (root_mem_tables _ _)).ne_zero
  have htfleaf : PTE2PA (mkPte p.trapframe (PTE_R ||| PTE_W)) = p.trapframe := hspace.PTE2PA_tf
  have hnot : p.trapframe ∉ tables k.phys.mem p.pagetable := by
    have h := hspace.within.space.tree.leaf_not_mem_tables hspace.tfLeaf
    rwa [htfleaf] at h
  rw [freeproc, yields_bind, yields_get, hp, yields_bind, yields_onPhys, freeTrapframe, if_pos htf]
  apply Ensures.yields
  apply kfree_spec hspace.tfPage
  generalize hs₁ : k.phys.free p.trapframe = s₁
  have hsame : ∀ t ∈ tables k.phys.mem p.pagetable, s₁.mem t = k.phys.mem t := by
    intro t ht
    rw [← hs₁]
    exact free_mem_of_ne k.phys fun heq => hnot (heq ▸ ht)
  have hleaf := leaf_congr hsame
  have htables := tables_congr hsame
  rw [yields_bind]
  refine (freeSpace_spec (hspace.within.space.congr hsame) hroot hok.size hok.region hro ?_ ?_).mono ?_ ?_
  · intro hsh
    obtain ⟨h1, h2, h3, h4⟩ := hshare hsh
    exact ⟨h1, h2, (hleaf _).trans h3, h4⟩
  · intro v w hv hw
    change leaf s₁.mem p.pagetable v = some w at hw
    rw [hleaf] at hw
    exact hspace.lowPages v w hv hw
  · intro _ k₂ h₂
    obtain ⟨hk₂, hall, freed, hfreed⟩ := h₂
    rw [yields_modify, if_pos hroot]
    have hkept : keptPages { k with phys := s₁ } p = k.keptPages p := rfl
    refine ⟨?_, freed ++ [p.trapframe], ?_⟩
    · rw [hk₂]
      change setProc _ i Proc.empty = _
      rw [unshare, unshare]
      split_ifs <;> rfl
    · change Freed _ k.phys k₂.phys _
      have hmem : ∀ x, x ∈ freed ++ [p.trapframe] ↔ x ∈ p.pages k.phys (k.keptPages p) := by
        intro x
        have hx := hfreed.mem_iff x
        rw [Set.mem_union, leafPagesIn, Set.mem_ofPred_eq, hkept] at hx
        simp only [hleaf, htables] at hx
        rw [mem_append, mem_singleton, hx]
        exact pages_iff hok hshare (k.keptPages p) fun v hv => hv.1
      refine ⟨?_, ?_, hmem, ?_, ?_⟩
      · rw [hfreed.freelist, append_assoc, ← hs₁]
        rfl
      · refine nodup_append.2 ⟨hfreed.nodup, nodup_singleton _, ?_⟩
        intro x hx y hy hxy
        rw [mem_singleton] at hy
        rw [hfreed.mem_iff, Set.mem_union, leafPagesIn, Set.mem_ofPred_eq] at hx
        simp only [hleaf, htables] at hx
        obtain hx | ⟨v, hv, w, hw, hwx⟩ := hx
        · exact hnot (hy ▸ hxy ▸ hx)
        · have heq : PTE2PA w = PTE2PA (mkPte p.trapframe (PTE_R ||| PTE_W)) := by
            rw [htfleaf, hwx, hxy, hy]
          have hv' := hspace.within.space.inj v tfVpn w _ hw hspace.tfLeaf heq
          exact absurd (hv' ▸ hv.1) (lt_irrefl _)
      · intro x hx
        rw [← hmem, mem_append, mem_singleton, not_or, hfreed.mem_iff] at hx
        rw [hfreed.frame x hx.1, ← hs₁]
        exact free_mem_of_ne k.phys hx.2
      · rw [hfreed.exhausted, ← hs₁, free_exhausted]
  · intro e he htracked
    apply he
    refine ⟨fun v w hw => ?_, htracked.region⟩
    change leaf s₁.mem p.pagetable v = some w at hw
    rw [hleaf] at hw
    exact htracked.leaves v w hw

end Freeproc

end Xv6
