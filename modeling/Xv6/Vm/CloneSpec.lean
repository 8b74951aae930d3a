import Mathlib.Data.Nat.Count
import Xv6.Vm.FillSpec

/-!
# Copying an address space

`uvmcopy` gives a new address space a copy of every mapped page of an old one below a size, with the
same permissions, and leaves the holes alone. If memory runs out, the copies that were made are taken
back.
-/

namespace Xv6.Vm

open Function Library

variable [KernelImage]

section Undo

variable {root : ℕ} {allowed : ℕ → ℕ → Page → Prop} {s s₁ : Phys}

/-- Removing pages that were mapped since leads back to the old entries. -/
theorem Filled.unmap (base n : ℕ) (h : SpaceIn s root) (hf : Filled root allowed s s₁)
    (hbound : base + n ≤ tfVpn) (hnone : ∀ v, base ≤ v → v < base + n → leaf s.mem root v = none)
    (hout : ∀ v, ¬ (base ≤ v ∧ v < base + n) → leaf s₁.mem root v = leaf s.mem root v) :
    Ensures (uvmunmap root (base * 4096) n true) s₁ fun _ s' => Quiet root s s' ∧
      (∀ v, leaf s'.mem root v = leaf s.mem root v) ∧ s'.exhausted = s₁.exhausted := by
  have hle : base + n ≤ 67108862 := hbound
  have hdiv : base * 4096 / 4096 = base := Nat.mul_div_cancel _ (by decide)
  -- the pages of the range were free before
  have hnew : ∀ v w, base ≤ v → v < base + n → leaf s₁.mem root v = some w →
      PTE2PA w ∈ s.freelist := by
    intro v w h1 h2 hw
    obtain ⟨m, perm, hm, hperm, rfl, -⟩ := hf.new v w (hnone v h1 h2) hw
    have hpage := h.free.valid m hm
    rwa [PTE2PA_mkPte hpage.1 hpage.lt_two_pow hperm]
  refine (uvmunmap_space hf.quiet.step.after (Nat.mul_mod_left _ _) ?_ ?_).mono ?_
  · change base * 4096 + n * 4096 ≤ 2 ^ 38
    omega
  · intro v w h1 h2 hw
    rw [hdiv] at h1 h2
    intro heq
    exact not_pageAddress_trampoline (heq ▸ h.free.valid _ (hnew v w h1 h2 hw))
  intro _ s' hs'
  obtain ⟨hstep, hshrunk⟩ := hs'
  rw [hdiv] at hshrunk
  have hfresh : ∀ x, x ∈ freedPages true (leaf s₁.mem root) base n → x ∈ s.freelist := by
    intro x hx
    rw [freedPages, if_pos rfl, List.mem_reverse, mem_leafPages] at hx
    obtain ⟨v, w, h1, h2, hw, rfl⟩ := hx
    exact hnew v w h1 h2 hw
  refine ⟨⟨hf.quiet.step.trans hstep, ?_, ?_, ?_, ?_⟩, ?_, hshrunk.exhausted⟩
  · intro x ht hfree
    rw [hshrunk.frame x (fun hx => (hf.quiet.tables_sub x hx).elim ht hfree) fun hx => hfree (hfresh x hx)]
    exact hf.quiet.same x ht hfree
  · intro x hx
    rw [hshrunk.tables_eq] at hx
    exact hf.quiet.tables_sub x hx
  · intro x hx
    rw [hshrunk.freelist, List.mem_append] at hx
    exact hx.elim (hfresh x) (hf.quiet.free_sub x)
  · intro hex
    rw [hshrunk.exhausted]
    exact hf.quiet.exhausted hex
  · intro v
    rw [hshrunk.leaf_eq, without]
    split_ifs with hin
    · rw [hnone v hin.1 hin.2]
    · exact hout v hin

end Undo

section Uvmcopy

variable {old new sz n : ℕ} {s s₁ s₂ : Phys}

/-- The pages that an address space maps below a page number. -/
def mappedBelow (mem : ℕ → Page) (root n : ℕ) : ℕ := Nat.count (fun v => (leaf mem root v).isSome) n

/-- The pages below a page number have been copied. -/
structure Copied (old new n : ℕ) (s s' : Phys) : Prop where
  quiet : Quiet new s s'
  copy : ∀ v < n, ∀ w, leaf s.mem old v = some w → ∃ m ∈ s.freelist,
    leaf s'.mem new v = some (mkPte m (PTE_FLAGS w)) ∧ s'.mem m = s.mem (PTE2PA w)
  hole : ∀ v < n, leaf s.mem old v = none → leaf s'.mem new v = none
  others : ∀ v, n ≤ v → leaf s'.mem new v = leaf s.mem new v
  exhausted : s'.exhausted = s.exhausted
  length : s.freelist.length ≤ s'.freelist.length + 3 * mappedBelow s.mem old n

/-- The pages of the old address space are out of reach for operations on the new one. -/
structure Separate (old new : ℕ) (s : Phys) : Prop where
  tables : ∀ t ∈ tables s.mem old, t ∉ Vm.tables s.mem new ∧ t ∉ s.freelist
  pages : ∀ v w, leaf s.mem old v = some w → PTE2PA w ∉ Vm.tables s.mem new ∧ PTE2PA w ∉ s.freelist

omit [KernelImage] in
theorem PTE_FLAGS_lt (w : ℕ) : PTE_FLAGS w < 1024 := by
  rw [PTE_FLAGS_eq]
  exact Nat.mod_lt _ (by decide)

omit [KernelImage] in
/-- The flags of an entry contain its permissions. -/
theorem hasFlag_PTE_FLAGS_RWX (w : ℕ) : hasFlag (PTE_FLAGS w) PTE_RWX = hasFlag w PTE_RWX := by
  rw [hasFlag, hasFlag, PTE_FLAGS, Nat.and_assoc]
  rfl

/-- What was copied stands for leaves that were added. -/
theorem Copied.filled (h : Copied old new n s s₁) (hnone : ∀ v < n, leaf s.mem new v = none) :
    Filled new (fun _ _ _ => True) s s₁ where
  quiet := h.quiet
  old v w hw := by
    by_cases hv : v < n
    · rw [hnone v hv] at hw
      cases hw
    · rwa [h.others v (not_lt.1 hv)]
  new v w hleaf hw := by
    by_cases hv : v < n
    · cases hold : leaf s.mem old v with
      | none =>
        rw [h.hole v hv hold] at hw
        cases hw
      | some w' =>
        obtain ⟨m, hm, hnew, -⟩ := h.copy v hv w' hold
        rw [hnew] at hw
        exact ⟨m, PTE_FLAGS w', hm, PTE_FLAGS_lt w', (Option.some.inj hw).symm, trivial⟩
    · rw [h.others v (not_lt.1 hv), hleaf] at hw
      cases hw

section Frame

variable (hsep : Separate old new s) (hq : Quiet new s s₁)

include hsep hq

/-- The old address space is not touched. -/
theorem Separate.tables_eq : ∀ t ∈ Vm.tables s.mem old, s₁.mem t = s.mem t := by
  intro t ht
  obtain ⟨h1, h2⟩ := hsep.tables t ht
  exact hq.same t h1 h2

/-- The pages of the old address space keep their contents. -/
theorem Separate.page_eq {v w : ℕ} (hw : leaf s.mem old v = some w) : s₁.mem (PTE2PA w) = s.mem (PTE2PA w) := by
  obtain ⟨h1, h2⟩ := hsep.pages v w hw
  exact hq.same _ h1 h2

end Frame

/-- One more page is copied. -/
theorem Copied.succ {w m : ℕ} (hfree : FreeOk s.freelist) (hsep : Separate old new s)
    (h : Copied old new n s s₁) (hw : leaf s.mem old n = some w)
    (hm : AllocMapped new n (PTE_FLAGS w) (fun mem => mem (PTE2PA w)) s₁ (some m) s₂) :
    Copied old new (n + 1) s s₂ := by
  obtain ⟨hmfree, hleaf, hmem, hex, -, hlen⟩ := hm.mapped m rfl
  have hin := h.quiet.step.after
  have hcount : mappedBelow s.mem old (n + 1) = mappedBelow s.mem old n + 1 := by simp [mappedBelow, Nat.count_succ, hw]
  have hold := h.length
  refine ⟨h.quiet.trans hm.quiet, ?_, ?_, ?_, hex.trans h.exhausted, by omega⟩
  · intro v hv w' hw'
    by_cases hlast : v = n
    · subst hlast
      rw [hw] at hw'
      obtain rfl := Option.some.inj hw'
      have hmold := h.quiet.free_sub m hmfree
      refine ⟨m, hmold, by rw [hleaf, update_self], ?_⟩
      have hne : PTE2PA w ≠ m := fun heq => (hsep.pages _ w hw).2 (heq ▸ hmold)
      rw [hmem, update_of_ne hne]
      exact hsep.page_eq h.quiet hw
    · obtain ⟨m', hm', hnew, hcontents⟩ := h.copy v (by omega) w' hw'
      refine ⟨m', hm', by rw [hleaf, update_of_ne hlast, hnew], ?_⟩
      obtain ⟨ht, hf⟩ := hin.mapped_out hnew
      have hpage := hfree.valid m' hm'
      rw [PTE2PA_mkPte hpage.1 hpage.lt_two_pow (PTE_FLAGS_lt w')] at ht hf
      rw [hm.quiet.same m' ht hf, hcontents]
  · intro v hv hnone
    have hne : v ≠ n := by
      rintro rfl
      rw [hw] at hnone
      cases hnone
    rw [hleaf, update_of_ne hne]
    exact h.hole v (by omega) hnone
  · intro v hv
    rw [hleaf, update_of_ne (by omega)]
    exact h.others v (by omega)

/-- A hole is left out. -/
theorem Copied.skip (h : Copied old new n s s₁) (hw : leaf s.mem old n = none)
    (hnone : leaf s.mem new n = none) : Copied old new (n + 1) s s₁ where
  quiet := h.quiet
  copy v hv w hw' := by
    refine h.copy v ?_ w hw'
    by_contra hge
    obtain rfl : v = n := by omega
    rw [hw] at hw'
    cases hw'
  hole v hv hleaf := by
    by_cases hlast : v = n
    · rw [hlast, h.others n (le_refl n), hnone]
    · exact h.hole v (by omega) hleaf
  others v hv := h.others v (by omega)
  exhausted := h.exhausted
  length := by
    have hcount : mappedBelow s.mem old (n + 1) = mappedBelow s.mem old n := by simp [mappedBelow, Nat.count_succ, hw]
    rw [hcount]
    exact h.length

theorem Copied.zero (h : SpaceIn s new) : Copied old new 0 s s where
  quiet := Quiet.refl h
  copy v hv := absurd hv (Nat.not_lt_zero v)
  hole v hv := absurd hv (Nat.not_lt_zero v)
  others _ _ := rfl
  exhausted := rfl
  length := Nat.le_add_right _ _

/-- The loop of `uvmcopy` after the pages below a page number. -/
theorem uvmcopyLoop_spec (hperm : ∀ v w, leaf s.mem old v = some w → hasFlag w PTE_RWX = true)
    (h : SpaceIn s new) (hsep : Separate old new s) (k n : ℕ) (s₁ : Phys) (hbound : n + k ≤ tfVpn)
    (hnone : ∀ v < n + k, leaf s.mem new v = none)
    (hc : Copied old new n s s₁) :
    Ensures (uvmcopyLoop old new k (n * 4096)) s₁ fun r s' =>
      (r = 0 ∧ Copied old new (n + k) s s') ∨ (r = -1 ∧ Exhausted new s s') := by
  induction k generalizing n s₁ with
  | zero => exact (ensures_pure _ _ _).2 (.inl ⟨rfl, hc⟩)
  | succ k ih =>
    have hle : n + (k + 1) ≤ 67108862 := hbound
    have hdiv : n * 4096 / 4096 = n := Nat.mul_div_cancel _ (by decide)
    have hmax : n * 4096 < MAXVA := by
      change n * 4096 < 2 ^ 38
      omega
    have hleaf : ∀ v, leaf s₁.mem old v = leaf s.mem old v := leaf_congr (hsep.tables_eq hc.quiet)
    have hnext : ∀ s₂, Copied old new (n + 1) s s₂ →
        Ensures (uvmcopyLoop old new k (n * 4096 + PGSIZE)) s₂ fun r s' =>
          (r = 0 ∧ Copied old new (n + (k + 1)) s s') ∨ (r = -1 ∧ Exhausted new s s') := by
      intro s₂ hc₂
      have hstep := ih (n + 1) s₂ (by omega) (fun v hv => hnone v (by omega)) hc₂
      rw [show (n + 1) * 4096 = n * 4096 + PGSIZE by change _ = n * 4096 + 4096; omega,
        show n + 1 + k = n + (k + 1) by omega] at hstep
      exact hstep
    have hskip : leaf s₁.mem old n = none → Copied old new (n + 1) s s₁ := by
      intro hn
      exact hc.skip (by rw [← hleaf, hn]) (hnone n (by omega))
    rw [uvmcopyLoop, ensures_bind, ensures_walk_false hmax, hdiv]
    cases ht : leafTable s₁.mem old n with
    | none =>
      refine hnext s₁ (hskip ?_)
      rw [leaf_of_lt (by omega), ht]
      rfl
    | some t =>
      change Ensures (readPte _ >>= _) s₁ _
      rw [ensures_bind, ensures_readPte, PX_zero_eq, hdiv]
      cases hv : hasFlag (pteAt s₁.mem t (n % 512)) PTE_V with
      | false =>
        refine hnext s₁ (hskip ?_)
        rw [leaf_of_lt (by omega), ht, Option.bind_some, validPte, hv]
        rfl
      | true =>
        generalize hw : pteAt s₁.mem t (n % 512) = w at hv
        have hw₁ : leaf s₁.mem old n = some w := by
          rw [leaf_of_lt (by omega), ht, Option.bind_some, validPte, hw, hv]
          rfl
        have hw₀ : leaf s.mem old n = some w := by rw [← hleaf, hw₁]
        have hnew : leaf s₁.mem new (n * 4096 / 4096) = none := by
          rw [hdiv, hc.others n (le_refl n), hnone n (by omega)]
        change Ensures (allocMap _ _ _ _ >>= _) s₁ _
        rw [ensures_bind]
        refine (allocMap_spec hc.quiet.step.after (Nat.mul_mod_left _ _) hmax hnew (PTE_FLAGS_lt w)
          ((hasFlag_PTE_FLAGS_RWX w).trans (hperm n w hw₀))).mono ?_
        intro r s₂ hm
        rw [hdiv] at hm
        cases r with
        | some m => exact hnext s₂ (hc.succ h.free hsep hw₀ hm)
        | none =>
          obtain ⟨hsame, hex⟩ := hm.failed rfl
          have hfilled := (hc.filled fun v hv => hnone v (by omega)).trans h (Filled.of_same hm.quiet hsame)
          change Ensures (uvmunmap _ _ _ _ >>= _) s₂ _
          rw [ensures_bind]
          have hundo := hfilled.unmap 0 n h (show 0 + n ≤ 67108862 by omega)
            (fun v _ hv => hnone v (by omega)) (by
              intro v hv
              rw [hsame, hc.others v (by omega)])
          rw [Nat.zero_mul] at hundo
          refine hundo.mono ?_
          intro _ s' hs'
          obtain ⟨hquiet, hleaf', hex'⟩ := hs'
          exact (ensures_pure _ _ _).2 (.inr ⟨rfl, hquiet, hleaf', hex'.trans hex⟩)

/-- Copying the memory of a process below a size. -/
theorem uvmcopy_spec (hperm : ∀ v w, leaf s.mem old v = some w → hasFlag w PTE_RWX = true)
    (h : SpaceIn s new) (hsep : Separate old new s) (hsz : sz ≤ TRAPFRAME)
    (hnone : ∀ v < pageCount sz, leaf s.mem new v = none) :
    Ensures (uvmcopy old new sz) s fun r s' =>
      (r = 0 ∧ Copied old new (pageCount sz) s s') ∨ (r = -1 ∧ Exhausted new s s') := by
  have hloop := uvmcopyLoop_spec hperm h hsep (pageCount sz) 0 s (by rw [Nat.zero_add]; exact pageCount_le hsz)
    (by rwa [Nat.zero_add]) (Copied.zero h)
  rw [Nat.zero_add, Nat.zero_mul] at hloop
  exact hloop

end Uvmcopy

end Xv6.Vm
