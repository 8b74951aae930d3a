import Xv6.Vm.SpaceOps

/-!
# The address space of a process and its size

The address space of a process maps the trampoline and the trapframe in its two highest pages and its
own memory below. Shrinking, growing and the lazy allocation of a page are operations on it.
-/

namespace Xv6.Vm

open KernelImage Library

/-- The page number of the trampoline. -/
abbrev trampVpn : ℕ := 2 ^ 26 - 1

/-- The page number of the trapframe. -/
abbrev tfVpn : ℕ := 2 ^ 26 - 2

/-- The number of pages with an address below a size. -/
def pageCount (sz : ℕ) : ℕ := (sz + 4095) / 4096

variable {sz : ℕ}

theorem PGROUNDUP_eq (h : sz ≤ 2 ^ 63) : PGROUNDUP sz = pageCount sz * 4096 := by
  rw [PGROUNDUP, pageCount]
  change (sz + 4096 - 1) % 2 ^ 64 / 4096 * 4096 = _
  omega

theorem PGROUNDDOWN_eq (a : ℕ) : PGROUNDDOWN a = a / 4096 * 4096 := rfl

/-- The page at which a fault is resolved starts at a multiple of the page size. -/
theorem PGROUNDDOWN_facts (va : ℕ) : PGROUNDDOWN va % 4096 = 0 ∧ PGROUNDDOWN va / 4096 = va / 4096 := by
  rw [PGROUNDDOWN_eq]
  omega

theorem pageCount_le (h : sz ≤ TRAPFRAME) : pageCount sz ≤ tfVpn := by
  rw [pageCount]
  change sz ≤ 2 ^ 38 - 4096 - 4096 at h
  change _ ≤ 2 ^ 26 - 2
  omega

variable {vpn : ℕ}

/-- A page starts below a size exactly when its number is below the number of pages. -/
theorem lt_pageCount_iff : vpn < pageCount sz ↔ vpn * 4096 < sz := by
  rw [pageCount]
  omega

variable [KernelImage]

/-- The address space of a process with the given trapframe. -/
structure ProcSpace (s : Phys) (root tf : ℕ) : Prop where
  within : SpaceIn s root
  tramp : leaf s.mem root trampVpn = some (mkPte trampoline (PTE_R ||| PTE_X))
  tfLeaf : leaf s.mem root tfVpn = some (mkPte tf (PTE_R ||| PTE_W))
  tfPage : PageAddress tf

variable {w : ℕ}

section ProcSpace

variable {s s' : Phys} {root tf : ℕ}

/-- The trampoline entry leads to the trampoline. -/
theorem PTE2PA_tramp : PTE2PA (mkPte trampoline (PTE_R ||| PTE_X)) = trampoline := by
  refine PTE2PA_mkPte trampoline_aligned ?_ (by decide)
  have h1 := trampoline_lt_kend
  have h2 : kend ≤ 0x88000000 := kend_le_phystop
  omega

/-- The trapframe entry leads to the trapframe. -/
theorem ProcSpace.PTE2PA_tf (h : ProcSpace s root tf) : PTE2PA (mkPte tf (PTE_R ||| PTE_W)) = tf :=
  PTE2PA_mkPte h.tfPage.1 h.tfPage.lt_two_pow (by decide)

/-- Only the highest page is the trampoline. -/
theorem ProcSpace.not_tramp (h : ProcSpace s root tf) (hne : vpn ≠ trampVpn)
    (hw : leaf s.mem root vpn = some w) : PTE2PA w ≠ trampoline := by
  intro heq
  exact hne (h.within.space.inj vpn trampVpn w _ hw h.tramp (heq.trans PTE2PA_tramp.symm))

/-- Below the trapframe no leaf leads to the trampoline. -/
def LowPages (mem : ℕ → Page) (root : ℕ) : Prop :=
  ∀ v w, v < tfVpn → leaf mem root v = some w → PTE2PA w ≠ trampoline

theorem ProcSpace.lowPages (h : ProcSpace s root tf) : LowPages s.mem root :=
  fun _ _ hv hw => h.not_tramp (fun heq => absurd (heq ▸ hv) (by decide)) hw

/-- The leaves are those below the trapframe and the two highest. -/
theorem Space.leaf_cases {mem : ℕ → Page} (h : Space mem root)
    (hw : leaf mem root vpn = some w) : vpn < tfVpn ∨ vpn = tfVpn ∨ vpn = trampVpn := by
  have hlt : ¬ 2 ^ 26 ≤ vpn := by
    intro hle
    rw [h.leaf_of_le hle] at hw
    cases hw
  change vpn < 2 ^ 26 - 2 ∨ vpn = 2 ^ 26 - 2 ∨ vpn = 2 ^ 26 - 1
  omega

/-- The pages other than the trampoline are pages of the allocator. -/
theorem ProcSpace.pageAddress (h : ProcSpace s root tf) (hne : vpn ≠ trampVpn)
    (hw : leaf s.mem root vpn = some w) : PageAddress (PTE2PA w) :=
  h.within.space.pages vpn w hw (h.not_tramp hne hw)

/-- An operation below the two highest pages keeps the address space of the process. -/
theorem ProcSpace.of_step (h : ProcSpace s root tf) (hstep : SpaceStep root s s')
    (hleaf : ∀ vpn, tfVpn ≤ vpn → leaf s'.mem root vpn = leaf s.mem root vpn) : ProcSpace s' root tf where
  within := hstep.after
  tramp := (hleaf _ (by decide)).trans h.tramp
  tfLeaf := (hleaf _ (by decide)).trans h.tfLeaf
  tfPage := h.tfPage

end ProcSpace

section Dealloc

variable {s : Phys} {root tf oldsz newsz : ℕ}

/-- The pages that shrinking a process from `oldsz` to `newsz` removes. -/
def removed (entries : ℕ → Option ℕ) (newsz oldsz : ℕ) : ℕ → Option ℕ :=
  without entries (pageCount newsz) (pageCount oldsz - pageCount newsz)

omit [KernelImage] in
theorem removed_of_le (entries : ℕ → Option ℕ) (h : pageCount oldsz ≤ vpn) :
    removed entries newsz oldsz vpn = entries vpn := by
  rw [removed, without, if_neg (by omega)]

omit [KernelImage] in
theorem removed_of_lt (entries : ℕ → Option ℕ) (h : vpn < pageCount newsz) :
    removed entries newsz oldsz vpn = entries vpn := by
  rw [removed, without, if_neg (by omega)]

omit [KernelImage] in
theorem removed_eq_some {entries : ℕ → Option ℕ} (h : removed entries newsz oldsz vpn = some w) :
    entries vpn = some w ∧ (vpn < pageCount newsz ∨ pageCount oldsz ≤ vpn) := by
  rw [removed, without_eq_some] at h
  exact ⟨h.1, by omega⟩

/-- What shrinking has done. -/
structure Dealloced (root oldsz newsz : ℕ) (s : Phys) (r : ℕ) (s' : Phys) : Prop where
  result : r = min oldsz newsz
  step : SpaceStep root s s'
  leaf_eq : ∀ vpn, leaf s'.mem root vpn = removed (leaf s.mem root) newsz oldsz vpn
  same : ∀ x, x ∉ tables s.mem root →
    (∀ vpn w, pageCount newsz ≤ vpn → vpn < pageCount oldsz → leaf s.mem root vpn = some w →
      PTE2PA w ≠ x) → s'.mem x = s.mem x
  freelist : s'.freelist = freedPages true (leaf s.mem root) (pageCount newsz)
    (pageCount oldsz - pageCount newsz) ++ s.freelist
  tables_eq : tables s'.mem root = tables s.mem root
  exhausted : s'.exhausted = s.exhausted

omit [KernelImage] in
/-- A small number of pages survives the narrowing to `int`. -/
theorem toUInt64_toInt32 {n : ℕ} (h : n < 2 ^ 31) : toUInt64 (toInt32 n) = n := by
  have hint : toInt32 n = n := by
    rw [toInt32, BitVec.toInt_eq_toNat_of_msb]
    · rw [BitVec.toNat_ofNat]
      omega
    · rw [BitVec.msb_eq_false_iff_two_mul_lt, BitVec.toNat_ofNat]
      omega
  rw [hint, toUInt64]
  omega

/-- Nothing is removed when the size does not shrink by a page. -/
theorem dealloced_refl (h : SpaceIn s root) (hle : pageCount oldsz ≤ pageCount newsz) {r : ℕ}
    (hr : r = min oldsz newsz) : Dealloced root oldsz newsz s r s where
  result := hr
  step := SpaceStep.refl h
  leaf_eq vpn := by rw [removed, Nat.sub_eq_zero_of_le hle, without_zero]
  same _ _ _ := rfl
  freelist := by
    rw [Nat.sub_eq_zero_of_le hle]
    rfl
  tables_eq := rfl
  exhausted := rfl

/-- Shrinking a process unmaps and frees the pages above its new size. -/
theorem uvmdealloc_spec (h : ProcSpace s root tf) (hsz : oldsz ≤ TRAPFRAME) :
    Ensures (uvmdealloc root oldsz newsz) s (Dealloced root oldsz newsz s) := by
  have hcount := pageCount_le hsz
  have hsz' : oldsz ≤ 2 ^ 38 - 4096 - 4096 := hsz
  change pageCount oldsz ≤ 2 ^ 26 - 2 at hcount
  rw [uvmdealloc]
  by_cases hle : oldsz ≤ newsz
  · rw [if_pos hle, ensures_pure]
    refine dealloced_refl h.within ?_ (by omega)
    rw [pageCount, pageCount]
    omega
  · rw [if_neg hle, PGROUNDUP_eq (by omega), PGROUNDUP_eq (by omega)]
    by_cases hpages : pageCount newsz * 4096 < pageCount oldsz * 4096
    · have hn : (pageCount oldsz * 4096 - pageCount newsz * 4096) / 4096 =
          pageCount oldsz - pageCount newsz := by omega
      have hbase : pageCount newsz * 4096 / 4096 = pageCount newsz := by omega
      rw [if_pos hpages]
      change Ensures (uvmunmap root _ (toUInt64 (toInt32 (_ / 4096))) true >>= _) s _
      rw [hn, toUInt64_toInt32 (by omega), ensures_bind]
      refine Ensures.mono (uvmunmap_space h.within (by omega) (by change _ ≤ 2 ^ 38; omega) ?_) ?_
      · intro vpn w hlow hhigh hw
        rw [hbase] at hhigh
        refine h.not_tramp ?_ hw
        change vpn ≠ 2 ^ 26 - 1
        omega
      · rintro _ s' ⟨hstep, hshrunk⟩
        rw [hbase] at hshrunk
        rw [ensures_pure]
        refine ⟨by omega, hstep, hshrunk.leaf_eq, ?_, hshrunk.freelist, hshrunk.tables_eq, hshrunk.exhausted⟩
        intro x ht hx
        refine hshrunk.frame x ht ?_
        rw [freedPages, if_pos rfl, List.mem_reverse, mem_leafPages]
        rintro ⟨vpn, w, hlow, hhigh, hw, hwx⟩
        exact hx vpn w hlow (by omega) hw hwx
    · rw [if_neg hpages, ensures_pure]
      exact dealloced_refl h.within (by omega) (by omega)

end Dealloc

end Xv6.Vm
