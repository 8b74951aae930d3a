import Xv6.Proc.ExecSafety

/-!
# Releasing a page table

`proc_freepagetable` takes the trampoline and the trapframe out of a page table and frees everything else:
the user pages below the size and the tables, each once.
-/

namespace Xv6

open Library Vm

section Release

variable [KernelImage] {root sz : ℕ} {s : Phys}

/-- The pages that a page table gives back: its tables and the pages of its user leaves. -/
def released (mem : ℕ → Page) (root sz : ℕ) : Set ℕ :=
  {x | x ∈ tables mem root ∨
    ∃ v w, v * PGSIZE < PGROUNDUP sz ∧ leaf mem root v = some w ∧ PTE2PA w = x}

omit [KernelImage] in
theorem below_size_iff (hsz : sz ≤ TRAPFRAME) (v : ℕ) : v * PGSIZE < PGROUNDUP sz ↔ v < pageCount sz := by
  rw [PGROUNDUP_eq (hsz.trans (by decide))]
  change v * 4096 < pageCount sz * 4096 ↔ _
  omega

/-- A leaf above the size gives nothing back. -/
theorem Vm.Space.not_released (hs : Space s.mem root) (hsz : sz ≤ TRAPFRAME) {v w : ℕ} (hv : tfVpn ≤ v)
    (hw : leaf s.mem root v = some w) : PTE2PA w ∉ released s.mem root sz := by
  rintro (htable | ⟨v', w', hv', hw', heq⟩)
  · exact hs.tree.leaf_not_mem_tables hw htable
  · have hsame := hs.inj v' v w' w hw' hw heq
    rw [below_size_iff hsz] at hv'
    have hbound := pageCount_le hsz
    omega

end Release

/-- A page table with the trampoline, the trapframe and any user pages below the size is freed: the user pages
and the tables are added to the free list, each once, and neither the trampoline nor the trapframe is. -/
theorem procFreepagetable_releases [KernelImage] (s : Phys) (root sz : ℕ) (hs : Space s.mem root)
    (htramp : (leaf s.mem root trampVpn).map PTE2PA = some KernelImage.trampoline)
    (hsz : sz ≤ TRAPFRAME)
    (honly : ∀ v w, leaf s.mem root v = some w →
      v * PGSIZE < PGROUNDUP sz ∨ v * PGSIZE = TRAPFRAME ∨ v * PGSIZE = TRAMPOLINE) :
    Ensures (procFreepagetable root sz) s fun _ s' => ∃ freed, s'.freelist = freed ++ s.freelist ∧
      freed.Nodup ∧ (∀ x, x ∈ freed ↔ x ∈ released s.mem root sz) ∧
      KernelImage.trampoline ∉ freed ∧ ∀ w, leaf s.mem root tfVpn = some w → PTE2PA w ∉ freed := by
  obtain ⟨wt, hwt, htrampoline⟩ := Option.map_eq_some_iff.1 htramp
  have huser : LowPages s.mem root := by
    intro v w hv hw heq
    have hsame := hs.inj v trampVpn w wt hw hwt (heq.trans htrampoline.symm)
    change v = 2 ^ 26 - 1 at hsame
    change v < 2 ^ 26 - 2 at hv
    omega
  have hrefl : Dropped root s s ∅ ∅ [] :=
    Dropped.refl hs (fun _ h => absurd h (Set.notMem_empty _)) (Set.empty_subset _)
  have hyields := procFreepagetable_dropped hs (Set.empty_subset _) hrefl hsz huser
  have hleaves : ∀ e : Panic, ¬ (e = .freewalkLeaf ∧
      ∃ v w, leaf s.mem root v = some w ∧ v < tfVpn ∧ v ∉ (∅ : Set ℕ) ∧ ¬ v < pageCount sz) := by
    rintro e ⟨-, v, w, hw, hv, -, hbig⟩
    obtain hbelow | htop | htop := honly v w hw
    · exact hbig ((below_size_iff hsz v).1 hbelow)
    · change v * 4096 = 2 ^ 38 - 4096 - 4096 at htop
      change v < 2 ^ 26 - 2 at hv
      omega
    · change v * 4096 = 2 ^ 38 - 4096 at htop
      change v < 2 ^ 26 - 2 at hv
      omega
  refine (hyields.ensures hleaves).mono ?_
  rintro _ s' ⟨-, freed, hfreed⟩
  have hmem : ∀ x, x ∈ freed ↔ x ∈ released s.mem root sz := by
    intro x
    rw [hfreed.mem_iff]
    constructor
    · rintro (htable | ⟨v, hv, w, hw, hx⟩)
      · exact .inl htable
      · obtain hv | ⟨hv, -⟩ := hv
        · exact absurd hv (Set.notMem_empty _)
        · exact .inr ⟨v, w, (below_size_iff hsz v).2 hv, hw, hx⟩
    · rintro (htable | ⟨v, w, hv, hw, hx⟩)
      · exact .inl htable
      · exact .inr ⟨v, .inr ⟨(below_size_iff hsz v).1 hv, Set.notMem_empty _⟩, w, hw, hx⟩
  refine ⟨freed, hfreed.freelist, hfreed.nodup, hmem, ?_, fun w hw => ?_⟩
  · rw [hmem, ← htrampoline]
    exact hs.not_released hsz (by decide) hwt
  · rw [hmem]
    exact hs.not_released hsz (le_refl _) hw

section Concrete

attribute [local instance] linkedImage

/-- The page table of a process that has touched one page of its heap. -/
theorem procFreepagetable_releases_heap : ∃ events k, Run Kernel.Guarded (bootKernel 40) events k ∧
    events.map (fun e => (e.proc, e.op)) = [(0, .sbrk 8192), (0, .store 5000 77)] ∧
    Ensures (procFreepagetable (k.proc 0).pagetable 8192) k.phys fun _ s' =>
      ∃ freed, s'.freelist = freed ++ k.phys.freelist ∧ freed.Nodup ∧
        ∀ x, x ∈ freed ↔ x ∈ released k.phys.mem (k.proc 0).pagetable 8192 := by
  obtain ⟨events, k, hrun, hops, -, hsz, hok, hplain, -⟩ := exists_touched_heap
  refine ⟨events, k, hrun, hops, ?_⟩
  have hspace := hok.space
  have hreleases := procFreepagetable_releases k.phys (k.proc 0).pagetable 8192 hspace.within.space
    (by rw [hspace.tramp, Option.map_some, PTE2PA_tramp]) (by decide) fun v w hw => by
      by_cases hv : v < tfVpn
      · have hbelow := hplain.below v w hw hv
        rw [hsz] at hbelow
        exact .inl ((below_size_iff (by decide) v).2 hbelow)
      · obtain rfl | rfl := (hspace.within.space.leaf_cases hw).resolve_left hv
        · exact .inr (.inl rfl)
        · exact .inr (.inr rfl)
  refine hreleases.mono ?_
  rintro _ s' ⟨freed, hfree, hnodup, hmem, -⟩
  exact ⟨freed, hfree, hnodup, hmem⟩

end Concrete

end Xv6
