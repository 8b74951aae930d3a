import Xv6.Vm.UnmapSpec

/-!
# A page table is a finite map

The valid leaf entries of a page table form a partial function from pages to physical pages and
flags. `mappages` extends this function, `uvmunmap` restricts it, and the lookups read it.
-/

namespace Xv6.Vm

open Library

/-- The page and the flags of an entry. -/
def entryOf (w : ℕ) : ℕ × ℕ := (PTE2PA w, PTE_FLAGS w)

/-- What `walkaddr` makes of a mapping: user pages have their address, all others zero. -/
def userAddress : Option (ℕ × ℕ) → ℕ
  | some (pa, flags) => if hasFlag flags PTE_U then pa else 0
  | none => 0

/-- The function of a page table is given by its leaf entries. -/
theorem translation_eq (mem : ℕ → Page) (root va : ℕ) :
    translation mem root va = (leaf mem root (va / 4096)).map entryOf := rfl

/-- The low flags of an entry are those of its flag bits. -/
theorem hasFlag_PTE_FLAGS (w : ℕ) {k : ℕ} (hk : k < 10) : hasFlag (PTE_FLAGS w) (2 ^ k) = hasFlag w (2 ^ k) := by
  rw [hasFlag_two_pow, hasFlag_two_pow, PTE_FLAGS_eq]
  change (w % 2 ^ 10).testBit k = _
  rw [Nat.testBit_mod_two_pow]
  simp [hk]

/-- The entries made for page-aligned physical addresses lead to these addresses with the requested
permissions. -/
theorem entryOf_mapWord {pa perm i : ℕ} (hpa : pa % 4096 = 0) (hlt : pa + i * 4096 < 2 ^ 56)
    (hperm : perm < 1024) : entryOf (mapWord pa perm i) = (pa + i * 4096, perm ||| PTE_V) := by
  have hmod : (pa + i * PGSIZE) % UINT64 = pa + i * 4096 := by
    change (pa + i * 4096) % 2 ^ 64 = _
    omega
  rw [entryOf, mapWord, hmod, Nat.mod_eq_of_lt (mkPte_lt hlt hperm), PTE2PA_mkPte (by omega) hlt hperm,
    PTE_FLAGS_mkPte hperm]

section Lookup

variable {va : ℕ} (root : ℕ) (s : Phys)

/-- The entry that `walk` finds is the entry of the function. -/
theorem walk_translation (hva : va < MAXVA) :
    Ensures (walk root va false) s fun r s' => s' = s ∧
      (r.bind fun pte => (validPte (pteAt s.mem pte.table pte.idx)).map entryOf) =
        translation s.mem root va := by
  have hvpn : va / 4096 < 2 ^ 27 := by
    have : va < 2 ^ 38 := hva
    omega
  rw [ensures_walk_false hva, translation_eq, leaf_of_lt hvpn, ← PX_zero_eq]
  refine ⟨rfl, ?_⟩
  cases leafTable s.mem root (va / 4096) <;> rfl

/-- `walkaddr` gives the address of user pages. -/
theorem walkaddr_translation (va : ℕ) :
    Ensures (walkaddr root va) s fun r s' => s' = s ∧
      r = if va < MAXVA then userAddress (translation s.mem root va) else 0 := by
  rw [walkaddr]
  by_cases hva : va < MAXVA
  · have hvpn : va / 4096 < 2 ^ 27 := by
      have : va < 2 ^ 38 := hva
      omega
    rw [if_neg (not_le.2 hva), if_pos hva, ensures_bind, ensures_walk_false hva, translation_eq,
      leaf_of_lt hvpn, ← PX_zero_eq]
    cases leafTable s.mem root (va / 4096) with
    | none => exact (ensures_pure _ _ _).2 ⟨rfl, rfl⟩
    | some t =>
      simp only [Option.map_some, ensures_bind, ensures_readPte, Option.bind_some]
      have hU : hasFlag (PTE_FLAGS (pteAt s.mem t (PX 0 va))) PTE_U =
          hasFlag (pteAt s.mem t (PX 0 va)) PTE_U := hasFlag_PTE_FLAGS _ (k := 4) (by decide)
      cases hv : hasFlag (pteAt s.mem t (PX 0 va)) PTE_V
      · simp [validPte, hv, userAddress]
      · cases hu : hasFlag (pteAt s.mem t (PX 0 va)) PTE_U
        · simp [validPte, hv, userAddress, entryOf, hU, hu]
        · simp [validPte, hv, userAddress, entryOf, hU, hu]
  · rw [if_pos (not_lt.1 hva), if_neg hva, ensures_pure]
    exact ⟨rfl, rfl⟩

/-- `ismapped` tells whether the function is defined. -/
theorem ismapped_translation (hva : va < MAXVA) :
    Ensures (ismapped root va) s fun r s' => s' = s ∧ r = (translation s.mem root va).isSome := by
  have hvpn : va / 4096 < 2 ^ 27 := by
    have : va < 2 ^ 38 := hva
    omega
  rw [ismapped, ensures_bind, ensures_walk_false hva, translation_eq, leaf_of_lt hvpn, ← PX_zero_eq]
  cases leafTable s.mem root (va / 4096) with
  | none => exact (ensures_pure _ _ _).2 ⟨rfl, rfl⟩
  | some t =>
    simp only [Option.map_some, ensures_bind, ensures_readPte, Option.bind_some, ensures_pure,
      Option.isSome_map, true_and]
    rw [validPte]
    cases hasFlag (pteAt s.mem t (PX 0 va)) PTE_V <;> rfl

end Lookup

/-- The address lies in the `k` pages from `va` on exactly when its page number does. -/
theorem mem_pages_iff {va k a : ℕ} (hva : va % 4096 = 0) :
    (va / 4096 ≤ a / 4096 ∧ a / 4096 < va / 4096 + k) ↔ va ≤ a ∧ a < va + k * 4096 := by
  omega

variable [KernelImage]

/-- The operations of a page table are those of the finite map that it denotes. -/
theorem page_table_finite_map {s : Phys} {root va : ℕ} (hu : TreeOk s.mem root)
    (hf : FreeOk s.freelist) (ha : Apart s.mem root s.freelist) (hva : va % PGSIZE = 0) :
    (∀ size pa perm, size % PGSIZE = 0 → 0 < size → va + size ≤ MAXVA → pa < UINT64 →
      (∀ a, va ≤ a → a < va + size → translation s.mem root a = none) →
      (∀ i < size / PGSIZE, (entryOf (mapWord pa perm i)).1 ∉ tables s.mem root ∧
        (entryOf (mapWord pa perm i)).1 ∉ s.freelist) →
      Ensures (mappages root va size pa perm) s fun r s' => TreeOk s'.mem root ∧
        ∃ k, ((r = 0 ∧ k = size / PGSIZE) ∨ (r = -1 ∧ k < size / PGSIZE)) ∧
          ∀ a < MAXVA, translation s'.mem root a =
            if va ≤ a ∧ a < va + k * PGSIZE then
              some (entryOf (mapWord pa perm ((a - va) / PGSIZE)))
            else translation s.mem root a) ∧
    (∀ pa perm i, pa % PGSIZE = 0 → pa + i * PGSIZE < 2 ^ 56 → perm < 1024 →
      entryOf (mapWord pa perm i) = (pa + i * PGSIZE, perm ||| PTE_V)) ∧
    (∀ npages (doFree : Bool), va + npages * PGSIZE ≤ MAXVA →
      (doFree → ∀ a pa flags, va ≤ a → a < va + npages * PGSIZE →
        translation s.mem root a = some (pa, flags) → PageAddress pa) →
      Ensures (uvmunmap root va npages doFree) s fun _ s' => TreeOk s'.mem root ∧
        ∀ a < MAXVA, translation s'.mem root a =
          if va ≤ a ∧ a < va + npages * PGSIZE then none else translation s.mem root a) ∧
    (∀ a < MAXVA,
      Ensures (walk root a false) s (fun r s' => s' = s ∧
        (r.bind fun pte => (validPte (pteAt s.mem pte.table pte.idx)).map entryOf) =
          translation s.mem root a) ∧
      Ensures (walk root a true) s (fun r s' => TreeOk s'.mem root ∧
        (∀ b, translation s'.mem root b = translation s.mem root b) ∧
        ∀ pte, r = some pte → (validPte (pteAt s'.mem pte.table pte.idx)).map entryOf =
          translation s.mem root a) ∧
      Ensures (ismapped root a) s (fun r s' => s' = s ∧
        r = (translation s.mem root a).isSome)) ∧
    (∀ a, Ensures (walkaddr root a) s fun r s' => s' = s ∧
      r = if a < MAXVA then userAddress (translation s.mem root a) else 0) := by
  have hva' : va % 4096 = 0 := hva
  refine ⟨?_, fun pa perm i => entryOf_mapWord, ?_, ?_, fun a => walkaddr_translation root s a⟩
  · intro size pa perm hsize hpos hmax hpa hnone hout
    refine Ensures.mono (mappages_spec hva hsize hpos hmax hpa hu hf ha ?_ hout) ?_
    · intro i hi
      have hzero := hnone (va + i * 4096) (by omega) (by omega)
      rw [translation_eq, Option.map_eq_none_iff] at hzero
      rwa [show (va + i * 4096) / 4096 = va / 4096 + i by omega] at hzero
    · rintro r s' ⟨taken, k, hgrown, hresult⟩
      refine ⟨hgrown.tree, k, ?_, ?_⟩
      · rcases hresult with ⟨hr, hk, -⟩ | ⟨hr, hk, -⟩
        · exact .inl ⟨hr, hk⟩
        · exact .inr ⟨hr, hk⟩
      · intro a _
        rw [translation_eq, hgrown.leaf_eq, extend]
        by_cases hin : va ≤ a ∧ a < va + k * 4096
        · rw [if_pos hin, if_pos ((mem_pages_iff hva).2 hin), show a / 4096 - va / 4096 =
            (a - va) / 4096 by omega]
          rfl
        · rw [if_neg hin, if_neg (mt (mem_pages_iff hva).1 hin)]
          rfl
  · intro npages doFree hmax hvalid
    refine Ensures.mono (uvmunmap_spec hva hmax hu ?_) ?_
    · intro hd i hi w hw
      have hin : va + i * 4096 < va + npages * 4096 := by omega
      refine hvalid hd (va + i * 4096) (PTE2PA w) (PTE_FLAGS w) (by omega) hin ?_
      rw [translation_eq, show (va + i * 4096) / 4096 = va / 4096 + i by omega, hw]
      rfl
    · intro _ s' hshrunk
      refine ⟨hshrunk.tree, ?_⟩
      intro a _
      rw [translation_eq, hshrunk.leaf_eq, without]
      by_cases hin : va ≤ a ∧ a < va + npages * 4096
      · rw [if_pos hin, if_pos ((mem_pages_iff hva).2 hin)]
        rfl
      · rw [if_neg hin, if_neg (mt (mem_pages_iff hva).1 hin)]
        rfl
  · intro a hmax
    refine ⟨walk_translation root s hmax, ?_, ismapped_translation root s hmax⟩
    refine Ensures.mono (walk_true_spec hmax hu hf ha) ?_
    rintro r s' ⟨⟨taken, hgrown⟩, -, hfound⟩
    have hsame : ∀ b, translation s'.mem root b = translation s.mem root b := by
      intro b
      rw [translation_eq, hgrown.leaf_eq]
      rfl
    refine ⟨hgrown.tree, hsame, ?_⟩
    intro pte hpte
    obtain ⟨htable, hidx, -⟩ := hfound pte hpte
    have hvpn : a / 4096 < 2 ^ 27 := by
      have : a < 2 ^ 38 := hmax
      omega
    rw [← hsame, translation_eq, leaf_of_lt hvpn, htable, hidx]
    rfl

omit [KernelImage] in
/-- An empty page table and two free pages: a page is mapped at address 0 and then unmapped and freed. -/
theorem page_table_finite_map_unmap :
    let s : Phys := ⟨fun _ => filled 0, [0x80100000, 0x80101000], false⟩
    Ensures (mappages 0x80102000 0 PGSIZE 0x80103000 (PTE_R ||| PTE_U)) s fun r s' => r = 0 ∧
      translation s'.mem 0x80102000 0 = some (0x80103000, PTE_R ||| PTE_U ||| PTE_V) ∧
      Ensures (@uvmunmap linkedImage 0x80102000 0 1 true) s' fun _ s'' => TreeOk s''.mem 0x80102000 ∧
        ∀ a < MAXVA, translation s''.mem 0x80102000 a = none := by
  intro s
  let _ : KernelImage := linkedImage
  have hempty : ∀ t i, child s.mem t i = none := by
    intro t i
    have hzero : pteAt s.mem t i = 0 := by
      rw [pteAt]
      exact getWord_zero 8 i
    rw [child, hzero, linkOf_zero]
  have hnone : ∀ vpn, leaf s.mem 0x80102000 vpn = none := leaf_of_empty (hempty _)
  have htables : ∀ x ∈ tables s.mem 0x80102000, x = 0x80102000 := by
    intro x hx
    rwa [tables_of_empty (hempty _)] at hx
  have htree := treeOk_of_empty (hempty 0x80102000)
  have hfree : FreeOk s.freelist := ⟨by decide, by decide⟩
  have hapart : Apart s.mem 0x80102000 s.freelist := by
    intro x hx hmem
    rcases mem_reach_three.1 hmem with htable | ⟨vpn, w, hw, -⟩
    · rw [htables x htable] at hx
      exact absurd hx (by decide)
    · rw [hnone] at hw
      cases hw
  have hdata : 0x80103000 ∉ tables s.mem 0x80102000 := fun hmem => absurd (htables _ hmem) (by decide)
  refine (mappages_one (by decide) (by decide) (by decide) (by decide) (by decide) htree hfree hapart (hnone 0)
    hdata (by decide)).mono ?_
  rintro r s' ⟨taken, ⟨rfl, hgrown, -⟩ | ⟨-, -, -, -, hfew⟩⟩
  · have hentry : entryOf (mkPte 0x80103000 (PTE_R ||| PTE_U)) = (0x80103000, PTE_R ||| PTE_U ||| PTE_V) := by
      decide
    have hmapped : ∀ a, translation s'.mem 0x80102000 a =
        if a < PGSIZE then some (0x80103000, PTE_R ||| PTE_U ||| PTE_V) else none := by
      intro a
      rw [translation_eq, hgrown.leaf_eq, Function.update_apply, hnone, ← hentry]
      by_cases hlt : a < 4096
      · rw [if_pos (show a / 4096 = 0 / 4096 by omega), if_pos hlt]
        rfl
      · rw [if_neg (show a / 4096 ≠ 0 / 4096 by omega), if_neg hlt]
        rfl
    have hapart' : Apart s'.mem 0x80102000 s'.freelist := by
      refine hgrown.apart hfree.nodup hapart fun vpn w hw => .inr ?_
      rw [Function.update_apply, hnone] at hw
      split_ifs at hw
      cases hw
      decide
    have hmain := @page_table_finite_map _ s' 0x80102000 0 hgrown.tree (hgrown.freeOk hfree) hapart' rfl
    refine ⟨rfl, hmapped 0, (hmain.2.2.1 1 true (by decide) ?_).mono ?_⟩
    · intro _ a pa flags _ hlt hsome
      rw [hmapped, if_pos (by simpa using hlt)] at hsome
      cases hsome
      decide
    · intro _ s'' hunmapped
      refine ⟨hunmapped.1, fun a ha => ?_⟩
      rw [hunmapped.2 a ha, hmapped]
      simp
  · rw [missing_empty (hempty _)] at hfew
    exact absurd hfew (by decide)

end Xv6.Vm
