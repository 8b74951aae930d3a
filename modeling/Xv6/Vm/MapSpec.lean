import Xv6.Vm.WalkSpec

/-!
# What `mappages` does

`mappages` extends the map of a page table by entries for consecutive pages, or by a prefix of them
if a table cannot be allocated.
-/

namespace Xv6.Vm

open Function Library

/-- A map of leaf entries extended by `k` entries from page number `base` on. -/
def extend (entries : ℕ → Option ℕ) (base k : ℕ) (word : ℕ → ℕ) : ℕ → Option ℕ :=
  fun vpn => if base ≤ vpn ∧ vpn < base + k then some (word (vpn - base)) else entries vpn

@[simp] theorem extend_zero (entries : ℕ → Option ℕ) (base : ℕ) (word : ℕ → ℕ) :
    extend entries base 0 word = entries := by
  funext vpn
  rw [extend, if_neg (by omega)]

/-- An extension is its first entry followed by the rest. -/
theorem extend_succ (entries : ℕ → Option ℕ) (base k : ℕ) (word : ℕ → ℕ) :
    extend (update entries base (some (word 0))) (base + 1) k (fun i => word (i + 1)) =
      extend entries base (k + 1) word := by
  funext vpn
  by_cases hbase : vpn = base
  · subst hbase
    simp [extend]
  · by_cases hin : base + 1 ≤ vpn ∧ vpn < base + 1 + k
    · rw [extend, extend, if_pos hin, if_pos (by omega), show vpn - (base + 1) + 1 = vpn - base by omega]
    · rw [extend, extend, if_neg hin, if_neg (by omega), update_of_ne hbase]

/-- One new entry. -/
theorem extend_one (entries : ℕ → Option ℕ) (base : ℕ) (word : ℕ → ℕ) :
    extend entries base 1 word = update entries base (some (word 0)) := by
  have h := extend_succ entries base 0 word
  rw [extend_zero] at h
  exact h.symm

section WriteLeaf

variable {mem : ℕ → Page} {root t vpn : ℕ} (hu : TreeOk mem root)
  (ht : leafTable mem root vpn = some t)

include hu ht

/-- The tables above the leaf level keep their entries when a leaf entry is written. -/
theorem upper_setPte_leaf (value : ℕ) {path : List ℕ} {u : ℕ} (hlen : path.length ≤ 1) :
    follow (child (setPte mem t (vpn % 512) value)) root path = some u ↔
      follow (child mem) root path = some u := by
  rw [child_setPte (Nat.mod_lt _ (by decide)),
    follow_setLink_elsewhere hu (le_of_eq (pagePath_length vpn)) ht _ (by omega)]
  intro hpre
  have hle := hpre.length_le
  simp only [List.length_append, pagePath_length, List.length_singleton] at hle
  omega

/-- A table above the leaf level is not a table with leaf entries. -/
theorem upper_ne_leafTable (path : List ℕ) {u : ℕ} (hlen : path.length ≤ 1)
    (hpath : follow (child mem) root path = some u) : u ≠ t := by
  rintro rfl
  have heq := congrArg List.length (hu path (pagePath vpn) u (by omega) (by simp) hpath ht)
  rw [pagePath_length] at heq
  omega

theorem Pointers.setPte_leaf (hp : Pointers mem root) (value : ℕ) :
    Pointers (setPte mem t (vpn % 512) value) root := by
  intro path u i hlen hpath
  rw [upper_setPte_leaf hu ht value hlen] at hpath
  have hne := upper_ne_leafTable hu ht path hlen hpath
  rw [pteAt_setPte mem (Nat.mod_lt _ (by decide)), if_neg fun h => hne h.1]
  exact hp path u i hlen hpath

theorem Low.setPte_leaf (hl : Low mem root) (value : ℕ) : Low (setPte mem t (vpn % 512) value) root := by
  intro i hi
  have hne := upper_ne_leafTable hu ht [] (by simp) (follow_nil _ root)
  rw [child, pteAt_setPte mem (Nat.mod_lt _ (by decide)), if_neg fun h => hne h.1]
  exact hl i hi

end WriteLeaf

variable {s : Phys}

/-- Writing a leaf entry that does not lead to a table extends the tree by no table. -/
theorem grown_setPte_leaf {root t vpn : ℕ} (value : ℕ) (hu : TreeOk s.mem root)
    (ht : leafTable s.mem root vpn = some t) (hvpn : vpn < 2 ^ 27)
    (hv : ∀ x, linkOf (value % 2 ^ 64) = some x → x ∉ tables s.mem root) :
    Grown root s { s with mem := setPte s.mem t (vpn % 512) value } []
      (update (leaf s.mem root) vpn (validPte (value % 2 ^ 64))) where
  freelist := rfl
  tree := TreeOk.setPte_leaf hu ht hv
  tables_iff x := by
    rw [tables_setPte_leaf hu ht]
    simp
  leaf_eq vpn' := by
    rw [leaf_setPte_leaf hu ht hvpn, update_apply]
  frame x hx _ := setPte_of_ne s.mem _ fun h => hx (h ▸ leafTable_mem_tables ht)
  pointers hp := hp.setPte_leaf hu ht value
  low hl := hl.setPte_leaf hu ht value

/-- The entries that `mappages` writes for the pages from `pa` on. -/
def mapWord (pa perm i : ℕ) : ℕ := mkPte ((pa + i * PGSIZE) % UINT64) perm % UINT64

theorem mapWord_succ (pa perm i : ℕ) : mapWord pa perm (i + 1) = mapWord ((pa + PGSIZE) % UINT64) perm i := by
  have harith : (pa + (i + 1) * 4096) % 2 ^ 64 = ((pa + 4096) % 2 ^ 64 + i * 4096) % 2 ^ 64 := by
    omega
  rw [mapWord, mapWord]
  change mkPte ((pa + (i + 1) * 4096) % 2 ^ 64) perm % _ = _
  rw [harith]

theorem mapWord_odd (pa perm i : ℕ) : mapWord pa perm i % 2 = 1 := by
  have h := mkPte_odd ((pa + i * PGSIZE) % UINT64) perm
  rw [mapWord]
  change _ % 2 ^ 64 % 2 = 1
  omega

variable {pa : ℕ}

/-- The first entry for a 64-bit address is the entry of that address. -/
theorem mapWord_zero (hpa : pa < UINT64) (perm : ℕ) : mapWord pa perm 0 = mkPte pa perm % UINT64 := by
  rw [mapWord, Nat.zero_mul, Nat.add_zero, Nat.mod_eq_of_lt hpa]

variable [KernelImage]

/-- What `mappages` has done to the pages from page number `base` on. -/
structure MapOutcome (root base n : ℕ) (word : ℕ → ℕ) (s : Phys) (r : ℤ) (s' : Phys)
    (taken : List ℕ) (k : ℕ) : Prop where
  grown : Grown root s s' taken (extend (leaf s.mem root) base k word)
  result : (r = 0 ∧ k = n ∧ s'.exhausted = s.exhausted) ∨
    (r = -1 ∧ k < n ∧ s'.freelist = [] ∧ s'.exhausted = true)

section Mappages

variable {root perm : ℕ}

/-- The loop of `mappages`. -/
theorem mappagesLoop_spec (n a pa : ℕ) (s : Phys) (hva : a % 4096 = 0)
    (hmax : a + n * 4096 ≤ MAXVA) (hpa : pa < UINT64) (hu : TreeOk s.mem root)
    (hf : FreeOk s.freelist) (ha : Apart s.mem root s.freelist)
    (hnone : ∀ i < n, leaf s.mem root (a / 4096 + i) = none)
    (hout : ∀ i < n, PTE2PA (mapWord pa perm i) ∉ tables s.mem root ∧
      PTE2PA (mapWord pa perm i) ∉ s.freelist) :
    Ensures (mappagesLoop root perm n a pa) s fun r s' =>
      ∃ taken k, MapOutcome root (a / 4096) n (mapWord pa perm) s r s' taken k := by
  induction n generalizing a pa s with
  | zero =>
    rw [mappagesLoop, ensures_pure]
    refine ⟨[], 0, ?_, .inl ⟨rfl, rfl, rfl⟩⟩
    rw [extend_zero]
    exact Grown.refl hu rfl rfl
  | succ n ih =>
    have hmax' : a + (n + 1) * 4096 ≤ 2 ^ 38 := hmax
    rw [mappagesLoop, ensures_bind]
    refine Ensures.mono (walk_true_spec (by change a < 2 ^ 38; omega) hu hf ha) ?_
    rintro r s₁ ⟨⟨taken, hgrown⟩, hfailed, hfound⟩
    cases r with
    | none =>
      obtain ⟨hnil, hex⟩ := hfailed rfl
      rw [ensures_pure]
      refine ⟨taken, 0, ?_, .inr ⟨rfl, by omega, hnil, hex⟩⟩
      rw [extend_zero]
      exact hgrown
    | some pte =>
      obtain ⟨htable, hidx, hex⟩ := hfound pte rfl
      -- the entry is free, so it is written
      have hleaf : leaf s₁.mem root (a / 4096) = none := by
        rw [hgrown.leaf_eq]
        exact hnone 0 (by omega)
      have hinvalid : hasFlag (pteAt s₁.mem pte.table pte.idx) PTE_V = false := by
        rw [leaf_of_lt (by omega), htable] at hleaf
        change validPte (pteAt s₁.mem pte.table (a / 4096 % 512)) = none at hleaf
        rw [← hidx, validPte] at hleaf
        split at hleaf
        · cases hleaf
        · next h => exact Bool.eq_false_iff.2 h
      simp only [ensures_bind, ensures_readPte, hinvalid, Bool.false_eq_true, if_false, ensures_writePte]
      rw [hidx]
      have hlink : linkOf (mkPte pa perm % 2 ^ 64) = some (PTE2PA (mapWord pa perm 0)) := by
        rw [← linkOf_of_odd (mapWord_odd pa perm 0), mapWord_zero hpa]
      have hout₁ : ∀ i < n + 1, PTE2PA (mapWord pa perm i) ∉ tables s₁.mem root ∧
          PTE2PA (mapWord pa perm i) ∉ s₁.freelist := by
        intro i hi
        obtain ⟨htab, hfree⟩ := hout i hi
        rw [hgrown.freelist, List.mem_append, not_or] at hfree
        exact ⟨fun h => ((hgrown.tables_iff _).1 h).elim htab hfree.1, hfree.2⟩
      have hwrite := grown_setPte_leaf (mkPte pa perm) hgrown.tree htable (by omega) (by
        intro x hx
        rw [hlink] at hx
        rw [← Option.some.inj hx]
        exact (hout₁ 0 (by omega)).1)
      have hvalid : validPte (mkPte pa perm % 2 ^ 64) = some (mapWord pa perm 0) := by
        rw [← validPte_of_odd (mapWord_odd pa perm 0), mapWord_zero hpa]
      rw [hvalid, funext hgrown.leaf_eq] at hwrite
      have hnext := hgrown.trans hwrite
      rw [List.append_nil] at hnext
      have hdiv : (a + 4096) / 4096 = a / 4096 + 1 := by omega
      refine Ensures.mono (ih (a + 4096) ((pa + PGSIZE) % UINT64) _ (by omega)
        (by change a + 4096 + n * 4096 ≤ 2 ^ 38; omega) (Nat.mod_lt _ (by decide)) hnext.tree
        (hnext.freeOk hf) ?_ ?_ ?_) ?_
      · refine hnext.apart hf.nodup ha ?_
        intro vpn w hw
        rw [update_apply] at hw
        split_ifs at hw
        · rw [← Option.some.inj hw]
          exact .inr (hout 0 (by omega)).2
        · exact .inl hw
      · intro i hi
        rw [hnext.leaf_eq, hdiv, update_of_ne (by omega), add_assoc]
        exact hnone (1 + i) (by omega)
      · intro i hi
        rw [← mapWord_succ]
        refine ⟨fun h => ?_, (hout₁ (i + 1) (by omega)).2⟩
        rw [hnext.tables_iff, ← hgrown.tables_iff] at h
        exact (hout₁ (i + 1) (by omega)).1 h
      · rintro r s' ⟨taken', k, hgrown', hresult⟩
        change Grown root _ s' taken' (extend _ ((a + 4096) / 4096) k _) at hgrown'
        have hshift : mapWord ((pa + PGSIZE) % UINT64) perm = fun i => mapWord pa perm (i + 1) :=
          funext fun i => (mapWord_succ pa perm i).symm
        rw [funext hnext.leaf_eq, hdiv, hshift, extend_succ] at hgrown'
        refine ⟨taken ++ taken', k + 1, hnext.trans hgrown', ?_⟩
        rcases hresult with ⟨hr, hk, hex'⟩ | ⟨hr, hk, hnil, hex'⟩
        · exact .inl ⟨hr, by omega, hex'.trans hex⟩
        · exact .inr ⟨hr, by omega, hnil, hex'⟩

variable {va : ℕ}

/-- `mappages` maps the pages from `va` on, or a prefix of them if memory runs out. -/
theorem mappages_spec {size : ℕ} (hva : va % 4096 = 0) (hsize : size % 4096 = 0)
    (hpos : 0 < size) (hmax : va + size ≤ MAXVA) (hpa : pa < UINT64) (hu : TreeOk s.mem root)
    (hf : FreeOk s.freelist) (ha : Apart s.mem root s.freelist)
    (hnone : ∀ i < size / 4096, leaf s.mem root (va / 4096 + i) = none)
    (hout : ∀ i < size / 4096, PTE2PA (mapWord pa perm i) ∉ tables s.mem root ∧
      PTE2PA (mapWord pa perm i) ∉ s.freelist) :
    Ensures (mappages root va size pa perm) s fun r s' =>
      ∃ taken k, MapOutcome root (va / 4096) (size / 4096) (mapWord pa perm) s r s' taken k := by
  rw [mappages, if_neg (not_not.2 hva), if_neg (not_not.2 hsize), if_neg (by omega)]
  refine mappagesLoop_spec (size / 4096) va pa s hva ?_ hpa hu hf ha hnone hout
  have hround : size / 4096 * 4096 = size := by omega
  rw [hround]
  exact hmax

omit [KernelImage] in
/-- One page is mapped exactly if there are pages for the missing tables. -/
theorem mappages_missing (hnodup : s.freelist.Nodup) (hout : ∀ x ∈ tables s.mem root, x ∉ s.freelist) :
    Allows (mappages root va PGSIZE pa perm) s fun r s' =>
      (s.freelist.length < missing s.mem va 2 root → r = -1) ∧
      (missing s.mem va 2 root ≤ s.freelist.length →
        s'.freelist.length + missing s.mem va 2 root = s.freelist.length ∧ r = 0) := by
  by_cases hva : va % PGSIZE = 0
  · rw [mappages, if_neg (not_not.2 hva), if_neg (by decide), if_neg (by decide)]
    change Allows (mappagesLoop root perm (0 + 1) va pa) s _
    rw [mappagesLoop, walk, allows_bind]
    split_ifs with hmax
    · exact allows_throw _ _ _
    refine (walkFrom_missing va 2 root s hnodup hout).allows.mono ?_
    intro r s₁ hr
    cases r with
    | none =>
      rw [allows_pure]
      exact ⟨fun _ => rfl, fun hle => absurd rfl (hr.2 hle).1⟩
    | some pte =>
      change Allows (readPte pte >>= _) s₁ _
      rw [allows_bind]
      apply Ensures.allows
      rw [ensures_readPte]
      split_ifs with hv
      · exact allows_throw _ _ _
      · rw [allows_bind]
        apply Ensures.allows
        rw [ensures_writePte, mappagesLoop, allows_pure]
        exact ⟨fun hlt => absurd (hr.1 hlt) (by simp), fun hle => ⟨(hr.2 hle).2, rfl⟩⟩
  · rw [mappages, if_pos hva]
    exact allows_throw _ _ _

/-- One page is mapped at a free address, exactly if there are pages for the missing tables. -/
theorem mappages_one (hva : va % 4096 = 0) (hmax : va < MAXVA) (hperm : perm < 1024) (haligned : pa % 4096 = 0)
    (hpa : pa < 2 ^ 56) (hu : TreeOk s.mem root) (hf : FreeOk s.freelist) (ha : Apart s.mem root s.freelist)
    (hnone : leaf s.mem root (va / 4096) = none) (htable : pa ∉ tables s.mem root) (hfree : pa ∉ s.freelist) :
    Ensures (mappages root va PGSIZE pa perm) s fun r s' => ∃ taken,
      (r = 0 ∧ Grown root s s' taken
          (update (leaf s.mem root) (va / 4096) (some (mkPte pa perm))) ∧
        s'.exhausted = s.exhausted ∧
        s'.freelist.length + missing s.mem va 2 root = s.freelist.length) ∨
      (r = -1 ∧ Grown root s s' taken (leaf s.mem root) ∧ s'.freelist = [] ∧ s'.exhausted = true ∧
        s.freelist.length < missing s.mem va 2 root) := by
  have hmax' : va < 2 ^ 38 := hmax
  have h64 : pa < UINT64 := lt_trans hpa (by decide)
  have hword : mapWord pa perm 0 = mkPte pa perm := by
    rw [mapWord_zero h64, Nat.mod_eq_of_lt (mkPte_lt hpa hperm)]
  have hzero : ∀ i < 4096 / 4096, i = 0 := by
    intro i hi
    omega
  refine ((mappages_spec hva (by decide) (by decide) (by change va + 4096 ≤ 2 ^ 38; omega) h64 hu hf ha
    ?_ ?_).and_allows (mappages_missing hf.nodup fun x hx hx' => ha x hx' (reach_mono _ (by decide) _ hx))).mono ?_
  · intro i hi
    rw [hzero i hi, Nat.add_zero]
    exact hnone
  · intro i hi
    rw [hzero i hi, hword, PTE2PA_mkPte haligned hpa hperm]
    exact ⟨htable, hfree⟩
  rintro r s' ⟨⟨taken, k, hgrown, hresult⟩, hroom⟩
  obtain ⟨rfl, rfl, hex⟩ | ⟨rfl, hk, hnil, hex⟩ := hresult
  · change Grown root s s' taken (extend _ (va / 4096) 1 _) at hgrown
    rw [extend_one, hword] at hgrown
    have hle := not_lt.1 fun hlt => absurd (hroom.1 hlt) (by decide)
    exact ⟨taken, .inl ⟨rfl, hgrown, hex, (hroom.2 hle).1⟩⟩
  · have hk0 : k = 0 := by
      change k < 1 at hk
      omega
    rw [hk0, extend_zero] at hgrown
    have hlt := not_le.1 fun hle => absurd (hroom.2 hle).2 (by decide)
    exact ⟨taken, .inr ⟨rfl, hgrown, hnil, hex, hlt⟩⟩

end Mappages

end Xv6.Vm
