import Xv6.Vm.MapSpec

/-!
# What `uvmunmap` does

`uvmunmap` removes the entries of a range of pages. It keeps all tables, and the pages it frees go
to the front of the free list, the last one first.
-/

namespace Xv6.Vm

open Function Library

/-- A map of leaf entries without those of `k` pages from page number `base` on. -/
def without (entries : ℕ → Option ℕ) (base k : ℕ) : ℕ → Option ℕ :=
  fun vpn => if base ≤ vpn ∧ vpn < base + k then none else entries vpn

@[simp] theorem without_zero (entries : ℕ → Option ℕ) (base : ℕ) : without entries base 0 = entries := by
  funext vpn
  rw [without, if_neg (by omega)]

/-- A restriction removes its first entry and then the rest. -/
theorem without_succ (entries : ℕ → Option ℕ) (base k : ℕ) :
    without (update entries base none) (base + 1) k = without entries base (k + 1) := by
  funext vpn
  by_cases hbase : vpn = base
  · subst hbase
    simp [without]
  · by_cases hin : base + 1 ≤ vpn ∧ vpn < base + 1 + k
    · rw [without, without, if_pos hin, if_pos (by omega)]
    · rw [without, without, if_neg hin, if_neg (by omega), update_of_ne hbase]

/-- The tree has kept its tables, has now the leaf entries `entries`, and the pages `freed` have
been put on the free list. -/
structure Shrunk (root : ℕ) (s s' : Phys) (freed : List ℕ) (entries : ℕ → Option ℕ) : Prop where
  freelist : s'.freelist = freed ++ s.freelist
  tree : TreeOk s'.mem root
  tables_eq : tables s'.mem root = tables s.mem root
  leaf_eq : ∀ vpn, leaf s'.mem root vpn = entries vpn
  frame : ∀ x, x ∉ tables s.mem root → x ∉ freed → s'.mem x = s.mem x
  exhausted : s'.exhausted = s.exhausted
  pointers : Pointers s.mem root → Pointers s'.mem root
  low : Low s.mem root → Low s'.mem root

section Unmap

variable {root : ℕ} {s : Phys}

theorem Shrunk.refl (h : TreeOk s.mem root) : Shrunk root s s [] (leaf s.mem root) where
  freelist := rfl
  tree := h
  tables_eq := rfl
  leaf_eq _ := rfl
  frame _ _ _ := rfl
  exhausted := rfl
  pointers h := h
  low h := h

variable {entries entries' : ℕ → Option ℕ}

theorem Shrunk.trans {s' s'' : Phys} {l l' : List ℕ} (h : Shrunk root s s' l entries)
    (h' : Shrunk root s' s'' l' entries') : Shrunk root s s'' (l' ++ l) entries' where
  freelist := by rw [h'.freelist, h.freelist, List.append_assoc]
  tree := h'.tree
  tables_eq := h'.tables_eq.trans h.tables_eq
  leaf_eq := h'.leaf_eq
  frame x hx hl := by
    rw [List.mem_append, not_or] at hl
    rw [h'.frame x (h.tables_eq ▸ hx) hl.1, h.frame x hx hl.2]
  exhausted := h'.exhausted.trans h.exhausted
  pointers hp := h'.pointers (h.pointers hp)
  low hl := h'.low (h.low hl)

theorem Pointers.congr {mem mem' : ℕ → Page} (hp : Pointers mem root)
    (h : ∀ t ∈ tables mem root, mem' t = mem t) : Pointers mem' root := by
  intro path t i hlen hpath
  rw [follow_congr (child_congr h) path (by omega)] at hpath
  rw [pteAt, h t ⟨path, by omega, hpath⟩, ← pteAt]
  exact hp path t i hlen hpath

theorem Low.congr {mem mem' : ℕ → Page} (hl : Low mem root)
    (h : ∀ t ∈ tables mem root, mem' t = mem t) : Low mem' root := by
  intro i hi
  rw [child_congr h root (root_mem_tables mem root)]
  exact hl i hi

/-- Freeing a page that is no table. -/
theorem shrunk_free {pa : ℕ} (hu : TreeOk s.mem root) (hpa : pa ∉ tables s.mem root) :
    Shrunk root s (s.free pa)
      [pa] (leaf s.mem root) := by
  have hsame : ∀ t ∈ tables s.mem root, update s.mem pa (filled 1) t = s.mem t := by
    intro t ht
    have hne : t ≠ pa := fun h => hpa (h ▸ ht)
    exact update_of_ne hne _ _
  exact
    { freelist := rfl
      tree := hu.congr hsame
      tables_eq := tables_congr hsame
      leaf_eq := leaf_congr hsame
      frame := fun x _ hx => update_of_ne (fun h => hx (List.mem_singleton.2 h)) _ _
      exhausted := rfl
      pointers := fun hp => hp.congr hsame
      low := fun hl => hl.congr hsame }

/-- Clearing a leaf entry. -/
theorem shrunk_clear {t vpn : ℕ} (hu : TreeOk s.mem root) (ht : leafTable s.mem root vpn = some t)
    (hvpn : vpn < 2 ^ 27) : Shrunk root s { s with mem := setPte s.mem t (vpn % 512) 0 } []
      (update (leaf s.mem root) vpn none) := by
  have hgrown := grown_setPte_leaf 0 hu ht hvpn fun x hx => nomatch hx
  exact
    { freelist := rfl
      tree := hgrown.tree
      tables_eq := tables_setPte_leaf hu ht 0
      leaf_eq := hgrown.leaf_eq
      frame := fun x hx _ => hgrown.frame x hx List.not_mem_nil
      exhausted := rfl
      pointers := hgrown.pointers
      low := hgrown.low }

/-- The pages that the leaf entries of `n` pages from `base` on lead to. -/
def leafPages (entries : ℕ → Option ℕ) : ℕ → ℕ → List ℕ
  | _, 0 => []
  | base, n + 1 => ((entries base).map PTE2PA).toList ++ leafPages entries (base + 1) n

/-- A page is in the list exactly when one of the entries leads to it. -/
theorem mem_leafPages {base n x : ℕ} :
    x ∈ leafPages entries base n ↔
      ∃ vpn w, base ≤ vpn ∧ vpn < base + n ∧ entries vpn = some w ∧ PTE2PA w = x := by
  induction n generalizing base with
  | zero =>
    constructor
    · intro h
      cases h
    · rintro ⟨vpn, w, h1, h2, -⟩
      omega
  | succ n ih =>
    rw [leafPages, List.mem_append, ih, Option.mem_toList, Option.map_eq_some_iff]
    constructor
    · rintro (⟨w, hw, hx⟩ | ⟨vpn, w, h1, h2, hw, hx⟩)
      · exact ⟨base, w, le_refl _, by omega, hw, hx⟩
      · exact ⟨vpn, w, by omega, by omega, hw, hx⟩
    · rintro ⟨vpn, w, h1, h2, hw, hx⟩
      by_cases hbase : vpn = base
      · exact .inl ⟨w, hbase ▸ hw, hx⟩
      · exact .inr ⟨vpn, w, by omega, by omega, hw, hx⟩

/-- Entries that agree on the range have the same pages there. -/
theorem leafPages_congr {base n : ℕ} (h : ∀ vpn, base ≤ vpn → vpn < base + n → entries vpn = entries' vpn) :
    leafPages entries base n = leafPages entries' base n := by
  induction n generalizing base with
  | zero => rfl
  | succ n ih =>
    rw [leafPages, leafPages, h base (le_refl _) (by omega), ih fun vpn h1 h2 => h vpn (by omega) (by omega)]

/-- The pages that `uvmunmap` frees, in the order in which they end up on the free list. -/
def freedPages (doFree : Bool) (entries : ℕ → Option ℕ) (base n : ℕ) : List ℕ :=
  if doFree then (leafPages entries base n).reverse else []

variable {npages : ℕ}

/-- The number of pages that `uvmunmap` visits in a range inside the address space. -/
theorem pagesTo_eq {va : ℕ} (hmax : va + npages * 4096 ≤ MAXVA) : pagesTo va (va + npages * PGSIZE) = npages := by
  have hmax' : va + npages * 4096 ≤ 2 ^ 38 := hmax
  rw [pagesTo]
  change ((va + npages * 4096) % 2 ^ 64 - va + 4095) / 4096 = npages
  omega

variable [KernelImage] {doFree : Bool}

/-- One iteration of `uvmunmap`. -/
theorem uvmunmapPage_spec {a : ℕ} (ha : a < MAXVA) (hu : TreeOk s.mem root)
    (hvalid : doFree → ∀ w, leaf s.mem root (a / 4096) = some w → PageAddress (PTE2PA w)) :
    Ensures (uvmunmapPage root a doFree) s fun _ s' =>
      Shrunk root s s' (freedPages doFree (leaf s.mem root) (a / 4096) 1)
        (update (leaf s.mem root) (a / 4096) none) := by
  have hvpn : a / 4096 < 2 ^ 27 := by
    have : a < 2 ^ 38 := ha
    omega
  rw [uvmunmapPage, ensures_bind, ensures_walk_false ha]
  cases ht : leafTable s.mem root (a / 4096) with
  | none =>
    -- there is no table, so there is no entry
    have hnone : leaf s.mem root (a / 4096) = none := by rw [leaf_of_lt hvpn, ht]; rfl
    have hpages : freedPages doFree (leaf s.mem root) (a / 4096) 1 = [] := by
      cases doFree <;> simp [freedPages, leafPages, hnone]
    rw [hpages, update_eq_self_iff.2 hnone.symm]
    exact (ensures_pure _ _ _).2 (Shrunk.refl hu)
  | some t =>
    have hleaf : leaf s.mem root (a / 4096) = validPte (pteAt s.mem t (PX 0 a)) := by
      rw [leaf_of_lt hvpn, ht, PX_zero_eq]
      rfl
    simp only [Option.map_some, ensures_bind, ensures_readPte]
    by_cases hv : hasFlag (pteAt s.mem t (PX 0 a)) PTE_V = true
    · have hsome : leaf s.mem root (a / 4096) = some (pteAt s.mem t (PX 0 a)) := by
        rw [hleaf, validPte, if_pos hv]
      simp only [hv, Bool.not_true, Bool.false_eq_true, if_false]
      cases doFree with
      | false =>
        simp only [Bool.false_eq_true, if_false, ensures_writePte, PX_zero_eq]
        exact shrunk_clear hu ht hvpn
      | true =>
        have hout := hu.leaf_not_mem_tables hsome
        simp only [if_true, ensures_bind]
        refine kfree_spec (hvalid rfl _ hsome) ?_
        rw [ensures_writePte]
        have hfree := shrunk_free hu hout
        have ht' : leafTable (update s.mem (PTE2PA (pteAt s.mem t (PX 0 a))) (filled 1))
            root (a / 4096) = some t := by
          rw [← ht]
          refine follow_congr (child_congr ?_) _ (by simp)
          intro x hx
          have hne : x ≠ PTE2PA (pteAt s.mem t (PX 0 a)) := fun h => hout (h ▸ hx)
          exact update_of_ne hne _ _
        have hclear := shrunk_clear hfree.tree ht' hvpn
        rw [funext hfree.leaf_eq] at hclear
        have hpages : freedPages true (leaf s.mem root) (a / 4096) 1 =
            [] ++ [PTE2PA (pteAt s.mem t (PX 0 a))] := by
          simp [freedPages, leafPages, hsome]
        rw [hpages, PX_zero_eq]
        rw [PX_zero_eq] at hfree hclear
        exact hfree.trans hclear
    · have hnone : leaf s.mem root (a / 4096) = none := by rw [hleaf, validPte, if_neg hv]
      have hpages : freedPages doFree (leaf s.mem root) (a / 4096) 1 = [] := by
        cases doFree <;> simp [freedPages, leafPages, hnone]
      rw [hpages, update_eq_self_iff.2 hnone.symm]
      simp only [hv, Bool.not_false, if_true, ensures_pure]
      exact Shrunk.refl hu

/-- The loop of `uvmunmap`. -/
theorem uvmunmapLoop_spec (n a : ℕ) (s : Phys) (hva : a % 4096 = 0)
    (hmax : a + n * 4096 ≤ MAXVA) (hu : TreeOk s.mem root)
    (hvalid : doFree → ∀ i < n, ∀ w, leaf s.mem root (a / 4096 + i) = some w →
      PageAddress (PTE2PA w)) :
    Ensures (uvmunmapLoop root doFree n a) s fun _ s' =>
      Shrunk root s s' (freedPages doFree (leaf s.mem root) (a / 4096) n)
        (without (leaf s.mem root) (a / 4096) n) := by
  induction n generalizing a s with
  | zero =>
    rw [uvmunmapLoop, ensures_pure, without_zero]
    have hpages : freedPages doFree (leaf s.mem root) (a / 4096) 0 = [] := by
      cases doFree <;> rfl
    rw [hpages]
    exact Shrunk.refl hu
  | succ n ih =>
    have hmax' : a + (n + 1) * 4096 ≤ 2 ^ 38 := hmax
    have hdiv : (a + 4096) / 4096 = a / 4096 + 1 := by omega
    rw [uvmunmapLoop, ensures_bind]
    refine Ensures.mono (uvmunmapPage_spec (by change a < 2 ^ 38; omega) hu
      fun hd w hw => hvalid hd 0 (by omega) w hw) ?_
    intro _ s₁ hfirst
    have hafter : ∀ i, leaf s₁.mem root (a / 4096 + 1 + i) = leaf s.mem root (a / 4096 + 1 + i) := by
      intro i
      rw [hfirst.leaf_eq, update_of_ne (by omega)]
    refine Ensures.mono (ih (a + 4096) s₁ (by omega) (by change a + 4096 + n * 4096 ≤ 2 ^ 38; omega)
      hfirst.tree ?_) ?_
    · intro hd i hi w hw
      rw [hdiv, hafter, add_assoc] at hw
      exact hvalid hd (1 + i) (by omega) w hw
    · intro _ s' hrest
      rw [hdiv] at hrest
      have htail : leafPages (leaf s₁.mem root) (a / 4096 + 1) n =
          leafPages (leaf s.mem root) (a / 4096 + 1) n := by
        refine leafPages_congr fun vpn h1 _ => ?_
        rw [hfirst.leaf_eq, update_of_ne (by omega)]
      have hpages : freedPages doFree (leaf s₁.mem root) (a / 4096 + 1) n ++
          freedPages doFree (leaf s.mem root) (a / 4096) 1 =
            freedPages doFree (leaf s.mem root) (a / 4096) (n + 1) := by
        cases doFree with
        | false => rfl
        | true => simp [freedPages, leafPages, htail]
      have hboth := hfirst.trans hrest
      rw [hpages, funext hfirst.leaf_eq, without_succ] at hboth
      exact hboth

/-- `uvmunmap` removes the entries of a range of pages and frees their pages if asked to. -/
theorem uvmunmap_spec {va : ℕ} (hva : va % 4096 = 0)
    (hmax : va + npages * 4096 ≤ MAXVA) (hu : TreeOk s.mem root)
    (hvalid : doFree → ∀ i < npages, ∀ w, leaf s.mem root (va / 4096 + i) = some w →
      PageAddress (PTE2PA w)) :
    Ensures (uvmunmap root va npages doFree) s fun _ s' =>
      Shrunk root s s' (freedPages doFree (leaf s.mem root) (va / 4096) npages)
        (without (leaf s.mem root) (va / 4096) npages) := by
  rw [uvmunmap, if_neg (not_not.2 hva), pagesTo_eq hmax]
  exact uvmunmapLoop_spec npages va s hva hmax hu hvalid

end Unmap

end Xv6.Vm
