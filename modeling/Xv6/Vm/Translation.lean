import Mathlib.Data.List.Basic
import Xv6.Library.PointerTree
import Xv6.Vm.Memory

/-!
# The map that a page table denotes

A page table is a tree of depth two whose nodes are the table pages in physical memory. Its leaf
entries are numbered by the virtual page number, whose three groups of nine bits are the indices on
the way to the entry. `leaf` is the map from page numbers to valid entries, and the lemmas below say
how it changes when an entry is written, when an empty table is linked and when other pages change.
-/

namespace Xv6.Vm

open Library List Option

/-- The page that a valid entry leads to. -/
def linkOf (w : ℕ) : Option ℕ := if hasFlag w PTE_V then some (PTE2PA w) else none

/-- The links between the pages of a memory. -/
def child (mem : ℕ → Page) (t i : ℕ) : Option ℕ := linkOf (pteAt mem t i)

/-- The table pages of a page table. -/
def tables (mem : ℕ → Page) (root : ℕ) : Set ℕ := reach (child mem) 2 root

/-- No table page is shared and no leaf leads to a table page. -/
def TreeOk (mem : ℕ → Page) (root : ℕ) : Prop := Unshared (child mem) 2 root

/-- The indices that lead to the table with the leaf entry of a page. -/
def pagePath (vpn : ℕ) : List ℕ := [vpn / 2 ^ 18 % 512, vpn / 2 ^ 9 % 512]

/-- The table with the leaf entry of a page. -/
def leafTable (mem : ℕ → Page) (root vpn : ℕ) : Option ℕ :=
  follow (child mem) root (pagePath vpn)

/-- A valid entry, and nothing otherwise. -/
def validPte (w : ℕ) : Option ℕ := if hasFlag w PTE_V then some w else none

/-- The valid leaf entry of a page. -/
def leaf (mem : ℕ → Page) (root vpn : ℕ) : Option ℕ :=
  if vpn < 2 ^ 27 then (leafTable mem root vpn).bind fun t => validPte (pteAt mem t (vpn % 512))
  else none

/-- The page and the flags to which a page table maps a virtual address. -/
def translation (mem : ℕ → Page) (root va : ℕ) : Option (ℕ × ℕ) :=
  (leaf mem root (va / PGSIZE)).map fun w => (PTE2PA w, PTE_FLAGS w)

@[simp] theorem linkOf_zero : linkOf 0 = none := rfl

@[simp] theorem validPte_zero : validPte 0 = none := rfl

variable {w : ℕ}

theorem linkOf_of_odd (h : w % 2 = 1) : linkOf w = some (PTE2PA w) := by
  rw [linkOf, hasFlag_V, decide_eq_true h, if_pos rfl]

theorem validPte_of_odd (h : w % 2 = 1) : validPte w = some w := by
  rw [validPte, hasFlag_V, decide_eq_true h, if_pos rfl]

/-- An entry leads to the page of its valid word. -/
theorem linkOf_eq_map (w : ℕ) : linkOf w = (validPte w).map PTE2PA := by
  rw [linkOf, validPte]
  split <;> rfl

/-- A valid entry is odd. -/
theorem odd_of_validPte {v : ℕ} (h : validPte w = some v) : v = w ∧ w % 2 = 1 := by
  rw [validPte, hasFlag_V] at h
  split at h
  · next hw => exact ⟨(Option.some.inj h).symm, of_decide_eq_true hw⟩
  · cases h

/-- The index of an address at each level, by its page number. -/
theorem PX_eq_vpn (level va : ℕ) : PX level va = va / 4096 / 2 ^ (9 * level) % 512 := by
  rw [PX_eq, pow_add, ← Nat.div_div_eq_div_mul]
  rfl

/-- The indices of the upper levels of an address are the path of its page. -/
theorem pagePath_eq_PX (va : ℕ) : pagePath (va / 4096) = [PX 2 va, PX 1 va] := by
  rw [PX_eq_vpn, PX_eq_vpn]
  rfl

theorem PX_zero_eq (va : ℕ) : PX 0 va = va / 4096 % 512 := by
  rw [PX_eq_vpn]
  simp

@[simp] theorem pagePath_length (vpn : ℕ) : (pagePath vpn).length = 2 := rfl

/-- A page number is determined by its three indices. -/
theorem vpn_eq_of_path {vpn vpn' : ℕ} (h : vpn < 2 ^ 27) (h' : vpn' < 2 ^ 27)
    (hpath : pagePath vpn = pagePath vpn') (hidx : vpn % 512 = vpn' % 512) : vpn = vpn' := by
  rw [pagePath, pagePath, List.cons.injEq, List.cons.injEq] at hpath
  obtain ⟨h2, h1, -⟩ := hpath
  omega

/-- The root is a table. -/
theorem root_mem_tables (mem : ℕ → Page) (root : ℕ) : root ∈ tables mem root := root_mem_reach _ _ _

/-- The table of a leaf entry is a table of the tree. -/
theorem leafTable_mem_tables {mem : ℕ → Page} {root vpn t : ℕ}
    (h : leafTable mem root vpn = some t) : t ∈ tables mem root :=
  ⟨pagePath vpn, le_of_eq (pagePath_length vpn), h⟩

/-- A leaf entry is a valid word. -/
theorem leaf_odd {mem : ℕ → Page} {root vpn : ℕ} (h : leaf mem root vpn = some w) : w % 2 = 1 := by
  rw [leaf] at h
  split at h
  · obtain ⟨t, -, hw⟩ := bind_eq_some_iff.1 h
    obtain ⟨rfl, hodd⟩ := odd_of_validPte hw
    exact hodd
  · cases h

/-- A leaf entry is a 64-bit word. -/
theorem leaf_word_lt {mem : ℕ → Page} {root vpn : ℕ} (h : leaf mem root vpn = some w) : w < 2 ^ 64 := by
  rw [leaf] at h
  split at h
  · obtain ⟨t, -, hw⟩ := bind_eq_some_iff.1 h
    obtain ⟨rfl, -⟩ := odd_of_validPte hw
    exact pteAt_lt mem t _
  · cases h

/-- The page numbers of leaf entries are below the Sv39 bound. -/
theorem leaf_vpn_lt {mem : ℕ → Page} {root vpn : ℕ} (h : leaf mem root vpn = some w) : vpn < 2 ^ 27 := by
  rw [leaf] at h
  split at h
  · assumption
  · cases h

theorem leaf_of_lt {mem : ℕ → Page} {root vpn : ℕ} (h : vpn < 2 ^ 27) :
    leaf mem root vpn =
      (leafTable mem root vpn).bind fun t => validPte (pteAt mem t (vpn % 512)) := by
  rw [leaf, if_pos h]

/-- A leaf entry is an entry of its table. -/
theorem leafTable_of_leaf {mem : ℕ → Page} {root vpn : ℕ} (h : leaf mem root vpn = some w) :
    ∃ t, leafTable mem root vpn = some t ∧ pteAt mem t (vpn % 512) = w := by
  rw [leaf_of_lt (leaf_vpn_lt h)] at h
  obtain ⟨t, ht, hw⟩ := bind_eq_some_iff.1 h
  exact ⟨t, ht, (odd_of_validPte hw).1.symm⟩

/-- A link out of range does not exist. -/
theorem child_of_le (mem : ℕ → Page) (t : ℕ) {i : ℕ} (h : 512 ≤ i) : child mem t i = none := by
  rw [child, pteAt_of_le mem t h]
  rfl

/-- The pages that the leaves lead to are at the end of the paths of length three. -/
theorem follow_three {mem : ℕ → Page} {root vpn : ℕ} (h : leaf mem root vpn = some w) :
    follow (child mem) root (pagePath vpn ++ [vpn % 512]) = some (PTE2PA w) := by
  rw [leaf_of_lt (leaf_vpn_lt h)] at h
  obtain ⟨t, ht, hw⟩ := bind_eq_some_iff.1 h
  rw [follow_concat]
  change (leafTable mem root vpn).bind _ = _
  rw [ht]
  change linkOf (pteAt mem t (vpn % 512)) = _
  rw [linkOf_eq_map, hw]
  rfl

/-- A valid entry two links below the root is the leaf entry of a page number. -/
theorem exists_vpn_of_path {mem : ℕ → Page} {root t i : ℕ} {path : List ℕ} (hlen : path.length = 2)
    (ht : follow (child mem) root path = some t) (hv : hasFlag (pteAt mem t i) PTE_V) :
    ∃ vpn, leaf mem root vpn = some (pteAt mem t i) := by
  obtain ⟨a, b, rfl⟩ := length_eq_two.1 hlen
  have hi : i < 512 := by
    by_contra hge
    rw [pteAt_of_le mem t (by omega)] at hv
    cases hv
  have hab : a < 512 ∧ b < 512 := by
    have hsplit : [a, b] = [a] ++ [b] := rfl
    rw [hsplit, follow_concat] at ht
    obtain ⟨u, hu, hb⟩ := bind_eq_some_iff.1 ht
    constructor
    · by_contra hge
      rw [follow_cons, child_of_le mem root (by omega)] at hu
      cases hu
    · by_contra hge
      exact none_elim (child_of_le mem u (by omega)) hb
  let vpn := a * 2 ^ 18 + b * 2 ^ 9 + i
  have hpath : pagePath vpn = [a, b] := by
    have h2 : vpn / 2 ^ 18 % 512 = a := by omega
    have h1 : vpn / 2 ^ 9 % 512 = b := by omega
    rw [pagePath, h2, h1]
  have hidx : vpn % 512 = i := by omega
  refine ⟨vpn, ?_⟩
  rw [leaf_of_lt (by omega), leafTable, hpath, ht, hidx]
  change validPte (pteAt mem t i) = _
  rw [validPte, if_pos hv]

/-- The pages within three links are the tables and the pages that the leaves lead to. -/
theorem mem_reach_three {mem : ℕ → Page} {root x : ℕ} :
    x ∈ reach (child mem) 3 root ↔
      x ∈ tables mem root ∨ ∃ vpn w, leaf mem root vpn = some w ∧ PTE2PA w = x := by
  constructor
  · rintro ⟨path, hlen, hx⟩
    by_cases hshort : path.length ≤ 2
    · exact .inl ⟨path, hshort, hx⟩
    obtain ⟨a, b, c, rfl⟩ := length_eq_three.1 (by omega : path.length = 3)
    have hsplit : [a, b, c] = [a, b] ++ [c] := rfl
    rw [hsplit, follow_concat] at hx
    obtain ⟨t, ht, hc⟩ := bind_eq_some_iff.1 hx
    rw [child, linkOf] at hc
    split_ifs at hc with hv
    obtain ⟨vpn, hvpn⟩ := exists_vpn_of_path rfl ht hv
    exact .inr ⟨vpn, _, hvpn, Option.some.inj hc⟩
  · rintro (hx | ⟨vpn, w, hw, rfl⟩)
    · exact reach_mono _ (by omega) root hx
    · exact ⟨pagePath vpn ++ [vpn % 512], by simp, follow_three hw⟩

/-- A leaf of a page table does not lead to one of its tables. -/
theorem TreeOk.leaf_not_mem_tables {mem : ℕ → Page} {root vpn : ℕ} (h : TreeOk mem root)
    (hw : leaf mem root vpn = some w) : PTE2PA w ∉ tables mem root := by
  rintro ⟨path, hlen, hpath⟩
  have heq := h path _ _ hlen (by simp) hpath (follow_three hw)
  have hlen' := congrArg List.length heq
  simp only [length_append, pagePath_length, length_singleton] at hlen'
  omega

/-- A table without valid entries is a page table of its own. -/
theorem treeOk_of_empty {mem : ℕ → Page} {root : ℕ} (h : ∀ i, child mem root i = none) : TreeOk mem root := by
  have hnil : ∀ path x, follow (child mem) root path = some x → path = [] := by
    intro path x hx
    cases path with
    | nil => rfl
    | cons i path =>
      rw [follow_cons, h] at hx
      cases hx
  intro p q x _ _ hp hq
  rw [hnil p x hp, hnil q x hq]

/-- The only table of an empty page table is its root. -/
theorem tables_of_empty {mem : ℕ → Page} {root : ℕ} (h : ∀ i, child mem root i = none) :
    tables mem root = {root} := by
  ext x
  constructor
  · rintro ⟨path, -, hx⟩
    cases path with
    | nil => exact (Option.some.inj hx).symm
    | cons i path =>
      rw [follow_cons, h] at hx
      cases hx
  · rintro rfl
    exact root_mem_tables mem x

/-- An empty page table has no leaf entries. -/
theorem leaf_of_empty {mem : ℕ → Page} {root : ℕ} (h : ∀ i, child mem root i = none) (vpn : ℕ) :
    leaf mem root vpn = none := by
  rw [leaf]
  split
  · rw [leafTable, pagePath, follow_cons, h]
    rfl
  · rfl

section Frame

variable {mem mem' : ℕ → Page} {root : ℕ}

/-- Memories which agree on the tables have the same links in the tree. -/
theorem child_congr (h : ∀ t ∈ tables mem root, mem' t = mem t) :
    ∀ t ∈ reach (child mem) 2 root, ∀ i, child mem' t i = child mem t i := by
  intro t ht i
  rw [child, child, pteAt, pteAt, h t ht]

/-- Changes outside the tables keep the tree. -/
theorem TreeOk.congr (hu : TreeOk mem root) (h : ∀ t ∈ tables mem root, mem' t = mem t) : TreeOk mem' root :=
  Unshared.congr hu (child_congr h)

/-- Changes outside the tables keep the set of tables. -/
theorem tables_congr (h : ∀ t ∈ tables mem root, mem' t = mem t) : tables mem' root = tables mem root := by
  ext x
  constructor
  · rintro ⟨path, hlen, hx⟩
    rw [follow_congr (child_congr h) path (by omega)] at hx
    exact ⟨path, hlen, hx⟩
  · rintro ⟨path, hlen, hx⟩
    rw [← follow_congr (child_congr h) path (by omega)] at hx
    exact ⟨path, hlen, hx⟩

/-- Changes outside the tables keep the leaf entries. -/
theorem leaf_congr (h : ∀ t ∈ tables mem root, mem' t = mem t) (vpn : ℕ) :
    leaf mem' root vpn = leaf mem root vpn := by
  by_cases hvpn : vpn < 2 ^ 27
  · have htable : leafTable mem' root vpn = leafTable mem root vpn := follow_congr (child_congr h) _ (by simp)
    rw [leaf_of_lt hvpn, leaf_of_lt hvpn, htable]
    cases ht : leafTable mem root vpn with
    | none => rfl
    | some t =>
      change validPte (pteAt mem' t _) = validPte (pteAt mem t _)
      rw [pteAt, pteAt, h t (leafTable_mem_tables ht)]
  · rw [leaf, leaf, if_neg hvpn, if_neg hvpn]

end Frame

section WriteEntry

variable {mem : ℕ → Page} {root t i : ℕ}

/-- Writing an entry changes one link. -/
theorem child_setPte (hi : i < 512) (value : ℕ) :
    child (setPte mem t i value) = setLink (child mem) t i (linkOf (value % 2 ^ 64)) := by
  funext t' i'
  rw [child, setLink, pteAt_setPte mem hi]
  split <;> rfl

variable {vpn : ℕ} (hu : TreeOk mem root) (ht : leafTable mem root vpn = some t)

include hu ht

/-- Writing a leaf entry leaves the way to every leaf table alone. -/
theorem leafTable_setPte_leaf (value vpn' : ℕ) :
    leafTable (setPte mem t (vpn % 512) value) root vpn' = leafTable mem root vpn' := by
  rw [leafTable, child_setPte (Nat.mod_lt _ (by decide))]
  refine follow_setLink_elsewhere hu (le_of_eq (pagePath_length vpn)) ht _ (by simp) ?_
  intro hpre
  have hle := hpre.length_le
  simp only [length_append, pagePath_length, length_singleton] at hle
  omega

/-- Writing a leaf entry changes the map at its page number only. -/
theorem leaf_setPte_leaf (hvpn : vpn < 2 ^ 27) (value vpn' : ℕ) :
    leaf (setPte mem t (vpn % 512) value) root vpn' =
      if vpn' = vpn then validPte (value % 2 ^ 64) else leaf mem root vpn' := by
  by_cases hvpn' : vpn' < 2 ^ 27
  · rw [leaf_of_lt hvpn', leafTable_setPte_leaf hu ht]
    by_cases heq : vpn' = vpn
    · rw [if_pos heq, heq, ht]
      change validPte (pteAt _ t (vpn % 512)) = _
      rw [pteAt_setPte mem (Nat.mod_lt _ (by decide)), if_pos ⟨rfl, rfl⟩]
    · rw [if_neg heq, leaf_of_lt hvpn']
      cases ht' : leafTable mem root vpn' with
      | none => rfl
      | some t' =>
        change validPte (pteAt _ t' (vpn' % 512)) = validPte (pteAt mem t' (vpn' % 512))
        -- the same entry would be the entry of the same page
        rw [pteAt_setPte mem (Nat.mod_lt _ (by decide)), if_neg]
        rintro ⟨rfl, hidx⟩
        have hpath := hu (pagePath vpn') (pagePath vpn) t' (by simp) (by simp) ht' ht
        exact heq (vpn_eq_of_path hvpn' hvpn hpath hidx)
  · rw [leaf, if_neg hvpn', if_neg (by omega), leaf, if_neg hvpn']

/-- Writing a leaf entry keeps the set of tables. -/
theorem tables_setPte_leaf (value : ℕ) : tables (setPte mem t (vpn % 512) value) root = tables mem root := by
  have hfollow : ∀ path : List ℕ, path.length ≤ 2 →
      follow (child (setPte mem t (vpn % 512) value)) root path = follow (child mem) root path := by
    intro path hlen
    rw [child_setPte (Nat.mod_lt _ (by decide))]
    refine follow_setLink_elsewhere hu (le_of_eq (pagePath_length vpn)) ht _ (by omega) ?_
    intro hpre
    have hle := hpre.length_le
    simp only [length_append, pagePath_length, length_singleton] at hle
    omega
  ext x
  constructor
  · rintro ⟨path, hlen, hx⟩
    exact ⟨path, hlen, hfollow path hlen ▸ hx⟩
  · rintro ⟨path, hlen, hx⟩
    exact ⟨path, hlen, (hfollow path hlen).symm ▸ hx⟩

/-- Writing a leaf entry that does not lead to a table keeps the tree. -/
theorem TreeOk.setPte_leaf {value : ℕ} (hv : ∀ x, linkOf (value % 2 ^ 64) = some x → x ∉ tables mem root) :
    TreeOk (setPte mem t (vpn % 512) value) root := by
  rw [TreeOk, child_setPte (Nat.mod_lt _ (by decide))]
  exact Unshared.setLink_bottom hu (pagePath_length vpn) ht hv

end WriteEntry

end Xv6.Vm
