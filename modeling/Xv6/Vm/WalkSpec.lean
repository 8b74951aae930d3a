import Xv6.Vm.PageTable
import Xv6.Vm.Translation

/-!
# What `walk` does

Without allocation `walk` finds the table with the leaf entry of an address. With allocation it may
link empty tables, which it takes from the front of the free list. `Grown` says what such steps
leave behind: a tree with given leaf entries whose new tables are the pages taken, and every other
page untouched. For `walk` the leaf entries are those from before.
-/

namespace Xv6.Vm

open Function Library List

/-- The entries above the leaf level are pointers to tables: they carry no permissions. -/
def Pointers (mem : ℕ → Page) (root : ℕ) : Prop :=
  ∀ (path : List ℕ) (t i : ℕ), path.length ≤ 1 → follow (child mem) root path = some t →
    hasFlag (pteAt mem t i) PTE_V → ¬ hasFlag (pteAt mem t i) (PTE_R ||| PTE_W ||| PTE_X)

/-- There are no tables for addresses from `MAXVA` on. -/
def Low (mem : ℕ → Page) (root : ℕ) : Prop := ∀ i, 256 ≤ i → child mem root i = none

/-- The pages of a list are outside a page table: neither tables nor mapped by it. -/
def Apart (mem : ℕ → Page) (root : ℕ) (l : List ℕ) : Prop := ∀ x ∈ l, x ∉ reach (child mem) 3 root

/-- The tree has been extended by tables taken from the front of the free list and now has the leaf
entries `entries`. -/
structure Grown (root : ℕ) (s s' : Phys) (taken : List ℕ) (entries : ℕ → Option ℕ) : Prop where
  freelist : s.freelist = taken ++ s'.freelist
  tree : TreeOk s'.mem root
  tables_iff : ∀ x, x ∈ tables s'.mem root ↔ x ∈ tables s.mem root ∨ x ∈ taken
  leaf_eq : ∀ vpn, leaf s'.mem root vpn = entries vpn
  frame : ∀ x, x ∉ tables s.mem root → x ∉ taken → s'.mem x = s.mem x
  pointers : Pointers s.mem root → Pointers s'.mem root
  low : Low s.mem root → Low s'.mem root

theorem Grown.refl {root : ℕ} {s s' : Phys} (h : TreeOk s.mem root) (hmem : s'.mem = s.mem)
    (hfree : s'.freelist = s.freelist) : Grown root s s' [] (leaf s.mem root) where
  freelist := hfree.symm
  tree := hmem ▸ h
  tables_iff x := by simp [hmem]
  leaf_eq _ := by rw [hmem]
  frame _ _ _ := by rw [hmem]
  pointers h := hmem ▸ h
  low h := hmem ▸ h

theorem Grown.trans {root : ℕ} {s s' s'' : Phys} {l l' : List ℕ} {entries entries' : ℕ → Option ℕ}
    (h : Grown root s s' l entries) (h' : Grown root s' s'' l' entries') : Grown root s s'' (l ++ l') entries' where
  freelist := by rw [h.freelist, h'.freelist, append_assoc]
  tree := h'.tree
  tables_iff x := by rw [h'.tables_iff, h.tables_iff, mem_append, or_assoc]
  leaf_eq := h'.leaf_eq
  frame x hx hl := by
    rw [mem_append, not_or] at hl
    rw [h'.frame x (fun hmem => ((h.tables_iff x).1 hmem).elim hx hl.1) hl.2, h.frame x hx hl.1]
  pointers hp := h'.pointers (h.pointers hp)
  low hl := h'.low (h.low hl)

section Grown

variable {root x : ℕ} {s s' : Phys} {l : List ℕ} {entries : ℕ → Option ℕ}

theorem Grown.taken_sub (h : Grown root s s' l entries) (hx : x ∈ l) : x ∈ s.freelist :=
  h.freelist ▸ mem_append_left _ hx

theorem Grown.free_sub (h : Grown root s s' l entries) (hx : x ∈ s'.freelist) : x ∈ s.freelist :=
  h.freelist ▸ mem_append_right _ hx

theorem Grown.quiet (h : Grown root s s' l entries) (ht : x ∉ tables s.mem root) (hf : x ∉ s.freelist) :
    s'.mem x = s.mem x :=
  h.frame x ht fun hx => hf (h.taken_sub hx)

end Grown

/-- The pages that are still free are outside the extended tree, unless a new leaf leads there. -/
theorem Grown.apart {root : ℕ} {s s' : Phys} {l : List ℕ} {entries : ℕ → Option ℕ}
    (h : Grown root s s' l entries) (hnodup : s.freelist.Nodup)
    (ha : Apart s.mem root s.freelist)
    (hnew : ∀ vpn w, entries vpn = some w → leaf s.mem root vpn = some w ∨
      PTE2PA w ∉ s.freelist) :
    Apart s'.mem root s'.freelist := by
  intro x hx hreach
  have hxs := h.free_sub hx
  rw [h.freelist] at hnodup ha
  have hold := ha x (mem_append_right l hx)
  rw [mem_reach_three] at hold hreach
  rcases hreach with htable | ⟨vpn, w, hw, hwx⟩
  · rcases (h.tables_iff x).1 htable with hmem | hmem
    · exact hold (.inl hmem)
    · exact (nodup_append.1 hnodup).2.2 x hmem x hx rfl
  · rw [h.leaf_eq] at hw
    rcases hnew vpn w hw with hleaf | hout
    · exact hold (.inr ⟨vpn, w, hleaf, hwx⟩)
    · exact hout (hwx ▸ hxs)

variable {pa : ℕ}

section Kalloc

/-- An allocation either fails on an empty list or takes its first page. -/
theorem kalloc_spec {s : Phys} {Q : Option ℕ → Phys → Prop}
    (hnone : s.freelist = [] → Q none { s with exhausted := true })
    (hsome : ∀ r rest, s.freelist = r :: rest →
      Q (some r) { s with freelist := rest, mem := update s.mem r (filled 5) }) :
    Ensures kalloc s Q := by
  rw [kalloc, ensures_bind, ensures_get]
  cases hl : s.freelist with
  | nil => simpa [hl] using hnone hl
  | cons r rest => simpa [memset, Phys.setPage] using hsome r rest hl

variable [KernelImage]

/-- A page that `kfree` accepts is put on the free list. -/
theorem kfree_spec {s : Phys} {Q : Unit → Phys → Prop} (hpa : PageAddress pa)
    (h : Q () (s.free pa)) : Ensures (kfree pa) s Q := by
  obtain ⟨haligned, hend, hstop⟩ := hpa
  rw [kfree, if_neg (by rw [not_or, not_or]; exact ⟨not_not.2 haligned, by omega, by omega⟩)]
  simpa [memset, Phys.setPage, Phys.free] using h

end Kalloc

section Graft

variable [KernelImage]

/-- The addresses of pages are small enough for an entry. -/
theorem PageAddress.lt_two_pow (h : PageAddress pa) : pa < 2 ^ 56 := lt_trans h.2.2 (by decide)

theorem PageAddress.ne_zero (h : PageAddress pa) : pa ≠ 0 := by
  have h1 := h.2.1
  have h2 := KernelImage.trampoline_lt_kend
  omega

/-- The entry that links a table leads to it. -/
theorem linkOf_table {n : ℕ} (h : PageAddress n) : linkOf ((PA2PTE n ||| PTE_V) % 2 ^ 64) = some n := by
  have hmk : PA2PTE n ||| PTE_V = mkPte n 0 := by rw [mkPte, Nat.or_zero]
  rw [hmk, Nat.mod_eq_of_lt (mkPte_lt h.lt_two_pow (by decide)), linkOf_of_odd (mkPte_odd n 0),
    PTE2PA_mkPte h.1 h.lt_two_pow (by decide)]

/-- The entry that links a table carries no permissions. -/
theorem table_no_perm {n : ℕ} (h : PageAddress n) :
    ¬ hasFlag ((PA2PTE n ||| PTE_V) % 2 ^ 64) (PTE_R ||| PTE_W ||| PTE_X) := by
  have hmk : PA2PTE n ||| PTE_V = mkPte n 0 := by rw [mkPte, Nat.or_zero]
  have hmod : mkPte n 0 = 2 ^ 10 * (n / 4096) + 1 := by
    rw [mkPte_eq (by decide), mul_comm]
    rfl
  have hand : mkPte n 0 &&& 14 = 0 := by
    have hlow : mkPte n 0 &&& 14 = mkPte n 0 % 2 ^ 10 &&& 14 := by
      apply Nat.eq_of_testBit_eq
      intro k
      rw [Nat.testBit_and, Nat.testBit_and, Nat.testBit_mod_two_pow]
      by_cases hk : k < 10
      · simp [hk]
      · have h14 : Nat.testBit 14 k = false :=
          Nat.testBit_lt_two_pow (lt_of_lt_of_le (by decide : 14 < 2 ^ 10)
            (Nat.pow_le_pow_right (by decide) (by omega)))
        rw [h14, Bool.and_false, Bool.and_false]
    rw [hlow, hmod, Nat.mul_add_mod]
    rfl
  rw [hmk, Nat.mod_eq_of_lt (mkPte_lt h.lt_two_pow (by decide)), hasFlag]
  change ¬ (mkPte n 0 &&& 14 != 0) = true
  rw [hand]
  decide

variable {s : Phys} {root t i n : ℕ} {rest path : List ℕ}

/-- Linking a cleared free page as a table of the tree. -/
theorem graft_grown (hu : TreeOk s.mem root) (hfree : s.freelist = n :: rest) (hvalid : PageAddress n)
    (ha : Apart s.mem root s.freelist) (hpath : path.length ≤ 1) (ht : follow (child s.mem) root path = some t)
    (hi : i < 512) (hinv : child s.mem t i = none) (hlow : path = [] → i < 256) (ex : Bool) :
    Grown root s ⟨setPte (update s.mem n (filled 0)) t i (PA2PTE n ||| PTE_V), rest, ex⟩
      [n] (leaf s.mem root) ∧
    follow (child (setPte (update s.mem n (filled 0)) t i (PA2PTE n ||| PTE_V))) root
      (path ++ [i]) = some n := by
  have hn : n ∉ reach (child s.mem) 3 root := ha n (hfree ▸ mem_cons_self)
  have hn2 : n ∉ tables s.mem root := fun h => hn (reach_mono _ (by omega) root h)
  have htn : t ≠ n := by
    rintro rfl
    exact hn2 ⟨path, by omega, ht⟩
  -- clearing the free page does not touch the tree
  have hclear : ∀ x ∈ tables s.mem root, update s.mem n (filled 0) x = s.mem x := by
    intro x hx
    have hxn : x ≠ n := fun h => hn2 (h ▸ hx)
    exact update_of_ne hxn _ _
  let mem₁ := update s.mem n (filled 0)
  have hu₁ : TreeOk mem₁ root := hu.congr hclear
  have hfollow₁ : ∀ q : List ℕ, q.length ≤ 3 → follow (child mem₁) root q = follow (child s.mem) root q :=
    fun q hq => follow_congr (child_congr hclear) q hq
  have ht₁ : follow (child mem₁) root path = some t := (hfollow₁ path (by omega)).trans ht
  have hempty : ∀ j, child mem₁ n j = none := by
    intro j
    rw [child, pteAt_update_zero, linkOf_zero]
  have hn₁ : n ∉ reach (child mem₁) 3 root := by
    rintro ⟨q, hq, hqn⟩
    exact hn ⟨q, hq, hfollow₁ q hq ▸ hqn⟩
  let mem₂ := setPte mem₁ t i (PA2PTE n ||| PTE_V)
  have hchild : child mem₂ = setLink (child mem₁) t i (some n) := by
    rw [child_setPte hi, linkOf_table hvalid]
  have hself : follow (child mem₂) root (path ++ [i]) = some n := by
    rw [hchild]
    exact follow_setLink_self hu₁ (by omega) ht₁
  have hthrough : ∀ q : List ℕ, follow (child mem₂) root (path ++ [i] ++ q) =
      if q = [] then some n else none := by
    intro q
    rw [hchild]
    exact follow_graft hu₁ (by omega) ht₁ (Ne.symm htn) hempty q
  have haround : ∀ q : List ℕ, q.length ≤ 3 → ¬ (path ++ [i]) <+: q →
      follow (child mem₂) root q = follow (child s.mem) root q := by
    intro q hq hpre
    rw [hchild, follow_setLink_elsewhere hu₁ (by omega) ht₁ q hq hpre, hfollow₁ q hq]
  have hold : ∀ q : List ℕ, follow (child s.mem) root (path ++ [i] ++ q) = none := by
    intro q
    rw [follow_append, follow_concat, ht]
    change (child s.mem t i).bind _ = none
    rw [hinv]
    rfl
  refine ⟨⟨hfree, ?_, ?_, ?_, ?_, ?_, ?_⟩, hself⟩
  · change Unshared (child mem₂) 2 root
    rw [hchild]
    exact Unshared.graft hu₁ (by omega) ht₁ hempty hn₁
  · intro x
    constructor
    · rintro ⟨q, hq, hqx⟩
      by_cases hpre : (path ++ [i]) <+: q
      · obtain ⟨r, rfl⟩ := hpre
        rw [hthrough] at hqx
        split_ifs at hqx
        exact .inr (mem_singleton.2 (Option.some.inj hqx).symm)
      · exact .inl ⟨q, hq, haround q (by omega) hpre ▸ hqx⟩
    · rintro (⟨q, hq, hqx⟩ | hx)
      · have hpre : ¬ (path ++ [i]) <+: q := by
          rintro ⟨r, rfl⟩
          rw [hold] at hqx
          cases hqx
        exact ⟨q, hq, (haround q (by omega) hpre).trans hqx⟩
      · rw [mem_singleton.1 hx]
        exact ⟨path ++ [i], by simpa using hpath, hself⟩
  · intro vpn
    by_cases hvpn : vpn < 2 ^ 27
    · rw [leaf_of_lt hvpn, leaf_of_lt hvpn]
      by_cases hpre : (path ++ [i]) <+: pagePath vpn
      · -- the new table is empty, and there was none before
        obtain ⟨r, hr⟩ := hpre
        have hnone : leafTable s.mem root vpn = none := by rw [leafTable, ← hr, hold]
        have hnew : leafTable mem₂ root vpn = if r = [] then some n else none := by
          rw [leafTable, ← hr, hthrough]
        rw [hnone, hnew]
        split_ifs
        · change validPte (pteAt mem₂ n _) = none
          rw [pteAt_setPte mem₁ hi, if_neg fun h => htn h.1.symm, pteAt_update_zero, validPte_zero]
        · rfl
      · have hsame : leafTable mem₂ root vpn = leafTable s.mem root vpn := haround _ (by simp) hpre
        rw [hsame]
        cases ht' : leafTable s.mem root vpn with
        | none => rfl
        | some t' =>
          have ht'n : t' ≠ n := fun h => hn2 (h ▸ leafTable_mem_tables ht')
          have ht't : t' ≠ t := by
            rintro rfl
            have hlen := congrArg List.length (hu path (pagePath vpn) t' (by omega) (by simp) ht ht')
            rw [pagePath_length] at hlen
            omega
          change validPte (pteAt mem₂ t' _) = validPte (pteAt s.mem t' _)
          rw [pteAt_setPte mem₁ hi, if_neg fun h => ht't h.1, pteAt_update_of_ne _ ht'n]
    · rw [leaf, leaf, if_neg hvpn, if_neg hvpn]
  · intro x hx hxn
    have hxt : x ≠ t := by
      rintro rfl
      exact hx ⟨path, by omega, ht⟩
    change setPte mem₁ t i _ x = s.mem x
    rw [setPte_of_ne mem₁ _ hxt]
    exact update_of_ne (fun h => hxn (mem_singleton.2 h)) _ _
  · intro hptr q u j hq hqu hv
    change hasFlag (pteAt mem₂ u j) PTE_V = true at hv
    change ¬ hasFlag (pteAt mem₂ u j) _ = true
    rw [pteAt_setPte mem₁ hi] at hv ⊢
    split_ifs at hv ⊢ with heq
    · exact table_no_perm hvalid
    · by_cases hun : u = n
      · rw [hun, pteAt_update_zero] at hv
        cases hv
      · rw [pteAt_update_of_ne _ hun] at hv ⊢
        by_cases hpre : (path ++ [i]) <+: q
        · obtain ⟨r, rfl⟩ := hpre
          change follow (child mem₂) root _ = _ at hqu
          rw [hthrough] at hqu
          split_ifs at hqu
          exact absurd (Option.some.inj hqu).symm hun
        · exact hptr q u j hq ((haround q (by omega) hpre).symm.trans hqu) hv
  · intro hlow' j hj
    have hpre : ¬ (path ++ [i]) <+: [j] := by
      intro hpre
      cases path with
      | nil =>
        have hij : i = j := by simpa using hpre
        have := hlow rfl
        omega
      | cons a path =>
        have hle := hpre.length_le
        simp at hle
    have heq := haround [j] (by simp) hpre
    simp only [follow_cons, follow_nil, Option.bind_fun_some] at heq
    exact heq.trans (hlow' j hj)

end Graft

section Entry

@[simp] theorem ensures_readPte (pte : PteRef) (s : Phys) (Q : ℕ → Phys → Prop) :
    Ensures (readPte pte) s Q ↔ Q (pteAt s.mem pte.table pte.idx) s := by
  rw [readPte, ensures_bind, ensures_get, ensures_pure]

@[simp] theorem ensures_writePte (pte : PteRef) (value : ℕ) (s : Phys) (Q : Unit → Phys → Prop) :
    Ensures (writePte pte value) s Q ↔
      Q () { s with mem := setPte s.mem pte.table pte.idx value } :=
  ensures_modify _ s Q

@[simp] theorem ensures_memset (pa : ℕ) (c : UInt8) (s : Phys) (Q : Unit → Phys → Prop) :
    Ensures (memset pa c) s Q ↔ Q () { s with mem := update s.mem pa (filled c) } :=
  ensures_modify _ s Q

end Entry

section Walk

/-- The indices of an address from a level down to the tables with the leaf entries. -/
def upperPath (va : ℕ) : ℕ → List ℕ
  | 0 => []
  | level + 1 => PX (level + 1) va :: upperPath va level

theorem upperPath_two (va : ℕ) : upperPath va 2 = pagePath (va / 4096) := (pagePath_eq_PX va).symm

/-- Without allocation, `walk` follows the links. -/
theorem ensures_walkFrom_false (va level t : ℕ) (s : Phys) (Q : Option PteRef → Phys → Prop) :
    Ensures (walkFrom false va level t) s Q ↔
      Q ((follow (child s.mem) t (upperPath va level)).map fun u => ⟨u, PX 0 va⟩) s := by
  induction level generalizing t with
  | zero => rw [walkFrom, ensures_pure]; rfl
  | succ level ih =>
    rw [walkFrom, ensures_bind, ensures_readPte, upperPath, follow_cons, child, linkOf]
    dsimp only
    split
    · exact ih _
    · exact ensures_pure none s Q

theorem ensures_walk_false {va : ℕ} (hva : va < MAXVA) (root : ℕ) (s : Phys) (Q : Option PteRef → Phys → Prop) :
    Ensures (walk root va false) s Q ↔
      Q ((leafTable s.mem root (va / 4096)).map fun t => ⟨t, PX 0 va⟩) s := by
  rw [walk, if_neg (not_le.2 hva), ensures_walkFrom_false, upperPath_two]
  rfl

/-- When the tables are there, `walk` only finds the entry. -/
theorem walkFrom_found {va level t u : ℕ} {s : Phys} (alloc : Bool)
    (h : follow (child s.mem) t (upperPath va level) = some u) :
    walkFrom alloc va level t s = .ok (some ⟨u, PX 0 va⟩, s) := by
  induction level generalizing t with
  | zero =>
    rw [← Option.some.inj h]
    rfl
  | succ level ih =>
    rw [upperPath, follow_cons, child, linkOf] at h
    split_ifs at h with hv
    · rw [walkFrom, bind_run]
      change (if hasFlag (pteAt s.mem t _) PTE_V then _ else _ : VmM (Option PteRef)) s = _
      rw [if_pos hv]
      exact ih h
    · cases h

theorem walk_found {root va t : ℕ} {s : Phys} (hva : va < MAXVA) (alloc : Bool)
    (h : leafTable s.mem root (va / 4096) = some t) : walk root va alloc s = .ok (some ⟨t, PX 0 va⟩, s) := by
  rw [walk, if_neg (not_le.2 hva)]
  refine walkFrom_found alloc ?_
  rw [upperPath_two]
  exact h

/-- Beyond the last address `walk` panics. -/
theorem walk_panic {va : ℕ} (hva : MAXVA ≤ va) (root : ℕ) (alloc : Bool) (s : Phys) :
    walk root va alloc s = .error .walk := by
  rw [walk, if_pos hva]
  rfl

variable [KernelImage]

/-- The pages of the free list are pages, and none is there twice. -/
structure FreeOk (l : List ℕ) : Prop where
  nodup : l.Nodup
  valid : ∀ x ∈ l, PageAddress x

theorem FreeOk.of_append_right {l l' : List ℕ} (h : FreeOk (l ++ l')) : FreeOk l' where
  nodup := (nodup_append.1 h.nodup).2.1
  valid x hx := h.valid x (mem_append_right l hx)

theorem Grown.freeOk {root : ℕ} {s s' : Phys} {l : List ℕ} {entries : ℕ → Option ℕ}
    (h : Grown root s s' l entries) (hf : FreeOk s.freelist) : FreeOk s'.freelist :=
  FreeOk.of_append_right (h.freelist ▸ hf)

/-- What `walk` has done when it was allowed to allocate. -/
structure Walked (root va : ℕ) (s : Phys) (r : Option PteRef) (s' : Phys) : Prop where
  grown : ∃ taken, Grown root s s' taken (leaf s.mem root)
  failed : r = none → s'.freelist = [] ∧ s'.exhausted = true
  found : ∀ pte, r = some pte → leafTable s'.mem root (va / 4096) = some pte.table ∧
    pte.idx = va / 4096 % 512 ∧ s'.exhausted = s.exhausted

variable {root va : ℕ}

/-- The loop of `walk` with allocation, from the table at the end of a path. -/
theorem walkFrom_true_spec (hva : va < MAXVA) (level : ℕ) (path : List ℕ)
    (hpath : path ++ upperPath va level = upperPath va 2) (hlen : path.length + level = 2) (t : ℕ) (s : Phys)
    (ht : follow (child s.mem) root path = some t) (hu : TreeOk s.mem root) (hf : FreeOk s.freelist)
    (ha : Apart s.mem root s.freelist) : Ensures (walkFrom true va level t) s (Walked root va s) := by
  induction level generalizing path t s with
  | zero =>
    rw [walkFrom, ensures_pure]
    refine ⟨⟨[], Grown.refl hu rfl rfl⟩, by simp, ?_⟩
    rintro pte ⟨⟩
    rw [upperPath, append_nil] at hpath
    refine ⟨?_, PX_zero_eq va, rfl⟩
    rw [leafTable, ← upperPath_two, ← hpath, ht]
  | succ level ih =>
    have hpath' : path ++ [PX (level + 1) va] ++ upperPath va level = upperPath va 2 := by
      rw [append_assoc]
      exact hpath
    have hlen' : (path ++ [PX (level + 1) va]).length + level = 2 := by
      rw [length_append, length_singleton]
      omega
    rw [walkFrom, ensures_bind, ensures_readPte]
    dsimp only
    split
    · next hv =>
      refine ih _ hpath' hlen' _ s ?_ hu hf ha
      rw [follow_concat, ht]
      change linkOf (pteAt s.mem t (PX (level + 1) va)) = _
      rw [linkOf, if_pos hv]
    · next hv =>
      rw [Bool.not_true, if_neg Bool.false_ne_true, ensures_bind]
      refine kalloc_spec ?_ ?_
      · intro hnil
        rw [ensures_pure]
        exact ⟨⟨[], Grown.refl hu rfl rfl⟩, fun _ => ⟨hnil, rfl⟩, by simp⟩
      · intro n rest hcons
        simp only [ensures_bind, ensures_memset, ensures_writePte, update_idem]
        have hinv : child s.mem t (PX (level + 1) va) = none := by
          rw [child, linkOf, if_neg hv]
        have hlow : path = [] → PX (level + 1) va < 256 := by
          rintro rfl
          have hlevel : level = 1 := by simpa using hlen
          rw [hlevel, PX_eq]
          have : va < 2 ^ 38 := hva
          omega
        have hn : PageAddress n := hf.valid n (hcons ▸ mem_cons_self)
        obtain ⟨hgrown, hfollow⟩ := graft_grown hu hcons hn ha (by omega) ht (PX_lt _ va) hinv hlow s.exhausted
        refine Ensures.mono (ih _ hpath' hlen' n _ hfollow hgrown.tree (hgrown.freeOk hf)
          (hgrown.apart hf.nodup ha fun _ _ => .inl)) ?_
        rintro r s' ⟨⟨taken, hgrown'⟩, hfailed, hfound⟩
        rw [funext hgrown.leaf_eq] at hgrown'
        exact ⟨⟨_, hgrown.trans hgrown'⟩, hfailed, hfound⟩

/-- `walk` with allocation finds or makes the table with the entry of an address. -/
theorem walk_true_spec (hva : va < MAXVA) {s : Phys} (hu : TreeOk s.mem root) (hf : FreeOk s.freelist)
    (ha : Apart s.mem root s.freelist) : Ensures (walk root va true) s (Walked root va s) := by
  rw [walk, if_neg (not_le.2 hva)]
  exact walkFrom_true_spec hva 2 [] rfl rfl root s rfl hu hf ha

end Walk

end Xv6.Vm

namespace Xv6

open List Library Vm

section Missing

/-- The tables that `walk` has to make below a table. -/
def missing (mem : ℕ → Page) (va : ℕ) : ℕ → ℕ → ℕ
  | 0, _ => 0
  | level + 1, t => ((child mem t (PX (level + 1) va)).map (missing mem va level)).getD (level + 1)

variable {mem mem' : ℕ → Page} {va level t : ℕ}

/-- Below an empty table all tables are missing. -/
theorem missing_empty (h : ∀ j, child mem t j = none) : missing mem va level t = level := by
  cases level with
  | zero => rfl
  | succ level => simp [missing, h]

/-- At most one table is missing at each level. -/
theorem missing_le : missing mem va level t ≤ level := by
  induction level generalizing t with
  | zero => exact le_refl 0
  | succ level ih =>
    rw [missing]
    cases child mem t (PX (level + 1) va) with
    | none => exact le_refl _
    | some u => exact (ih (t := u)).trans (Nat.le_succ level)

/-- The missing tables depend on the tables only. -/
theorem missing_congr (h : ∀ u ∈ reach (child mem) level t, mem' u = mem u) :
    missing mem' va level t = missing mem va level t := by
  induction level generalizing t with
  | zero => rfl
  | succ level ih =>
    have hchild : child mem' t = child mem t := by
      funext j
      rw [child, child, pteAt, pteAt, h t (root_mem_reach _ _ _)]
    rw [missing, missing, hchild]
    cases hu : child mem t (PX (level + 1) va) with
    | none => rfl
    | some u => simp [ih fun x hx => h x (mem_reach_succ.2 (.inr ⟨_, u, hu, hx⟩))]

/-- `walk` fails exactly if there are fewer free pages than missing tables, and otherwise takes one page
for each. -/
theorem walkFrom_missing (va level t : ℕ) (s : Phys) (hnodup : s.freelist.Nodup)
    (hout : ∀ x ∈ reach (child s.mem) level t, x ∉ s.freelist) :
    Ensures (walkFrom true va level t) s fun r s' =>
      (s.freelist.length < missing s.mem va level t → r = none) ∧
      (missing s.mem va level t ≤ s.freelist.length → r ≠ none ∧
        s'.freelist.length + missing s.mem va level t = s.freelist.length) := by
  induction level generalizing t s with
  | zero => simp [walkFrom, missing]
  | succ level ih =>
    rw [walkFrom, ensures_bind, ensures_readPte, missing, child, linkOf]
    split_ifs with hv hf
    · refine ih _ s hnodup fun x hx => hout x (mem_reach_succ.2 (.inr ⟨PX (level + 1) va, _, ?_, hx⟩))
      rw [child, linkOf, if_pos hv]
    · exact absurd hf (by decide)
    · rw [ensures_bind]
      refine kalloc_spec ?_ ?_
      · intro hnil
        simp [hnil]
      · intro n rest hcons
        rw [hcons] at hnodup hout
        have hn : t ≠ n := fun heq => hout t (root_mem_reach _ _ _) (heq ▸ mem_cons_self)
        simp only [ensures_bind, ensures_memset, ensures_writePte, Function.update_idem]
        -- the new table is empty
        have hempty : ∀ j, child (setPte (Function.update s.mem n (filled 0)) t (PX (level + 1) va)
            (PA2PTE n ||| PTE_V)) n j = none := by
          intro j
          rw [child, pteAt_setPte _ (PX_lt _ va), if_neg fun h => hn h.1.symm, pteAt_update_zero, linkOf_zero]
        have hmissing : missing _ va level n = level := missing_empty hempty
        refine (ih n _ (nodup_cons.1 hnodup).2 ?_).mono ?_
        · rintro x ⟨path, -, hx⟩
          cases path with
          | nil =>
            rw [← Option.some.inj hx]
            exact (nodup_cons.1 hnodup).1
          | cons j path =>
            rw [follow_cons, hempty] at hx
            cases hx
        · intro r s' hr
          simp only [hmissing] at hr
          simp only [Option.map_none, Option.getD_none, hcons, length_cons]
          refine ⟨fun hlt => hr.1 (by omega), fun hle => ?_⟩
          obtain ⟨hsome, hlen⟩ := hr.2 (by omega)
          exact ⟨hsome, by omega⟩

end Missing

end Xv6
