import Mathlib.Data.List.Nodup
import Xv6.Vm.Space

/-!
# Operations on address spaces

Mapping a fresh page and unmapping a range of pages are operations on an address space in the sense of
`SpaceStep`. Each specification also says how the leaf entries change and which pages keep their
contents.
-/

namespace Xv6.Vm

open Function Library List

variable [KernelImage]

/-- Pages outside the resources are outside the tables and the free list. -/
theorem not_table_of_not_resource {root x : ℕ} {s : Phys} (h : SpaceIn s root) (hx : x ∉ resources s root) :
    x ∉ tables s.mem root ∧ x ∉ s.freelist := by
  constructor
  · intro ht
    exact hx ⟨h.space.tabs x ht, .inl (mem_reach_three.2 (.inl ht))⟩
  · intro hf
    exact hx ⟨h.free.valid x hf, .inr hf⟩

variable {entries : ℕ → Option ℕ} {base : ℕ}

section Unmap

omit [KernelImage] in
/-- Different leaves lead to different pages, so a range of them has no page twice. -/
theorem leafPages_nodup (base n : ℕ)
    (hinj : ∀ vpn vpn' w w', entries vpn = some w → entries vpn' = some w' →
      PTE2PA w = PTE2PA w' → vpn = vpn') : (leafPages entries base n).Nodup := by
  induction n generalizing base with
  | zero => exact nodup_nil
  | succ n ih =>
    rw [leafPages]
    refine nodup_append.2 ⟨?_, ih (base + 1), ?_⟩
    · cases entries base <;> simp
    · rintro x hx y hy rfl
      obtain ⟨w, hw, hwx⟩ := Option.map_eq_some_iff.1 (Option.mem_toList.1 hx)
      obtain ⟨vpn, w', hle, -, hw', hwx'⟩ := mem_leafPages.1 hy
      have := hinj base vpn w w' hw hw' (hwx.trans hwx'.symm)
      omega

omit [KernelImage] in
/-- A restricted map is defined outside the range only. -/
theorem without_eq_some {k vpn w : ℕ} :
    without entries base k vpn = some w ↔
      entries vpn = some w ∧ ¬ (base ≤ vpn ∧ vpn < base + k) := by
  rw [without]
  split_ifs with h
  · simp [h]
  · simp [h]

variable {root va npages : ℕ} {s : Phys}

/-- The address space that is left of one is an address space. -/
theorem Shrunk.space {s' : Phys} {n : ℕ} {freed : List ℕ} (h : Space s.mem root)
    (hs : Shrunk root s s' freed (without (leaf s.mem root) base n)) : Space s'.mem root where
  tree := hs.tree
  pointers := hs.pointers h.pointers
  low := hs.low h.low
  inj vpn vpn' w w' hw hw' := by
    rw [hs.leaf_eq, without_eq_some] at hw hw'
    exact h.inj vpn vpn' w w' hw.1 hw'.1
  tabs t ht := by
    rw [hs.tables_eq] at ht
    exact h.tabs t ht
  pages vpn w hw := by
    rw [hs.leaf_eq, without_eq_some] at hw
    exact h.pages vpn w hw.1
  perm vpn w hw := by
    rw [hs.leaf_eq, without_eq_some] at hw
    exact h.perm vpn w hw.1

/-- Unmapping a range of pages and freeing them is an operation on the address space. -/
theorem Shrunk.spaceStep {s' : Phys} {n : ℕ} (h : SpaceIn s root)
    (hs : Shrunk root s s' (freedPages true (leaf s.mem root) base n)
      (without (leaf s.mem root) base n))
    (hvalid : ∀ vpn w, base ≤ vpn → vpn < base + n → leaf s.mem root vpn = some w →
      PageAddress (PTE2PA w)) : SpaceStep root s s' := by
  have hfreed : ∀ x, x ∈ freedPages true (leaf s.mem root) base n ↔
      ∃ vpn w, base ≤ vpn ∧ vpn < base + n ∧ leaf s.mem root vpn = some w ∧ PTE2PA w = x := by
    intro x
    rw [freedPages, if_pos rfl, mem_reverse, mem_leafPages]
  have hreach : ∀ x, x ∈ reach (child s'.mem) 3 root ↔ x ∈ tables s.mem root ∨
      ∃ vpn w, (leaf s.mem root vpn = some w ∧ ¬ (base ≤ vpn ∧ vpn < base + n)) ∧ PTE2PA w = x := by
    intro x
    rw [mem_reach_three, hs.tables_eq]
    simp only [hs.leaf_eq, without_eq_some]
  have hsub : ∀ x, x ∈ reach (child s'.mem) 3 root → x ∈ reach (child s.mem) 3 root := by
    intro x hx
    rw [mem_reach_three]
    rcases (hreach x).1 hx with ht | ⟨vpn, w, ⟨hw, -⟩, hwx⟩
    · exact .inl ht
    · exact .inr ⟨vpn, w, hw, hwx⟩
  refine ⟨⟨hs.space h.space, ⟨?_, ?_⟩, ?_⟩, ?_, ?_⟩
  · rw [hs.freelist]
    refine nodup_append.2 ⟨?_, h.free.nodup, ?_⟩
    · rw [freedPages, if_pos rfl]
      exact nodup_reverse.2 (leafPages_nodup base n h.space.inj)
    · rintro x hx y hy rfl
      obtain ⟨vpn, w, -, -, hw, hwx⟩ := (hfreed x).1 hx
      exact h.apart x hy (mem_reach_three.2 (.inr ⟨vpn, w, hw, hwx⟩))
  · intro x hx
    rw [hs.freelist, mem_append] at hx
    rcases hx with hx | hx
    · obtain ⟨vpn, w, hle, hlt, hw, rfl⟩ := (hfreed x).1 hx
      exact hvalid vpn w hle hlt hw
    · exact h.free.valid x hx
  · intro x hx hmem
    rw [hs.freelist, mem_append] at hx
    rcases hx with hx | hx
    · obtain ⟨vpn, w, hle, hlt, hw, rfl⟩ := (hfreed x).1 hx
      rcases (hreach _).1 hmem with ht | ⟨vpn', w', ⟨hw', hout⟩, heq⟩
      · exact h.space.tree.leaf_not_mem_tables hw ht
      · have hv := h.space.inj vpn' vpn w' w hw' hw heq
        exact hout ⟨hv ▸ hle, hv ▸ hlt⟩
    · exact h.apart x hx (hsub x hmem)
  · ext x
    refine and_congr_right fun _ => ?_
    rw [hs.freelist, mem_append, hfreed, hreach, mem_reach_three]
    constructor
    · rintro ((ht | ⟨vpn, w, ⟨hw, -⟩, hwx⟩) | ⟨vpn, w, -, -, hw, hwx⟩ | hx)
      · exact .inl (.inl ht)
      · exact .inl (.inr ⟨vpn, w, hw, hwx⟩)
      · exact .inl (.inr ⟨vpn, w, hw, hwx⟩)
      · exact .inr hx
    · rintro ((ht | ⟨vpn, w, hw, hwx⟩) | hx)
      · exact .inl (.inl ht)
      · by_cases hin : base ≤ vpn ∧ vpn < base + n
        · exact .inr (.inl ⟨vpn, w, hin.1, hin.2, hw, hwx⟩)
        · exact .inl (.inr ⟨vpn, w, ⟨hw, hin⟩, hwx⟩)
      · exact .inr (.inr hx)
  · intro x hx
    refine hs.frame x (not_table_of_not_resource h hx).1 ?_
    intro hf
    obtain ⟨vpn, w, hle, hlt, hw, rfl⟩ := (hfreed x).1 hf
    exact hx ⟨hvalid vpn w hle hlt hw, .inl (mem_reach_three.2 (.inr ⟨vpn, w, hw, rfl⟩))⟩

/-- Unmapping pages which are not the trampoline. -/
theorem uvmunmap_space (h : SpaceIn s root) (hva : va % 4096 = 0)
    (hmax : va + npages * 4096 ≤ MAXVA)
    (htramp : ∀ vpn w, va / 4096 ≤ vpn → vpn < va / 4096 + npages → leaf s.mem root vpn = some w →
      PTE2PA w ≠ KernelImage.trampoline) :
    Ensures (uvmunmap root va npages true) s fun _ s' => SpaceStep root s s' ∧
      Shrunk root s s' (freedPages true (leaf s.mem root) (va / 4096) npages)
        (without (leaf s.mem root) (va / 4096) npages) := by
  have hvalid : ∀ vpn w, va / 4096 ≤ vpn → vpn < va / 4096 + npages → leaf s.mem root vpn = some w →
      PageAddress (PTE2PA w) :=
    fun vpn w hle hlt hw => h.space.pages vpn w hw (htramp vpn w hle hlt hw)
  refine Ensures.mono (uvmunmap_spec hva hmax h.space.tree fun _ i hi w hw => hvalid _ w (by omega) (by omega) hw) ?_
  intro _ s' hs
  exact ⟨hs.spaceStep h hvalid, hs⟩

end Unmap

section Map

variable {root va perm : ℕ} {s : Phys} {contents : (ℕ → Page) → Page}

/-- What the allocation and mapping of a page has done. -/
structure AllocMapped (root vpn perm : ℕ) (contents : (ℕ → Page) → Page) (s : Phys)
    (r : Option ℕ) (s' : Phys) : Prop where
  quiet : Quiet root s s'
  failed : r = none → (∀ v, leaf s'.mem root v = leaf s.mem root v) ∧ s'.exhausted = true
  mapped : ∀ n, r = some n → n ∈ s.freelist ∧
    (∀ v, leaf s'.mem root v = Function.update (leaf s.mem root) vpn (some (mkPte n perm)) v) ∧
    s'.mem n = contents (Function.update s.mem n (filled 5)) ∧ s'.exhausted = s.exhausted ∧
    s'.freelist.length < s.freelist.length ∧ s.freelist.length ≤ s'.freelist.length + 3

omit [KernelImage] in
/-- Permissions that survive in an entry. -/
theorem hasFlag_mkPte {pa perm flag : ℕ} (h : hasFlag perm flag) : hasFlag (mkPte pa perm) flag := by
  rw [mkPte, hasFlag_or, hasFlag_or, h, Bool.or_true, Bool.true_or]

/-- Tables that are only added keep the address space, and the pages stay where they are. -/
theorem Grown.spaceStep {s' : Phys} {taken : List ℕ} (h : SpaceIn s root)
    (hg : Grown root s s' taken (leaf s.mem root)) : SpaceStep root s s' := by
  refine ⟨⟨hg.space h.space h.free h.space.inj h.space.pages h.space.perm, hg.freeOk h.free,
    hg.apart h.free.nodup h.apart fun _ _ => .inl⟩, ?_, ?_⟩
  · ext x
    refine and_congr_right fun _ => ?_
    rw [mem_reach_three, mem_reach_three, hg.tables_iff, hg.freelist, mem_append]
    simp only [hg.leaf_eq]
    rw [or_right_comm (a := x ∈ tables s.mem root) (b := x ∈ taken), or_assoc]
  · intro x hx
    obtain ⟨ht, hf⟩ := not_table_of_not_resource h hx
    exact hg.quiet ht hf

/-- The memory in which a page has been taken from the free list and filled. -/
def Phys.take (s : Phys) (n : ℕ) (rest : List ℕ) (page : Page) : Phys :=
  { s with freelist := rest, mem := Function.update s.mem n page }

section Take

variable {n : ℕ} {rest : List ℕ} (h : SpaceIn s root) (hcons : s.freelist = n :: rest) (page : Page)

include h hcons

theorem take_not_reach : n ∉ reach (child s.mem) 3 root := h.apart n (hcons ▸ mem_cons_self)

theorem take_not_table : n ∉ tables s.mem root := fun ht => take_not_reach h hcons (mem_reach_three.2 (.inl ht))

theorem take_pageAddress : PageAddress n := h.free.valid n (hcons ▸ mem_cons_self)

theorem take_not_rest : n ∉ rest := by
  have hnodup := h.free.nodup
  rw [hcons] at hnodup
  exact (nodup_cons.1 hnodup).1

/-- The tables are not touched. -/
theorem take_same : ∀ t ∈ tables s.mem root, (s.take n rest page).mem t = s.mem t := by
  intro t ht
  have hne : t ≠ n := by
    rintro rfl
    exact take_not_table h hcons ht
  exact update_of_ne hne _ _

theorem SpaceIn.take : SpaceIn (s.take n rest page) root := by
  have hnodup := h.free.nodup
  rw [hcons] at hnodup
  have hrest : ∀ x ∈ rest, x ∈ s.freelist := fun x hx => hcons ▸ mem_cons_of_mem n hx
  refine ⟨h.space.congr (take_same h hcons page),
    ⟨(nodup_cons.1 hnodup).2, fun x hx => h.free.valid x (hrest x hx)⟩, ?_⟩
  intro x hx
  rw [reach_three_congr (take_same h hcons page)]
  exact h.apart x (hrest x hx)

/-- The pages outside the address space and the free list keep their contents. -/
theorem take_quiet {s' : Phys} {taken : List ℕ} (hg : Grown root (s.take n rest page) s' taken entries) (x : ℕ)
    (ht : x ∉ tables s.mem root) (hf : x ∉ s.freelist) : s'.mem x = s.mem x := by
  rw [hcons, mem_cons, not_or] at hf
  rw [hg.quiet (by rw [tables_congr (take_same h hcons page)]; exact ht) hf.2]
  exact update_of_ne hf.1 _ _

end Take

omit [KernelImage] in
/-- The entries after one has been added. -/
theorem update_eq_some {w v w' : ℕ} (h : update entries base (some w) v = some w') :
    (v = base ∧ w' = w) ∨ (v ≠ base ∧ entries v = some w') := by
  by_cases hv : v = base
  · rw [hv, update_self] at h
    exact .inl ⟨hv, (Option.some.inj h).symm⟩
  · rw [update_of_ne hv] at h
    exact .inr ⟨hv, h⟩

/-- A page has been mapped that belongs neither to the address space nor to the free list. -/
theorem Grown.foreign {vpn pa : ℕ} {s' : Phys} {taken : List ℕ} (h : SpaceIn s root)
    (hgrown : Grown root s s' taken (update (leaf s.mem root) vpn (some (mkPte pa perm))))
    (hpte : PTE2PA (mkPte pa perm) = pa) (hrwx : hasFlag perm PTE_RWX)
    (hvalid : pa ≠ KernelImage.trampoline → PageAddress pa)
    (hout : pa ∉ reach (child s.mem) 3 root) (hfree : pa ∉ s.freelist) : SpaceIn s' root := by
  refine ⟨hgrown.space h.space h.free ?_ ?_ ?_, hgrown.freeOk h.free, ?_⟩
  · intro v v' w w' hw hw' heq
    -- the new leaf is the only one that leads to the page
    have hother : ∀ u x, leaf s.mem root u = some x → PTE2PA x ≠ pa := by
      intro u x hx hpa
      exact hout (mem_reach_three.2 (.inr ⟨u, x, hx, hpa⟩))
    obtain ⟨rfl, rfl⟩ | ⟨-, hold⟩ := update_eq_some hw
    · obtain ⟨rfl, rfl⟩ | ⟨-, hold'⟩ := update_eq_some hw'
      · rfl
      · exact absurd (heq.symm.trans hpte) (hother _ _ hold')
    · obtain ⟨rfl, rfl⟩ | ⟨-, hold'⟩ := update_eq_some hw'
      · exact absurd (heq.trans hpte) (hother _ _ hold)
      · exact h.space.inj v v' w w' hold hold' heq
  · intro v w hw
    obtain ⟨rfl, rfl⟩ | ⟨-, hold⟩ := update_eq_some hw
    · rw [hpte]
      exact hvalid
    · exact h.space.pages v w hold
  · intro v w hw
    obtain ⟨rfl, rfl⟩ | ⟨-, hold⟩ := update_eq_some hw
    · exact hasFlag_mkPte hrwx
    · exact h.space.perm v w hold
  · apply hgrown.apart h.free.nodup h.apart
    intro v w hw
    obtain ⟨rfl, rfl⟩ | ⟨-, hold⟩ := update_eq_some hw
    · rw [hpte]
      exact .inr hfree
    · exact .inl hold

section Outcome

variable {n vpn : ℕ} {rest taken : List ℕ} {page : Page} {s' : Phys} (h : SpaceIn s root)
  (hcons : s.freelist = n :: rest)

include h hcons

/-- Mapping the page taken from the free list is an operation on the address space. -/
theorem spaceStep_of_mapped (hpte : PTE2PA (mkPte n perm) = n) (hrwx : hasFlag perm PTE_RWX)
    (hnone : leaf s.mem root vpn = none)
    (hg : Grown root (s.take n rest page) s' taken
      (update (leaf s.mem root) vpn (some (mkPte n perm)))) : SpaceStep root s s' := by
  have hsame := take_same h hcons page
  have hsplit : rest = taken ++ s'.freelist := hg.freelist
  have hgrown := hg
  rw [← funext (leaf_congr hsame)] at hgrown
  refine ⟨hgrown.foreign (h.take hcons page) hpte hrwx (fun _ => take_pageAddress h hcons) ?_
    (take_not_rest h hcons), ?_, ?_⟩
  · rw [reach_three_congr hsame]
    exact take_not_reach h hcons
  · ext x
    refine and_congr_right fun _ => ?_
    rw [mem_reach_three, mem_reach_three, hg.tables_iff, tables_congr hsame, hcons, hsplit]
    simp only [hg.leaf_eq, mem_cons, mem_append]
    constructor
    · rintro (((ht | ht) | ⟨v, w, hw, rfl⟩) | hx)
      · exact .inl (.inl ht)
      · exact .inr (.inr (.inl ht))
      · rcases update_eq_some hw with ⟨-, rfl⟩ | ⟨-, hold⟩
        · exact .inr (.inl hpte)
        · exact .inl (.inr ⟨v, w, hold, rfl⟩)
      · exact .inr (.inr (.inr hx))
    · rintro ((ht | ⟨v, w, hold, rfl⟩) | rfl | ht | hx)
      · exact .inl (.inl (.inl ht))
      · have hv : v ≠ vpn := by
          rintro rfl
          rw [hnone] at hold
          cases hold
        exact .inl (.inr ⟨v, w, by rw [update_of_ne hv]; exact hold, rfl⟩)
      · exact .inl (.inr ⟨vpn, _, update_self _ _ _, hpte⟩)
      · exact .inl (.inl (.inr ht))
      · exact .inr hx
  · intro x hx
    obtain ⟨ht, hf⟩ := not_table_of_not_resource h hx
    exact take_quiet h hcons page hg x ht hf

/-- The new tables come from the free list. -/
theorem take_tables_sub (hg : Grown root (s.take n rest page) s' taken entries) (x : ℕ)
    (hx : x ∈ tables s'.mem root) : x ∈ tables s.mem root ∨ x ∈ s.freelist := by
  rw [hg.tables_iff, tables_congr (take_same h hcons page)] at hx
  exact hx.imp_right fun ht => hcons ▸ mem_cons_of_mem n (hg.taken_sub ht)

/-- The page that goes back has not become a table. -/
theorem tables_of_returned (hg : Grown root (s.take n rest page) s' taken (leaf s.mem root)) :
    ∀ t ∈ tables s'.mem root, (s'.free n).mem t = s'.mem t := by
  have hnt : n ∉ tables s'.mem root := by
    rw [hg.tables_iff, tables_congr (take_same h hcons page), not_or]
    exact ⟨take_not_table h hcons, fun ht => take_not_rest h hcons (hg.taken_sub ht)⟩
  intro t ht
  apply free_mem_of_ne
  intro heq
  exact hnt (heq ▸ ht)

/-- Giving the page back after the tables for it could not be allocated. -/
theorem quiet_of_returned (hnil : s'.freelist = []) (hex : s'.exhausted = true)
    (hg : Grown root (s.take n rest page) s' taken (leaf s.mem root)) :
    Quiet root s (s'.free n) ∧ ∀ v, leaf (s'.free n).mem root v = leaf s.mem root v := by
  have h₁ := h.take hcons page
  have hsame := take_same h hcons page
  have hsplit : rest = taken := by
    have hsplit : rest = taken ++ s'.freelist := hg.freelist
    rwa [hnil, append_nil] at hsplit
  have hfree : (s'.free n).freelist = [n] := by rw [free_freelist, hnil]
  have hback := tables_of_returned h hcons hg
  have hreach : ∀ x, x ∈ reach (child (s'.free n).mem) 3 root ↔
      (x ∈ tables s.mem root ∨ x ∈ taken) ∨ ∃ v w, leaf s.mem root v = some w ∧ PTE2PA w = x := by
    intro x
    rw [reach_three_congr hback, mem_reach_three, hg.tables_iff, tables_congr hsame]
    simp only [hg.leaf_eq]
  have hquiet : ∀ x, x ∉ tables s.mem root → x ∉ s.freelist → (s'.free n).mem x = s.mem x := by
    intro x ht hf
    have hxn : x ≠ n := fun heq => hf (heq ▸ hcons ▸ mem_cons_self)
    rw [free_mem_of_ne s' hxn]
    exact take_quiet h hcons page hg x ht hf
  have hspace : Space s'.mem root := hg.space h₁.space h₁.free h.space.inj h.space.pages h.space.perm
  refine ⟨⟨⟨⟨hspace.congr hback, ?_, ?_⟩, ?_, ?_⟩, hquiet, ?_, ?_, fun _ => hex⟩,
    fun v => (leaf_congr hback v).trans (hg.leaf_eq v)⟩
  · rw [hfree]
    exact ⟨by simp, fun x hx => by rw [mem_singleton.1 hx]; exact take_pageAddress h hcons⟩
  · intro x hx
    rw [hfree, mem_singleton] at hx
    rw [hx, hreach, not_or, not_or]
    refine ⟨⟨take_not_table h hcons, fun ht => take_not_rest h hcons (hsplit ▸ ht)⟩, fun hex => ?_⟩
    exact take_not_reach h hcons (mem_reach_three.2 (.inr hex))
  · ext x
    refine and_congr_right fun _ => ?_
    rw [hreach, hfree, mem_reach_three, hcons, hsplit, mem_singleton, mem_cons,
      or_right_comm (a := x ∈ tables s.mem root) (b := x ∈ taken), or_assoc, or_comm (a := x ∈ taken)]
  · intro x hx
    obtain ⟨ht, hf⟩ := not_table_of_not_resource h hx
    exact hquiet x ht hf
  · intro x hx
    rw [tables_congr hback] at hx
    exact take_tables_sub h hcons hg x hx
  · intro x hx
    rw [hfree, mem_singleton] at hx
    rw [hx, hcons]
    exact mem_cons_self

end Outcome

/-- How the allocation and mapping of a page can end: there is no page, it is mapped, or there is no
table for it and it goes back. -/
inductive AllocOutcome (root vpn perm : ℕ) (contents : (ℕ → Page) → Page) (s : Phys) :
    Option ℕ → Phys → Prop
  | empty (nil : s.freelist = []) : AllocOutcome root vpn perm contents s none { s with exhausted := true }
  | mapped (n : ℕ) (rest taken : List ℕ) (s' : Phys) (cons : s.freelist = n :: rest)
      (grown : Grown root (s.take n rest (contents (Function.update s.mem n (filled 5)))) s' taken
        (Function.update (leaf s.mem root) vpn (some (mkPte n perm))))
      (exhausted : s'.exhausted = s.exhausted)
      (room : s'.freelist.length + missing s.mem (vpn * 4096) 2 root = rest.length) :
      AllocOutcome root vpn perm contents s (some n) s'
  | returned (n : ℕ) (rest taken : List ℕ) (s' : Phys) (cons : s.freelist = n :: rest)
      (grown : Grown root (s.take n rest (contents (Function.update s.mem n (filled 5)))) s' taken
        (leaf s.mem root))
      (nil : s'.freelist = []) (exhausted : s'.exhausted = true)
      (short : rest.length < missing s.mem (vpn * 4096) 2 root) :
      AllocOutcome root vpn perm contents s none (s'.free n)

/-- Allocating a page and mapping it at a free address has one of the outcomes. -/
theorem allocMap_outcome (h : SpaceIn s root) (hva : va % 4096 = 0) (hmax : va < MAXVA)
    (hnone : leaf s.mem root (va / 4096) = none) (hperm : perm < 1024) :
    Ensures (allocMap root va perm contents) s (AllocOutcome root (va / 4096) perm contents s) := by
  rw [allocMap, ensures_bind]
  refine kalloc_spec ?_ ?_
  · intro hnil
    exact (ensures_pure _ _ _).2 (.empty hnil)
  intro n rest hcons
  simp only [ensures_bind, ensures_modify, Phys.setPage, update_idem]
  let page := contents (update s.mem n (filled 5))
  change Ensures (mappages root va PGSIZE n perm) (s.take n rest page) _
  have h₁ := h.take hcons page
  have hsame := take_same h hcons page
  have hpage := take_pageAddress h hcons
  refine (mappages_one hva hmax hperm hpage.1 hpage.lt_two_pow h₁.space.tree h₁.free h₁.apart
    ((leaf_congr hsame _).trans hnone) ?_ (take_not_rest h hcons)).mono ?_
  · rw [tables_congr hsame]
    exact take_not_table h hcons
  have hvpn : va = va / 4096 * 4096 := by omega
  have hmissing : missing (s.take n rest page).mem va 2 root = missing s.mem (va / 4096 * 4096) 2 root := by
    rw [← hvpn]
    exact missing_congr hsame
  rw [funext (leaf_congr hsame), hmissing]
  rintro r s₂ ⟨taken, ⟨rfl, hgrown, hex, hroom⟩ | ⟨rfl, hgrown, hnil, hex, hshort⟩⟩
  · rw [if_neg (by decide), ensures_pure]
    exact .mapped n rest taken s₂ hcons hgrown hex hroom
  · rw [if_pos (by decide), ensures_bind]
    apply kfree_spec hpage
    rw [ensures_pure]
    exact .returned n rest taken s₂ hcons hgrown hnil hex hshort

variable {r : Option ℕ}

/-- What every outcome has done to the address space. -/
theorem AllocOutcome.allocMapped {vpn : ℕ} {s' : Phys} (h : SpaceIn s root)
    (hnone : leaf s.mem root vpn = none) (hperm : perm < 1024) (hrwx : hasFlag perm PTE_RWX)
    (ho : AllocOutcome root vpn perm contents s r s') : AllocMapped root vpn perm contents s r s' := by
  cases ho with
  | empty _ =>
    exact ⟨⟨⟨⟨h.space, h.free, h.apart⟩, rfl, fun _ _ => rfl⟩,
      fun _ _ _ => rfl, fun _ => .inl, fun _ => id, fun _ => rfl⟩, fun _ => ⟨fun _ => rfl, rfl⟩,
      fun n hn => nomatch hn⟩
  | mapped n rest taken _ hcons hgrown hex hroom =>
    have hpage := take_pageAddress h hcons
    have hpte : PTE2PA (mkPte n perm) = n := PTE2PA_mkPte hpage.1 hpage.lt_two_pow hperm
    have hsame := take_same h hcons (contents (update s.mem n (filled 5)))
    refine ⟨⟨spaceStep_of_mapped h hcons hpte hrwx hnone hgrown, take_quiet h hcons _ hgrown,
      take_tables_sub h hcons hgrown, fun x hx => ?_, fun hx => hex.trans hx⟩,
      nofun, ?_⟩
    · exact hcons ▸ mem_cons_of_mem n (hgrown.free_sub hx)
    intro m hm
    obtain rfl : n = m := Option.some.inj hm
    have hmissing : missing s.mem (vpn * 4096) 2 root ≤ 2 := missing_le
    have hlength : s'.freelist.length < s.freelist.length ∧ s.freelist.length ≤ s'.freelist.length + 3 := by
      rw [hcons, length_cons]
      omega
    refine ⟨hcons ▸ mem_cons_self, hgrown.leaf_eq, ?_, hex, hlength⟩
    have hnt : n ∉ taken := fun ht => take_not_rest h hcons (hgrown.taken_sub ht)
    rw [hgrown.frame n (by rw [tables_congr hsame]; exact take_not_table h hcons) hnt]
    exact update_self _ _ _
  | returned n rest taken s₂ hcons hgrown hnil hex _ =>
    obtain ⟨hquiet, hleaf⟩ := quiet_of_returned h hcons hnil hex hgrown
    exact ⟨hquiet, fun _ => ⟨hleaf, hex⟩, fun m hm => nomatch hm⟩

/-- Allocating a page and mapping it at a free address. -/
theorem allocMap_spec (h : SpaceIn s root) (hva : va % 4096 = 0) (hmax : va < MAXVA)
    (hnone : leaf s.mem root (va / 4096) = none) (hperm : perm < 1024) (hrwx : hasFlag perm PTE_RWX) :
    Ensures (allocMap root va perm contents) s (AllocMapped root (va / 4096) perm contents s) :=
  (allocMap_outcome h hva hmax hnone hperm).mono fun _ _ ho => ho.allocMapped h hnone hperm hrwx

/-- The tables of an address space are still there, and what is still free has not been written, apart
from a last page that went back. -/
structure Steady (root : ℕ) (s s' : Phys) (failed : Prop) : Prop where
  tables : ∀ x ∈ Vm.tables s.mem root, x ∈ Vm.tables s'.mem root
  sub : ∀ x ∈ s'.freelist, x ∈ s.freelist
  free : ∀ x ∈ s'.freelist, s'.mem x = s.mem x ∨ (failed ∧ s'.freelist = [x])

variable {failed : Prop}

omit [KernelImage] in
theorem Steady.refl : Steady root s s failed := ⟨fun _ => id, fun _ => id, fun _ _ => .inl rfl⟩

omit [KernelImage] in
/-- Only the last step can have failed. -/
theorem Steady.trans {s₁ s' : Phys} (h : Steady root s s₁ False)
    (h' : Steady root s₁ s' failed) : Steady root s s' failed where
  tables x hx := h'.tables x (h.tables x hx)
  sub x hx := h.sub x (h'.sub x hx)
  free x hx := by
    have hfirst := (h.free x (h'.sub x hx)).resolve_right fun hf => hf.1
    obtain hsame | hfailed := h'.free x hx
    · exact .inl (hsame.trans hfirst)
    · exact .inr hfailed

omit [KernelImage] in
theorem Steady.mono {s' : Phys} {failed' : Prop} (h : Steady root s s' failed)
    (himp : failed → failed') : Steady root s s' failed' :=
  ⟨h.tables, h.sub, fun x hx => (h.free x hx).imp_right fun hf => ⟨himp hf.1, hf.2⟩⟩

omit [KernelImage] in
/-- A page is mapped exactly if there are free pages for it and for the missing tables. -/
theorem AllocOutcome.none_iff {vpn : ℕ} {s' : Phys} (ho : AllocOutcome root vpn perm contents s r s') :
    r = none ↔ s.freelist.length ≤ missing s.mem (vpn * 4096) 2 root := by
  cases ho with
  | empty hnil => exact iff_of_true rfl (hnil ▸ Nat.zero_le _)
  | mapped n rest _ _ hcons _ _ hroom =>
    refine iff_of_false (Option.some_ne_none n) ?_
    rw [hcons, length_cons]
    omega
  | returned n rest _ _ hcons _ _ _ hshort =>
    refine iff_of_true rfl ?_
    rw [hcons, length_cons]
    exact hshort

omit [KernelImage] in
/-- Three free pages are enough for a page and its tables. -/
theorem AllocOutcome.ne_none {vpn : ℕ} {s' : Phys}
    (ho : AllocOutcome root vpn perm contents s r s') (hroom : 3 ≤ s.freelist.length) : r ≠ none := by
  rw [Ne, ho.none_iff]
  have hle : missing s.mem (vpn * 4096) 2 root ≤ 2 := missing_le
  omega

/-- Allocating and mapping a page is steady. -/
theorem AllocOutcome.steady {vpn : ℕ} {s' : Phys} (h : SpaceIn s root)
    (ho : AllocOutcome root vpn perm contents s r s') : Steady root s s' (r = none) := by
  cases ho with
  | empty _ => exact ⟨fun _ => id, fun _ => id, fun _ _ => .inl rfl⟩
  | mapped n rest taken _ hcons hgrown hex _ =>
    have hsame := take_same h hcons (contents (update s.mem n (filled 5)))
    have hsplit : rest = taken ++ s'.freelist := hgrown.freelist
    have hnodup : (taken ++ s'.freelist).Nodup := by
      have hnodup := h.free.nodup
      rw [hcons, hsplit] at hnodup
      exact (nodup_cons.1 hnodup).2
    have hrest : ∀ x ∈ s'.freelist, x ∈ rest := fun x hx => hgrown.free_sub hx
    have hsub : ∀ x ∈ s'.freelist, x ∈ s.freelist := fun x hx => hcons ▸ mem_cons_of_mem n (hrest x hx)
    refine ⟨fun x hx => ?_, hsub, fun x hx => .inl ?_⟩
    · rw [hgrown.tables_iff, tables_congr hsame]
      exact .inl hx
    · have hne : x ≠ n := fun heq => take_not_rest h hcons (heq ▸ hrest x hx)
      have htaken : x ∉ taken := fun ht => (nodup_append.1 hnodup).2.2 x ht x hx rfl
      have htable : x ∉ tables s.mem root := fun ht => h.apart x (hsub x hx) (mem_reach_three.2 (.inl ht))
      rw [hgrown.frame x (by rwa [tables_congr hsame]) htaken]
      exact update_of_ne hne _ _
  | returned n rest taken s₂ hcons hgrown hnil hex _ =>
    have hsame := take_same h hcons (contents (update s.mem n (filled 5)))
    have hfree : (s₂.free n).freelist = [n] := by rw [free_freelist, hnil]
    refine ⟨fun x hx => ?_, fun x hx => ?_, fun x hx => .inr ⟨rfl, ?_⟩⟩
    · rw [tables_congr (tables_of_returned h hcons hgrown), hgrown.tables_iff, tables_congr hsame]
      exact .inl hx
    · rw [hfree, mem_singleton] at hx
      rw [hx, hcons]
      exact mem_cons_self
    · rw [hfree, mem_singleton] at hx
      rw [hfree, hx]

end Map

end Xv6.Vm
