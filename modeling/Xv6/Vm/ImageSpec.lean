import Mathlib.Data.Finset.Card
import Mathlib.Order.Interval.Finset.Nat
import Xv6.Vm.FillSpec

/-!
# A new image under construction

The user pages of a new image are the pages below the size that it has reached. `uvmalloc` adds pages
above them, segments and arguments are written into them, and `uvmclear` takes user access from the
guard page. All pages of the image come from the free list.
-/

namespace Xv6.Vm

open Function Library

variable [KernelImage]

/-- There are at most 32768 pages. -/
theorem FreeOk.length_le {l : List ℕ} (h : FreeOk l) : l.length ≤ 32768 := by
  have hkend : 0x80000000 ≤ KernelImage.kend :=
    KernelImage.kernbase_le_trampoline.trans KernelImage.trampoline_lt_kend.le
  rw [← List.toFinset_card_of_nodup h.nodup]
  have hcard : (Finset.Ico 0x80000 0x88000).card = 32768 := by
    rw [Nat.card_Ico]
  rw [← hcard]
  apply Finset.card_le_card_of_injOn (fun x => x / 4096)
  · intro x hx
    have hpage := h.valid x (List.mem_toFinset.1 hx)
    have hlow : 0x80000000 ≤ x := hkend.trans hpage.2.1
    have hhigh : x < 0x88000000 := hpage.2.2
    change x / 4096 ∈ Finset.Ico 0x80000 0x88000
    rw [Finset.mem_Ico]
    omega
  · intro x hx y hy heq
    have hx4 : x % 4096 = 0 := (h.valid x (List.mem_toFinset.1 hx)).1
    have hy4 : y % 4096 = 0 := (h.valid y (List.mem_toFinset.1 hy)).1
    change x / 4096 = y / 4096 at heq
    omega

/-- The shape of an image: no user page lies above its size. -/
structure Built (root tf sz : ℕ) (s₀ s : Phys) : Prop where
  space : ProcSpace s root tf
  step : SpaceStep root s₀ s
  only : ∀ v w, leaf s.mem root v = some w → v < pageCount sz ∨ v = trampVpn ∨ v = tfVpn
  room : pageCount sz + s.freelist.length ≤ s₀.freelist.length

/-- An image without guard page: all pages below its size are user pages. -/
structure Image (root tf sz : ℕ) (s₀ s : Phys) : Prop extends Built root tf sz s₀ s where
  below : ∀ v < pageCount sz, ∃ w, leaf s.mem root v = some w ∧ hasFlag w PTE_U = true

section Built

variable {root tf sz : ℕ} {s₀ s s' : Phys}

/-- An image is far below the trapframe. -/
theorem Built.pageCount_le (h : Built root tf sz s₀ s) (hfree : FreeOk s₀.freelist) : pageCount sz ≤ 32768 :=
  (Nat.le_of_add_right_le h.room).trans hfree.length_le

theorem Built.size_le (h : Built root tf sz s₀ s) (hfree : FreeOk s₀.freelist) : sz ≤ TRAPFRAME := by
  have hcount := h.pageCount_le hfree
  have hlt : ¬ 32768 < pageCount sz := not_lt.2 hcount
  rw [lt_pageCount_iff] at hlt
  change sz ≤ 2 ^ 38 - 4096 - 4096
  omega

/-- An image is written page by page. -/
theorem Built.write (h : Built root tf sz s₀ s) {v w : ℕ} (hv : v ≠ trampVpn)
    (hw : leaf s.mem root v = some w) (page : Page) :
    Built root tf sz s₀ (s.setPage (PTE2PA w) page) ∧
      ∀ u, leaf (s.setPage (PTE2PA w) page).mem root u = leaf s.mem root u := by
  have hg : LeafGrowth root (fun _ _ => True) s (s.setPage (PTE2PA w) page) :=
    leafGrowth_write h.space.within hw (h.space.pageAddress hv hw) page
  have hsame : ∀ t ∈ tables s.mem root, (s.setPage (PTE2PA w) page).mem t = s.mem t := by
    intro t ht
    apply setPage_mem_of_ne
    intro heq
    exact (h.space.within.mapped_out hw).1 (heq ▸ ht)
  have hleaf := leaf_congr hsame
  refine ⟨⟨hg.procSpace h.space, h.step.trans hg.step, ?_, h.room⟩, hleaf⟩
  intro u w' hu
  rw [hleaf] at hu
  exact h.only u w' hu

theorem Image.write (h : Image root tf sz s₀ s) {v w : ℕ} (hv : v ≠ trampVpn) (hw : leaf s.mem root v = some w)
    (page : Page) : Image root tf sz s₀ (s.setPage (PTE2PA w) page) := by
  obtain ⟨hb, hleaf⟩ := h.toBuilt.write hv hw page
  refine ⟨hb, ?_⟩
  intro u hu
  rw [hleaf]
  exact h.below u hu

end Built

section Grow

variable {root tf sz newsz perm : ℕ} {s₀ s s' : Phys}

/-- An image that could not grow. -/
theorem Image.of_exhausted (h : Image root tf sz s₀ s) (hex : Exhausted root s s') : Image root tf sz s₀ s' := by
  have hlen : s'.freelist.length ≤ s.freelist.length :=
    (hex.quiet.step.after.free.nodup.subperm hex.quiet.free_sub).length_le
  have hroom := h.room
  refine ⟨⟨h.space.of_step hex.quiet.step fun v _ => hex.leaf_eq v, h.step.trans hex.quiet.step, ?_, by omega⟩, ?_⟩
  · intro v w hw
    rw [hex.leaf_eq] at hw
    exact h.only v w hw
  · intro v hv
    rw [hex.leaf_eq]
    exact h.below v hv

section

variable (h : Image root tf sz s₀ s) (hfree : FreeOk s₀.freelist)

include h hfree

/-- An image with more pages. -/
theorem Image.of_cleared (hle : sz ≤ newsz) (hU : hasFlag perm PTE_U = true)
    (hc : Cleared root (pageCount sz) (pageCount newsz - pageCount sz) perm s s') : Image root tf newsz s₀ s' := by
  have hmono : pageCount sz ≤ pageCount newsz := Nat.div_le_div_right (Nat.add_le_add_right hle _)
  have hlen := hc.length
  have hroom := h.room
  have hbound := hfree.length_le
  have hrange : ∀ v, ¬ (pageCount sz ≤ v ∧ v < pageCount sz + (pageCount newsz - pageCount sz)) ↔
      v < pageCount sz ∨ pageCount newsz ≤ v := by
    intro v
    omega
  refine ⟨⟨h.space.of_step hc.quiet.step ?_, h.step.trans hc.quiet.step, ?_, by omega⟩, ?_⟩
  · intro v hv
    have hv' : 67108862 ≤ v := hv
    apply hc.others
    omega
  · intro v w hw
    by_cases hv : pageCount sz ≤ v ∧ v < pageCount sz + (pageCount newsz - pageCount sz)
    · exact .inl (by omega)
    · rw [hc.others v hv] at hw
      exact (h.only v w hw).imp_left fun hlt => by omega
  · intro v hv
    by_cases hold : v < pageCount sz
    · rw [hc.others v (by omega)]
      exact h.below v hold
    · obtain ⟨m, -, -, hleaf, -⟩ := hc.fresh v (by omega) (by omega)
      exact ⟨_, hleaf, hasFlag_mkPte hU⟩

variable {xperm : ℕ}

/-- Growing an image, as far as there is memory. -/
theorem Image.uvmalloc (hperm : PTE_R ||| PTE_U ||| xperm < 1024)
    (hU : hasFlag (PTE_R ||| PTE_U ||| xperm) PTE_U = true) (hle : sz ≤ newsz) :
    Ensures (uvmalloc root sz newsz xperm) s fun r s' =>
      (r = newsz ∧ Image root tf newsz s₀ s' ∧
        Cleared root (pageCount sz) (pageCount newsz - pageCount sz) (PTE_R ||| PTE_U ||| xperm) s s') ∨
      (r = 0 ∧ Image root tf sz s₀ s') := by
  have hcount := h.pageCount_le hfree
  have hroom := h.room
  have hlen := hfree.length_le
  refine (uvmalloc_spec h.space hperm (h.size_le hfree) hle ?_).mono ?_
  · intro j hj hjlen
    have hlt : pageCount sz + j < 67108862 := by omega
    refine ⟨hlt, ?_⟩
    cases hw : leaf s.mem root (pageCount sz + j) with
    | none => rfl
    | some w =>
      have hcase := h.only _ w hw
      change _ ∨ _ = 67108863 ∨ _ = 67108862 at hcase
      omega
  · intro r s' hr
    obtain ⟨hr, hc⟩ | ⟨hr, hex⟩ := hr
    · exact .inl ⟨hr, h.of_cleared hfree hle hU hc, hc⟩
    · exact .inr ⟨hr, h.of_exhausted hex⟩

/-- `uvmalloc` as `exec` uses it: the size does not shrink. -/
theorem Image.uvmalloc_max
    (hperm : PTE_R ||| PTE_U ||| xperm < 1024) (hU : hasFlag (PTE_R ||| PTE_U ||| xperm) PTE_U = true) :
    Ensures (Vm.uvmalloc root sz newsz xperm) s fun r s' =>
      (r = 0 ∧ Image root tf sz s₀ s') ∨ (sz ≤ r ∧ newsz ≤ r ∧ Image root tf r s₀ s') := by
  by_cases hlt : newsz < sz
  · rw [Vm.uvmalloc, if_pos hlt, ensures_pure]
    exact .inr ⟨le_refl _, hlt.le, h⟩
  · refine (h.uvmalloc hfree hperm hU (not_lt.1 hlt)).mono ?_
    intro r s' hr
    obtain ⟨rfl, hi, -⟩ | ⟨hr, hi⟩ := hr
    · exact .inr ⟨not_lt.1 hlt, le_refl _, hi⟩
    · exact .inl ⟨hr, hi⟩

end

end Grow

section Clear

/-- All bits but the one for user access. -/
abbrev noUser : ℕ := UINT64 - 1 - PTE_U

omit [KernelImage] in
/-- Taking user access away keeps the other flags. -/
theorem hasFlag_noUser (w : ℕ) {flag : ℕ} (h : noUser &&& flag = flag) :
    hasFlag (w &&& noUser) flag = hasFlag w flag := by
  rw [hasFlag, hasFlag, Nat.and_assoc, h]

omit [KernelImage] in
/-- Taking user access away keeps the page. -/
theorem PTE2PA_noUser {w : ℕ} (hw : w < 2 ^ 64) : PTE2PA (w &&& noUser) = PTE2PA w := by
  have hshift : (w &&& noUser) >>> 10 = w >>> 10 := by
    have hmask : noUser >>> 10 = 2 ^ 54 - 1 := by decide
    rw [Nat.shiftRight_and_distrib, hmask, Nat.and_two_pow_sub_one_eq_mod, Nat.mod_eq_of_lt]
    rw [Nat.shiftRight_eq_div_pow]
    omega
  rw [PTE2PA, PTE2PA, hshift]

variable {root tf sz v w : ℕ} {s₀ s : Phys}

/-- Changing flags of leaf entries, but not the permissions, is an operation on the address space. -/
theorem Grown.relabel {s' : Phys} {entries : ℕ → Option ℕ} (h : SpaceIn s root)
    (hg : Grown root s s' [] entries)
    (hnew : ∀ u w', entries u = some w' → ∃ w₀, leaf s.mem root u = some w₀ ∧
      PTE2PA w' = PTE2PA w₀ ∧ hasFlag w' PTE_RWX = hasFlag w₀ PTE_RWX)
    (hold : ∀ u w₀, leaf s.mem root u = some w₀ → ∃ w', entries u = some w' ∧
      PTE2PA w' = PTE2PA w₀) : SpaceStep root s s' := by
  have hfree : s'.freelist = s.freelist := hg.freelist.symm
  have hreach : ∀ x, x ∈ reach (child s'.mem) 3 root ↔ x ∈ reach (child s.mem) 3 root := by
    intro x
    rw [mem_reach_three, mem_reach_three, hg.tables_iff]
    constructor
    · intro hx
      obtain (hx | hx) | ⟨u, w', hu, rfl⟩ := hx
      · exact .inl hx
      · exact absurd hx List.not_mem_nil
      · rw [hg.leaf_eq] at hu
        obtain ⟨w₀, hw₀, heq, -⟩ := hnew u w' hu
        exact .inr ⟨u, w₀, hw₀, heq.symm⟩
    · intro hx
      obtain hx | ⟨u, w₀, hu, rfl⟩ := hx
      · exact .inl (.inl hx)
      · obtain ⟨w', hw', heq⟩ := hold u w₀ hu
        exact .inr ⟨u, w', (hg.leaf_eq u).trans hw', heq⟩
  have hspace : Space s'.mem root := by
    apply hg.space h.space h.free
    · intro a b x y hx hy heq
      obtain ⟨x₀, hx₀, hxe, -⟩ := hnew a x hx
      obtain ⟨y₀, hy₀, hye, -⟩ := hnew b y hy
      exact h.space.inj a b x₀ y₀ hx₀ hy₀ (by rw [← hxe, ← hye, heq])
    · intro a x hx hne
      obtain ⟨x₀, hx₀, hxe, -⟩ := hnew a x hx
      rw [hxe] at hne ⊢
      exact h.space.pages a x₀ hx₀ hne
    · intro a x hx
      obtain ⟨x₀, hx₀, -, hperm⟩ := hnew a x hx
      rw [hperm]
      exact h.space.perm a x₀ hx₀
  refine ⟨⟨hspace, hfree ▸ h.free, ?_⟩, ?_, ?_⟩
  · intro x hx hr
    rw [hfree] at hx
    exact h.apart x hx ((hreach x).1 hr)
  · ext x
    change _ ∧ (_ ∨ _) ↔ _ ∧ (_ ∨ _)
    rw [hreach, hfree]
  · intro x hx
    have htable : x ∉ tables s.mem root := (not_table_of_not_resource h hx).1
    exact hg.frame x htable List.not_mem_nil

/-- `uvmclear` changes one leaf entry. -/
theorem Built.uvmclear (h : Built root tf sz s₀ s) (hv : v < tfVpn) (hw : leaf s.mem root v = some w) :
    Ensures (uvmclear root (v * 4096)) s fun _ s' => Built root tf sz s₀ s' ∧
      ∀ u, leaf s'.mem root u =
        update (leaf s.mem root) v (some (w &&& noUser)) u := by
  have hvn : v < 67108862 := hv
  have hva : v * 4096 < MAXVA := by
    change v * 4096 < 2 ^ 38
    omega
  have hdiv : v * 4096 / 4096 = v := Nat.mul_div_cancel v (by decide)
  have hwlt := leaf_word_lt hw
  obtain ⟨t, ht, hpte⟩ := leafTable_of_leaf hw
  have hvalue : (w &&& noUser) % 2 ^ 64 = w &&& noUser := Nat.mod_eq_of_lt (lt_of_le_of_lt Nat.and_le_left hwlt)
  have hpa : PTE2PA (w &&& noUser) = PTE2PA w := PTE2PA_noUser hwlt
  have hV : hasFlag (w &&& noUser) PTE_V = true := by
    rw [hasFlag_noUser w (by decide)]
    exact (Option.ite_none_right_eq_some.1 (show validPte w = some w from validPte_of_odd (leaf_odd hw))).1
  have hvalid : validPte (w &&& noUser) = some (w &&& noUser) := if_pos hV
  have hlink : linkOf ((w &&& noUser) % 2 ^ 64) = some (PTE2PA w) := by
    rw [hvalue, linkOf_eq_map, hvalid, Option.map_some, hpa]
  have hg := grown_setPte_leaf (w &&& noUser) h.space.within.space.tree ht (by omega) (by
    intro x hx
    rw [hlink] at hx
    exact Option.some.inj hx ▸ (h.space.within.mapped_out hw).1)
  rw [hvalue, hvalid] at hg
  rw [Vm.uvmclear, ensures_bind, ensures_walk_false hva, hdiv, ht]
  simp only [Option.map_some, ensures_bind, ensures_readPte, ensures_writePte]
  rw [PX_zero_eq, hdiv, hpte]
  have hstep : SpaceStep root s { s with mem := setPte s.mem t (v % 512) (w &&& noUser) } := by
    apply hg.relabel h.space.within
    · intro u w' hu
      obtain ⟨rfl, rfl⟩ | ⟨-, hu⟩ := update_eq_some hu
      · exact ⟨w, hw, hpa, hasFlag_noUser w (by decide)⟩
      · exact ⟨w', hu, rfl, rfl⟩
    · intro u w₀ hu
      by_cases huv : u = v
      · rw [huv, hw] at hu
        refine ⟨_, by rw [huv, update_self], ?_⟩
        rw [hpa, Option.some.inj hu]
      · exact ⟨w₀, by rw [update_of_ne huv, hu], rfl⟩
  refine ⟨⟨h.space.of_step hstep ?_, h.step.trans hstep, ?_, h.room⟩, hg.leaf_eq⟩
  · intro u hu
    have hne : u ≠ v := by
      have hu' : 67108862 ≤ u := hu
      omega
    rw [hg.leaf_eq, update_of_ne hne]
  · intro u w' hu
    rw [hg.leaf_eq] at hu
    obtain ⟨rfl, -⟩ | ⟨-, hu⟩ := update_eq_some hu
    · exact h.only u w hw
    · exact h.only u w' hu

end Clear

end Xv6.Vm
