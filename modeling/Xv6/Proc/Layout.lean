import Xv6.Proc.StepSpec

/-!
# Who holds which page

Every page of the allocator is on the free list, held by one process, or it is the shared page. The
address spaces of two processes therefore meet in the shared page only, and an operation on one of
them leaves the others alone. All operations go through one lemma: the layout survives when one slot
and the free list exchange pages.
-/

namespace Xv6

open Library Vm

variable [KernelImage]

/-- The tables of a process and the pages that it maps. -/
def Proc.reached (p : Proc) (s : Phys) : Set ℕ := reach (child s.mem) 3 p.pagetable

/-- What holds of every process, with the shared page. -/
structure SlotOk (p : Proc) (s : Phys) (page : ℕ) : Prop where
  ok : p.Ok s
  mapRo : p.MapRoOk
  notTable : page ≠ 0 → page ∉ tables s.mem p.pagetable
  sharer : p.shmVa ≠ 0 → page ≠ 0 ∧ p.usarMemoriaCompartida = true ∧ p.ShareOk s page
  only : page ≠ 0 → ∀ v w, leaf s.mem p.pagetable v = some w → PTE2PA w = page →
    p.shmVa ≠ 0 ∧ v = p.shmVa / 4096

/-- The layout of memory: processes and the free list share nothing but the shared page. -/
structure Kernel.Layout (k : Kernel) : Prop where
  free : FreeOk k.phys.freelist
  unused : ∀ i, ¬ (k.proc i).Live → k.proc i = Proc.empty
  slot : ∀ i, (k.proc i).Live → SlotOk (k.proc i) k.phys k.sharedPage
  apart : ∀ i j x, i ≠ j → (k.proc i).Live → (k.proc j).Live → PageAddress x →
    x ∈ (k.proc i).reached k.phys → x ∈ (k.proc j).reached k.phys → x = k.sharedPage
  page : k.sharedPage ≠ 0 → PageAddress k.sharedPage ∧ k.sharedPage ∉ k.phys.freelist

section Slot

variable {p q : Proc} {s s' : Phys} {page page' : ℕ}

/-- A process that reaches the shared page shares it. -/
theorem SlotOk.shares_of_reached (h : SlotOk p s page) (hpage : page ≠ 0) (hx : page ∈ p.reached s) :
    p.shmVa ≠ 0 := by
  obtain ht | ⟨v, w, hw, hwx⟩ := mem_reach_three.1 hx
  · exact absurd ht (h.notTable hpage)
  · exact (h.only hpage v w hw hwx).1

/-- Nothing on the free list belongs to a process. -/
theorem SlotOk.not_free (h : SlotOk p s page) {x : ℕ} (hx : x ∈ p.reached s) : x ∉ s.freelist :=
  fun hf => h.ok.space.within.apart x hf hx

omit [KernelImage] in
/-- A process reaches the same pages as long as its tables keep their contents. -/
theorem Proc.reached_congr (hsame : ∀ t ∈ tables s.mem p.pagetable, s'.mem t = s.mem t)
    (hpq : p.SameMemory q) : q.reached s' = p.reached s := by
  rw [Proc.reached, Proc.reached, hpq.pagetable, reach_three_congr hsame]

/-- A process stays in order while its tables keep their contents and its pages stay off the free
list. -/
theorem SlotOk.frame (h : SlotOk p s page) (hpq : p.SameMemory q)
    (hsame : ∀ t ∈ tables s.mem p.pagetable, s'.mem t = s.mem t) (hfree : FreeOk s'.freelist)
    (hout : ∀ x ∈ s'.freelist, x ∉ p.reached s)
    (hpage : page' = page ∨ p.shmVa = 0 ∧ (page' ≠ 0 → page' ∉ p.reached s)) : SlotOk q s' page' := by
  have hleaf := leaf_congr hsame
  have hspace := h.ok.space
  have hreach := reach_three_congr hsame
  have hok : p.Ok s' := by
    refine ⟨⟨⟨hspace.within.space.congr hsame, hfree, ?_⟩, ?_, ?_, hspace.tfPage⟩, h.ok.size, h.ok.region⟩
    · intro x hx
      rw [hreach]
      exact hout x hx
    · rw [hleaf, hspace.tramp]
    · rw [hleaf, hspace.tfLeaf]
  refine ⟨hpq.ok hok, ?_, ?_, ?_, ?_⟩
  · rw [Proc.MapRoOk, hpq.mapRoVa]
    exact h.mapRo
  · intro hne ht
    rw [hpq.pagetable, tables_congr hsame] at ht
    obtain rfl | ⟨-, hp⟩ := hpage
    · exact h.notTable hne ht
    · exact hp hne (reach_mono _ (by decide) _ ht)
  · intro hshm
    rw [hpq.shmVa] at hshm
    obtain rfl | ⟨hz, -⟩ := hpage
    · obtain ⟨hne, husar, hshare⟩ := h.sharer hshm
      refine ⟨hne, by rw [hpq.usar, husar], ?_, ?_, ?_, hshare.page⟩
      · rw [hpq.shmVa]
        exact hshare.aligned
      · rw [hpq.shmVa]
        exact hshare.below
      · rw [hpq.pagetable, hpq.shmVa, hleaf, hshare.mapped]
    · exact absurd hz hshm
  · intro hne v w hw hwx
    rw [hpq.pagetable, hleaf] at hw
    rw [hpq.shmVa]
    obtain rfl | ⟨-, hp⟩ := hpage
    · exact h.only hne v w hw hwx
    · exact absurd (mem_reach_three.2 (.inr ⟨v, w, hw, hwx⟩)) (hp hne)

end Slot

section Layout

variable {k k' : Kernel} {i j : Fin NPROC}

/-- The tables of a process are out of reach for the other processes and for the allocator. -/
theorem Kernel.Layout.table_out (h : k.Layout) (hij : j ≠ i) (hj : (k.proc j).Live) {t : ℕ}
    (ht : t ∈ tables k.phys.mem (k.proc j).pagetable) :
    t ∉ k.phys.freelist ∧ ((k.proc i).Live → t ∉ (k.proc i).reached k.phys) := by
  have hslot := h.slot j hj
  have hreach : t ∈ (k.proc j).reached k.phys := reach_mono _ (by decide) _ ht
  refine ⟨hslot.not_free hreach, fun hi hti => ?_⟩
  have hpage := hslot.ok.space.within.space.tabs t ht
  have heq := h.apart j i t hij hj hi hpage hreach hti
  exact hslot.notTable (heq ▸ hpage.ne_zero) (heq ▸ ht)

/-- A mapped page is neither free nor a table of any process. -/
theorem Kernel.Layout.page_out (h : k.Layout) (hj : (k.proc j).Live) {v w : ℕ}
    (hw : leaf k.phys.mem (k.proc j).pagetable v = some w) :
    PTE2PA w ∉ k.phys.freelist ∧
      ∀ i, (k.proc i).Live → PTE2PA w ∉ tables k.phys.mem (k.proc i).pagetable := by
  have hmapped := (h.slot j hj).ok.space.within.mapped_out hw
  refine ⟨hmapped.2, ?_⟩
  intro i hi ht
  by_cases hij : i = j
  · exact hmapped.1 (hij ▸ ht)
  · have hslot := h.slot i hi
    have hpa := hslot.ok.space.within.space.tabs _ ht
    have hshared := h.apart i j _ hij hi hj hpa (reach_mono _ (by decide) _ ht)
      (mem_reach_three.2 (.inr ⟨v, w, hw, rfl⟩))
    rw [hshared] at hpa ht
    exact hslot.notTable hpa.ne_zero ht

/-- The layout survives when one slot and the free list exchange pages. -/
theorem Kernel.Layout.update (h : k.Layout) (i : Fin NPROC) (helse : k.Elsewhere k' i)
    (hfree : FreeOk k'.phys.freelist)
    (hframe : ∀ x, x ∉ k.phys.freelist → ((k.proc i).Live → x ∉ (k.proc i).reached k.phys) →
      k'.phys.mem x = k.phys.mem x)
    (hfreed : ∀ x ∈ k'.phys.freelist,
      x ∈ k.phys.freelist ∨ (k.proc i).Live ∧ x ∈ (k.proc i).reached k.phys)
    (hshared : k'.sharedPage = k.sharedPage ∨
      (k'.sharedPage ≠ 0 → k'.sharedPage ∈ k.phys.freelist) ∧
        ∀ j, j ≠ i → (k.proc j).Live → (k.proc j).shmVa = 0)
    (hpage : k'.sharedPage ≠ 0 → PageAddress k'.sharedPage ∧ k'.sharedPage ∉ k'.phys.freelist)
    (hunused : ¬ (k'.proc i).Live → k'.proc i = Proc.empty)
    (hslot : (k'.proc i).Live → SlotOk (k'.proc i) k'.phys k'.sharedPage)
    (hheld : (k'.proc i).Live → ∀ x ∈ (k'.proc i).reached k'.phys, PageAddress x →
      x ∈ k.phys.freelist ∨ ((k.proc i).Live ∧ x ∈ (k.proc i).reached k.phys) ∨
        x = k'.sharedPage) : k'.Layout := by
  have hsame : ∀ j, j ≠ i → (k.proc j).Live →
      ∀ t ∈ tables k.phys.mem (k.proc j).pagetable, k'.phys.mem t = k.phys.mem t := by
    intro j hj hlive t ht
    obtain ⟨h1, h2⟩ := h.table_out (i := i) hj hlive ht
    exact hframe t h1 h2
  have hreach : ∀ j, j ≠ i → (k.proc j).Live →
      (k'.proc j).reached k'.phys = (k.proc j).reached k.phys := by
    intro j hj hlive
    exact Proc.reached_congr (hsame j hj hlive) (helse.same j hj)
  -- a page that another process shares with this slot is the shared page, and it stays that
  have hmeet : ∀ j x, j ≠ i → (k.proc j).Live → PageAddress x → x ∈ (k.proc j).reached k.phys →
      (k.proc i).Live → x ∈ (k.proc i).reached k.phys → x = k'.sharedPage := by
    intro j x hj hlive hx hxj hi hxi
    have heq := h.apart j i x hj hlive hi hx hxj hxi
    have hshm := (h.slot j hlive).shares_of_reached (heq ▸ hx.ne_zero) (heq ▸ hxj)
    obtain hs | ⟨-, hz⟩ := hshared
    · rw [heq, hs]
    · exact absurd (hz j hj hlive) hshm
  refine ⟨hfree, ?_, ?_, ?_, hpage⟩
  · intro j hlive
    by_cases hj : j = i
    · rw [hj]
      exact hunused (hj ▸ hlive)
    · exact helse.empty j hj (h.unused j fun hl => hlive ((helse.live j hj).2 hl))
  · intro j hlive
    by_cases hj : j = i
    · rw [hj]
      exact hslot (hj ▸ hlive)
    · have hl := (helse.live j hj).1 hlive
      refine (h.slot j hl).frame (helse.same j hj) (hsame j hj hl) hfree ?_ ?_
      · intro x hx hxj
        obtain hx' | ⟨hi, hxi⟩ := hfreed x hx
        · exact (h.slot j hl).not_free hxj hx'
        · have hpa := hfree.valid x hx
          have heq := hmeet j x hj hl hpa hxj hi hxi
          exact (hpage (heq ▸ hpa.ne_zero)).2 (heq ▸ hx)
      · refine hshared.imp_right fun hs => ⟨hs.2 j hj hl, fun hne hxj => ?_⟩
        exact (h.slot j hl).not_free hxj (hs.1 hne)
  · -- two processes, one of which may be the slot
    have hslotpair : ∀ j x, j ≠ i → (k'.proc i).Live → (k'.proc j).Live → PageAddress x →
        x ∈ (k'.proc i).reached k'.phys → x ∈ (k'.proc j).reached k'.phys → x = k'.sharedPage := by
      intro j x hj hi hlive hx hxi hxj
      have hl := (helse.live j hj).1 hlive
      rw [hreach j hj hl] at hxj
      obtain hf | ⟨hi', hxi'⟩ | heq := hheld hi x hxi hx
      · exact absurd hf ((h.slot j hl).not_free hxj)
      · exact hmeet j x hj hl hx hxj hi' hxi'
      · exact heq
    intro a b x hab ha hb hx hxa hxb
    by_cases hai : a = i
    · subst hai
      exact hslotpair b x (Ne.symm hab) ha hb hx hxa hxb
    by_cases hbi : b = i
    · subst hbi
      exact hslotpair a x hab hb ha hx hxb hxa
    have hla := (helse.live a hai).1 ha
    have hlb := (helse.live b hbi).1 hb
    rw [hreach a hai hla] at hxa
    rw [hreach b hbi hlb] at hxb
    have heq := h.apart a b x hab hla hlb hx hxa hxb
    obtain hs | ⟨-, hz⟩ := hshared
    · rw [heq, hs]
    · have hshm := (h.slot a hla).shares_of_reached (heq ▸ hx.ne_zero) (heq ▸ hxa)
      exact absurd (hz a hai hla) hshm

/-- The layout survives when only the free list changes, and when a free page becomes the shared page. -/
theorem Kernel.Layout.untouched (h : k.Layout) (hproc : k'.proc = k.proc)
    (hfree : FreeOk k'.phys.freelist) (hsub : ∀ x ∈ k'.phys.freelist, x ∈ k.phys.freelist)
    (hframe : ∀ x, x ∉ k.phys.freelist → k'.phys.mem x = k.phys.mem x)
    (hshared : k'.sharedPage = k.sharedPage ∨
      (k'.sharedPage ≠ 0 → k'.sharedPage ∈ k.phys.freelist) ∧ ∀ j, (k.proc j).Live → (k.proc j).shmVa = 0)
    (hpage : k'.sharedPage ≠ 0 → PageAddress k'.sharedPage ∧ k'.sharedPage ∉ k'.phys.freelist) :
    k'.Layout := by
  have helse : k.Elsewhere k' 0 := by
    refine ⟨fun l _ => ?_, fun l _ => ?_, fun l _ hl => ?_⟩
    · rw [hproc]
      exact Proc.SameMemory.refl _
    · rw [hproc]
    · rwa [hproc]
  have hsame : (k.proc 0).Live →
      ∀ t ∈ tables k.phys.mem (k.proc 0).pagetable, k'.phys.mem t = k.phys.mem t := by
    intro hl t ht
    exact hframe t ((h.slot 0 hl).not_free (reach_mono _ (by decide) _ ht))
  refine h.update 0 helse hfree (fun x hx _ => hframe x hx) (fun x hx => .inl (hsub x hx))
    (hshared.imp_right fun hs => ⟨hs.1, fun j _ hj => hs.2 j hj⟩) hpage ?_ ?_ ?_
  · rw [hproc]
    exact h.unused 0
  · rw [hproc]
    intro hl
    have hslot := h.slot 0 hl
    refine hslot.frame (Proc.SameMemory.refl _) (hsame hl) hfree ?_ ?_
    · intro x hx hx'
      exact hslot.not_free hx' (hsub x hx)
    · exact hshared.imp_right fun hs => ⟨hs.2 0 hl, fun hne hx => hslot.not_free hx (hs.1 hne)⟩
  · rw [hproc]
    intro hl x hx _
    rw [Proc.reached_congr (hsame hl) (Proc.SameMemory.refl _)] at hx
    exact .inr (.inl ⟨hl, hx⟩)

end Layout

end Xv6
