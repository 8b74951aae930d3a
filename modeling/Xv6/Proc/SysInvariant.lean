import Mathlib.Data.Finset.Card
import Mathlib.Data.Fintype.Basic
import Xv6.Proc.CreateSpec
import Xv6.Proc.Layout

/-!
# The invariant of the kernel

The layout of memory together with the count of the processes that share the page. Operations on the
memory of one process, the creation and the release of a slot preserve it.
-/

namespace Xv6

open Finset Library Vm

/-- The processes that share the page. -/
def Kernel.sharers (k : Kernel) : Finset (Fin NPROC) :=
  Finset.univ.filter fun i => (k.proc i).Live ∧ (k.proc i).shmVa ≠ 0

theorem mem_sharers {k : Kernel} {i : Fin NPROC} : i ∈ k.sharers ↔ (k.proc i).Live ∧ (k.proc i).shmVa ≠ 0 := by
  rw [Kernel.sharers, mem_filter]
  exact and_iff_right (mem_univ i)

variable [KernelImage]

/-- The shared page is counted correctly and has a user. -/
structure Kernel.Counted (k : Kernel) : Prop where
  count : k.sharedPage ≠ 0 → k.refcount = k.sharers.card
  used : k.sharedPage ≠ 0 → k.sharers.Nonempty

/-- The invariant of the kernel. -/
structure Kernel.Invariant (k : Kernel) : Prop where
  layout : k.Layout
  counted : k.Counted

section Steps

variable {k k' : Kernel} {i : Fin NPROC}

omit [KernelImage] in
/-- The sharers are the same if no record has changed its share. -/
theorem Kernel.Elsewhere.sharers_eq (h : k.Elsewhere k' i)
    (hi : ((k'.proc i).Live ∧ (k'.proc i).shmVa ≠ 0) ↔ ((k.proc i).Live ∧ (k.proc i).shmVa ≠ 0)) :
    k'.sharers = k.sharers := by
  ext j
  rw [mem_sharers, mem_sharers]
  by_cases hj : j = i
  · rw [hj]
    exact hi
  · rw [h.live j hj, (h.same j hj).shmVa]

omit [KernelImage] in
theorem Kernel.Counted.congr (h : k.Counted) (hpage : k'.sharedPage = k.sharedPage)
    (hcount : k'.refcount = k.refcount) (hsharers : k'.sharers = k.sharers) : k'.Counted where
  count := by
    rw [hpage, hcount, hsharers]
    exact h.count
  used := by
    rw [hpage, hsharers]
    exact h.used

/-- The shared page is not among the pages of a process that does not share it, nor is it free. -/
theorem Kernel.Layout.shared_out (h : k.Layout) (hi : (k.proc i).Live) (hpage : k.sharedPage ≠ 0)
    (hshm : (k.proc i).shmVa = 0) : k.sharedPage ∉ resources k.phys (k.proc i).pagetable := by
  intro hx
  obtain ⟨-, hx | hx⟩ := hx
  · exact (h.slot i hi).shares_of_reached hpage hx hshm
  · exact (h.page hpage).2 hx

section

variable (h : k.Invariant) (hi : (k.proc i).Live) (helse : k.Elsewhere k' i) (hlive : (k'.proc i).Live)
  (hpage : k'.sharedPage = k.sharedPage) (hcount : k'.refcount = k.refcount)

include h hi helse hlive hpage hcount

/-- A process exchanges pages with the free list, possibly under a new page table, and its share of the
shared page stays mapped. -/
theorem Kernel.Invariant.of_exchange
    (hres : resources k'.phys (k'.proc i).pagetable = resources k.phys (k.proc i).pagetable)
    (hframe : ∀ x, x ∉ resources k.phys (k.proc i).pagetable → k'.phys.mem x = k.phys.mem x)
    (hok : (k'.proc i).Ok k'.phys) (hro : (k'.proc i).MapRoOk)
    (hshm : (k'.proc i).shmVa = (k.proc i).shmVa)
    (husar : (k.proc i).shmVa ≠ 0 → (k'.proc i).usarMemoriaCompartida = true)
    (hmapped : (k.proc i).shmVa ≠ 0 →
      leaf k'.phys.mem (k'.proc i).pagetable ((k.proc i).shmVa / 4096) =
        leaf k.phys.mem (k.proc i).pagetable ((k.proc i).shmVa / 4096)) : k'.Invariant := by
  have hslot := h.layout.slot i hi
  have hspace := hok.space.within
  have hback : ∀ x, PageAddress x →
      x ∈ (k'.proc i).reached k'.phys ∨ x ∈ k'.phys.freelist →
      x ∈ k.phys.freelist ∨ (k.proc i).Live ∧ x ∈ (k.proc i).reached k.phys := by
    intro x hx hmem
    have hold : x ∈ resources k.phys (k.proc i).pagetable := hres ▸ ⟨hx, hmem⟩
    obtain ⟨-, hr | hf⟩ := hold
    · exact .inr ⟨hi, hr⟩
    · exact .inl hf
  -- where the process maps the shared page after the step
  have hshare : (k.proc i).shmVa ≠ 0 → ∃ w, PTE2PA w = k.sharedPage ∧
      leaf k'.phys.mem (k'.proc i).pagetable ((k.proc i).shmVa / 4096) = some w := by
    intro hne
    obtain ⟨hp, -, hs⟩ := hslot.sharer hne
    exact ⟨_, PTE2PA_mkPte hs.page.1 hs.page.lt_two_pow (by decide), (hmapped hne).trans hs.mapped⟩
  have hout : k.sharedPage ≠ 0 → (k.proc i).shmVa = 0 →
      k.sharedPage ∉ resources k'.phys (k'.proc i).pagetable := by
    intro hp hz
    rw [hres]
    exact h.layout.shared_out hi hp hz
  refine ⟨h.layout.update i helse hspace.free ?_ ?_ (.inl hpage) ?_ (fun hn => absurd hlive hn) ?_ ?_,
    h.counted.congr hpage hcount (helse.sharers_eq ?_)⟩
  · intro x hf hr
    apply hframe
    intro hx
    exact hx.2.elim (hr hi) hf
  · intro x hx
    exact hback x (hspace.free.valid x hx) (.inr hx)
  · rw [hpage]
    intro hp
    refine ⟨(h.layout.page hp).1, fun hf => ?_⟩
    by_cases hz : (k.proc i).shmVa = 0
    · exact hout hp hz ⟨(h.layout.page hp).1, .inr hf⟩
    · obtain ⟨w, hw, hleaf⟩ := hshare hz
      exact (hspace.mapped_out hleaf).2 (hw ▸ hf)
  · intro _
    rw [hpage]
    refine ⟨hok, hro, ?_, ?_, ?_⟩
    · intro hp ht
      by_cases hz : (k.proc i).shmVa = 0
      · exact hout hp hz ⟨(h.layout.page hp).1, .inl (reach_mono _ (by decide) _ ht)⟩
      · obtain ⟨w, hw, hleaf⟩ := hshare hz
        exact (hspace.mapped_out hleaf).1 (hw ▸ ht)
    · intro hne
      rw [hshm] at hne
      obtain ⟨hp, -, hs⟩ := hslot.sharer hne
      refine ⟨hp, husar hne, ?_, ?_, ?_, hs.page⟩
      · rw [hshm]
        exact hs.aligned
      · rw [hshm]
        exact hs.below
      · rw [hshm, hmapped hne, hs.mapped]
    · intro hp v w hw hwx
      have hreach : k.sharedPage ∈ reach (child k'.phys.mem) 3 (k'.proc i).pagetable :=
        mem_reach_three.2 (.inr ⟨v, w, hw, hwx⟩)
      rw [hshm]
      by_cases hz : (k.proc i).shmVa = 0
      · exact absurd ⟨(h.layout.page hp).1, .inl hreach⟩ (hout hp hz)
      · obtain ⟨w', hw', hleaf⟩ := hshare hz
        exact ⟨hz, hspace.space.inj v _ w w' hw hleaf (hwx.trans hw'.symm)⟩
  · intro _ x hx hpa
    obtain hf | hr := hback x hpa (.inl hx)
    · exact .inl hf
    · exact .inr (.inl hr)
  · rw [hshm]
    exact and_congr_left' (iff_of_true hlive hi)

/-- An operation on the address space of a process that keeps its share of the shared page mapped. -/
theorem Kernel.Invariant.of_step (hstep : SpaceStep (k.proc i).pagetable k.phys k'.phys)
    (hroot : (k'.proc i).pagetable = (k.proc i).pagetable) (hok : (k'.proc i).Ok k'.phys)
    (hro : (k'.proc i).MapRoOk) (hshm : (k'.proc i).shmVa = (k.proc i).shmVa)
    (husar : (k.proc i).shmVa ≠ 0 → (k'.proc i).usarMemoriaCompartida = true)
    (hmapped : ∀ w, (k.proc i).shmVa ≠ 0 →
      leaf k.phys.mem (k.proc i).pagetable ((k.proc i).shmVa / 4096) = some w →
        leaf k'.phys.mem (k.proc i).pagetable ((k.proc i).shmVa / 4096) = some w) : k'.Invariant := by
  refine h.of_exchange hi helse hlive hpage hcount (by rw [hroot]; exact hstep.conserve) hstep.frame hok
    hro hshm husar ?_
  intro hne
  obtain ⟨-, -, hs⟩ := (h.layout.slot i hi).sharer hne
  rw [hroot, hs.mapped]
  exact hmapped _ hne hs.mapped

end

/-- Other fields of the record do not matter. -/
theorem Kernel.Invariant.record (h : k.Invariant) (hi : (k.proc i).Live) {q : Proc} (hlive : q.Live)
    (hsame : { k.proc i with usarMemoriaCompartida := q.usarMemoriaCompartida }.SameMemory q)
    (husar : (k.proc i).shmVa ≠ 0 → q.usarMemoriaCompartida = true) : (k.setProc i q).Invariant := by
  have hslot := h.layout.slot i hi
  have hself : (k.setProc i q).proc i = q := setProc_proc_self k i q
  refine h.of_step hi (elsewhere_setProc k i q k.phys) ?_ rfl rfl (SpaceStep.refl hslot.ok.space.within)
    ?_ ?_ ?_ ?_ ?_ fun _ _ hw => hw
  · rw [hself]
    exact hlive
  · rw [hself]
    exact hsame.pagetable
  · rw [hself]
    exact hsame.ok ⟨hslot.ok.space, hslot.ok.size, hslot.ok.region⟩
  · rw [hself, Proc.MapRoOk, hsame.mapRoVa]
    exact hslot.mapRo
  · rw [hself]
    exact hsame.shmVa
  · rw [hself]
    exact husar

/-- A slot that holds no process after all, and memory from the free list that is back there. -/
theorem Kernel.Invariant.restored (h : k.Invariant) {s' : Phys} (hr : Restored k.phys s')
    (hphys : k'.phys = s') (hproc : k'.proc = k.proc) (hpage : k'.sharedPage = k.sharedPage)
    (hcount : k'.refcount = k.refcount) : k'.Invariant := by
  have hsharers : k'.sharers = k.sharers := by
    rw [Kernel.sharers, Kernel.sharers, hproc]
  have hsub : ∀ x ∈ k'.phys.freelist, x ∈ k.phys.freelist := by
    rw [hphys]
    exact fun x hx => (hr.split x).1 hx
  refine ⟨h.layout.untouched hproc (hphys ▸ hr.free) hsub ?_ (.inl hpage) ?_, h.counted.congr hpage hcount hsharers⟩
  · rw [hphys]
    exact hr.frame
  · rw [hpage]
    intro hp
    exact ⟨(h.layout.page hp).1, fun hx => (h.layout.page hp).2 (hsub _ hx)⟩

end Steps

section Release

variable {k k' : Kernel} {i : Fin NPROC} {freed : List ℕ}

theorem SlotOk.shares_iff {p : Proc} {s : Phys} {page : ℕ} (h : SlotOk p s page) : p.Shares ↔ p.shmVa ≠ 0 :=
  ⟨fun hs => hs.2, fun hne => ⟨(h.sharer hne).2.1, hne⟩⟩

omit [KernelImage] in
theorem unshare_proc (k : Kernel) (p : Proc) : (k.unshare p).proc = k.proc := by
  rw [Kernel.unshare]
  split_ifs <;> rfl

/-- The kernel after a slot has been released. -/
structure Kernel.Released (k k' : Kernel) (i : Fin NPROC) (freed : List ℕ) : Prop where
  eq : k' = { (k.unshare (k.proc i)).setProc i Proc.empty with phys := k'.phys }
  freed : Freed ((k.proc i).pages k.phys (k.keptPages (k.proc i))) k.phys k'.phys freed

/-- With the last user there is no other. -/
theorem Kernel.Invariant.last_share (h : k.Invariant) (hi : (k.proc i).Live)
    (hlast : k.LastShare (k.proc i)) : ∀ j, j ≠ i → (k.proc j).Live → (k.proc j).shmVa = 0 := by
  have hpage := ((h.layout.slot i hi).sharer hlast.1.2).1
  have hcard : k.sharers.card = 1 := by
    have h1 := h.counted.count hpage
    have h2 := hlast.2
    omega
  obtain ⟨l, hl⟩ := card_eq_one.1 hcard
  have hil : i ∈ k.sharers := mem_sharers.2 ⟨hi, hlast.1.2⟩
  intro j hj hlive
  by_contra hne
  have hjl : j ∈ k.sharers := mem_sharers.2 ⟨hlive, hne⟩
  rw [hl, mem_singleton] at hil hjl
  exact hj (hjl.trans hil.symm)

section Released

variable (hr : k.Released k' i freed)

include hr

omit [KernelImage] in
theorem Kernel.Released.proc_self : k'.proc i = Proc.empty := by
  rw [hr.eq]
  exact setProc_proc_self _ i Proc.empty

omit [KernelImage] in
theorem Kernel.Released.proc_of_ne {j : Fin NPROC} (hj : j ≠ i) : k'.proc j = k.proc j := by
  rw [hr.eq]
  change ((k.unshare (k.proc i)).setProc i Proc.empty).proc j = _
  rw [setProc_proc_of_ne _ hj, unshare_proc]

omit [KernelImage] in
theorem Kernel.Released.elsewhere : k.Elsewhere k' i where
  same j hj := by
    rw [hr.proc_of_ne hj]
    exact Proc.SameMemory.refl _
  live j hj := by rw [hr.proc_of_ne hj]
  empty j hj h := by rwa [hr.proc_of_ne hj]

omit [KernelImage] in
/-- The released process no longer shares the page. -/
theorem Kernel.Released.sharers_eq : k'.sharers = k.sharers.erase i := by
  ext j
  rw [mem_erase, mem_sharers, mem_sharers]
  by_cases hj : j = i
  · rw [hj, hr.proc_self]
    exact iff_of_false (fun h => h.1 rfl) fun h => h.1 rfl
  · rw [hr.proc_of_ne hj]
    exact (and_iff_right hj).symm

omit [KernelImage] in
theorem Kernel.Released.shared_of_not (h : ¬ (k.proc i).Shares) :
    k'.sharedPage = k.sharedPage ∧ k'.refcount = k.refcount := by
  rw [hr.eq]
  change (k.unshare (k.proc i)).sharedPage = _ ∧ (k.unshare (k.proc i)).refcount = _
  rw [Kernel.unshare, if_neg h]
  exact ⟨rfl, rfl⟩

omit [KernelImage] in
theorem Kernel.Released.shared_of_last (h : k.LastShare (k.proc i)) : k'.sharedPage = 0 := by
  rw [hr.eq]
  change (k.unshare (k.proc i)).sharedPage = _
  rw [Kernel.unshare, if_pos h.1, if_pos h.2]

omit [KernelImage] in
theorem Kernel.Released.shared_of_kept (h : (k.proc i).Shares) (hlast : ¬ k.LastShare (k.proc i)) :
    k'.sharedPage = k.sharedPage ∧ k'.refcount = k.refcount - 1 := by
  have hcount : ¬ k.refcount - 1 = 0 := fun hz => hlast ⟨h, hz⟩
  rw [hr.eq]
  change (k.unshare (k.proc i)).sharedPage = _ ∧ (k.unshare (k.proc i)).refcount = _
  rw [Kernel.unshare, if_pos h, if_neg hcount]
  exact ⟨rfl, rfl⟩

/-- The shared page is freed with its last user, and not before. -/
theorem Kernel.Released.shared_freed_iff (h : k.Invariant) (hi : (k.proc i).Live)
    (hpage : k.sharedPage ≠ 0) : k.sharedPage ∈ freed ↔ k.LastShare (k.proc i) := by
  have hslot := h.layout.slot i hi
  rw [hr.freed.mem_iff]
  constructor
  · intro hx
    obtain hx | ⟨v, w, hw, hwx, -, hkept⟩ := hx
    · exact absurd hx (hslot.notTable hpage)
    · obtain ⟨hne, hv⟩ := hslot.only hpage v w hw hwx
      by_contra hlast
      exact hkept ⟨⟨hslot.shares_iff.2 hne, hv⟩, hlast⟩
  · intro hlast
    obtain ⟨-, -, hs⟩ := hslot.sharer hlast.1.2
    have hlt : (k.proc i).shmVa < 2 ^ 38 - 4096 - 4096 := hs.below
    refine .inr ⟨_, _, hs.mapped, PTE2PA_mkPte hs.page.1 hs.page.lt_two_pow (by decide), ?_, fun hk => hk.2 hlast⟩
    intro hv
    have : (k.proc i).shmVa / 4096 = 67108863 := hv
    omega

/-- Releasing a slot keeps the invariant. -/
theorem Kernel.Invariant.released (h : k.Invariant) (hi : (k.proc i).Live) : k'.Invariant := by
  have hslot := h.layout.slot i hi
  have hfreeOk := hslot.ok.freeOk_of_freed hr.freed
  have hdead : ¬ (k'.proc i).Live := by
    rw [hr.proc_self]
    exact fun hl => hl rfl
  have hin : ∀ x ∈ freed, x ∈ (k.proc i).reached k.phys := by
    intro x hx
    exact (hslot.ok.pages_out ((hr.freed.mem_iff x).1 hx)).2.1
  -- the shared page is as before, or it has been freed with its last user
  have hshared : k'.sharedPage = k.sharedPage ∧ ¬ k.LastShare (k.proc i) ∨
      k'.sharedPage = 0 ∧ k.LastShare (k.proc i) := by
    by_cases hs : (k.proc i).Shares
    · by_cases hlast : k.LastShare (k.proc i)
      · exact .inr ⟨hr.shared_of_last hlast, hlast⟩
      · exact .inl ⟨(hr.shared_of_kept hs hlast).1, hlast⟩
    · exact .inl ⟨(hr.shared_of_not hs).1, fun hl => hs hl.1⟩
  refine ⟨h.layout.update i hr.elsewhere hfreeOk ?_ ?_ ?_ ?_ (fun _ => hr.proc_self)
    (fun hl => absurd hl hdead) (fun hl => absurd hl hdead), ?_, ?_⟩
  · intro x _ hx
    apply hr.freed.frame
    intro hp
    exact hx hi (hslot.ok.pages_out hp).2.1
  · intro x hx
    rw [hr.freed.freelist, List.mem_append] at hx
    exact hx.elim (fun hx => .inr ⟨hi, hin x hx⟩) .inl
  · refine hshared.imp (fun hs => hs.1) fun hs => ⟨fun hne => absurd hs.1 hne, ?_⟩
    exact h.last_share hi hs.2
  · intro hne
    obtain ⟨heq, hlast⟩ | ⟨hz, -⟩ := hshared
    · rw [heq] at hne ⊢
      refine ⟨(h.layout.page hne).1, fun hx => ?_⟩
      rw [hr.freed.freelist, List.mem_append, hr.shared_freed_iff h hi hne] at hx
      exact hx.elim hlast (h.layout.page hne).2
    · exact absurd hz hne
  · intro hne
    rw [hr.sharers_eq]
    by_cases hs : (k.proc i).Shares
    · have hmem : i ∈ k.sharers := mem_sharers.2 ⟨hi, hs.2⟩
      by_cases hlast : k.LastShare (k.proc i)
      · exact absurd (hr.shared_of_last hlast) hne
      · obtain ⟨heq, hcount⟩ := hr.shared_of_kept hs hlast
        have hpos := card_pos.2 ⟨i, hmem⟩
        rw [hcount, h.counted.count (heq ▸ hne), card_erase_of_mem hmem]
        omega
    · obtain ⟨heq, hcount⟩ := hr.shared_of_not hs
      have hnot : i ∉ k.sharers := fun hm => hs (hslot.shares_iff.2 (mem_sharers.1 hm).2)
      rw [hcount, erase_eq_of_notMem hnot]
      exact h.counted.count (heq ▸ hne)
  · intro hne
    rw [hr.sharers_eq]
    by_cases hs : (k.proc i).Shares
    · have hmem : i ∈ k.sharers := mem_sharers.2 ⟨hi, hs.2⟩
      by_cases hlast : k.LastShare (k.proc i)
      · exact absurd (hr.shared_of_last hlast) hne
      · obtain ⟨heq, hcount⟩ := hr.shared_of_kept hs hlast
        have hold := h.counted.count (heq ▸ hne)
        have hnz : ¬ k.refcount - 1 = 0 := fun hz => hlast ⟨hs, hz⟩
        rw [← card_pos, card_erase_of_mem hmem]
        have hpos := card_pos.2 ⟨i, hmem⟩
        omega
    · obtain ⟨heq, -⟩ := hr.shared_of_not hs
      have hnot : i ∉ k.sharers := fun hm => hs (hslot.shares_iff.2 (mem_sharers.1 hm).2)
      rw [erase_eq_of_notMem hnot]
      exact h.counted.used (heq ▸ hne)

end Released

/-- `freeproc` releases the slot, if it completes. -/
theorem freeproc_released (h : k.Layout) (hi : (k.proc i).Live) :
    Yields (freeproc i) k (fun _ k' => ∃ freed, k.Released k' i freed)
      (fun _ => ¬ (k.proc i).Tracked k.phys) := by
  have hslot := h.slot i hi
  refine (freeproc_spec hslot.ok hslot.mapRo fun hs => (hslot.sharer hs.2).2.2).mono ?_ fun _ he => he
  intro _ k' hk'
  obtain ⟨heq, freed, hfreed⟩ := hk'
  exact ⟨freed, heq, hfreed⟩

end Release

section Create

variable {k : Kernel} {i : Fin NPROC} {pid tf root : ℕ} {s' : Phys}

/-- A new process and the free list hold the pages that were free before. -/
theorem NewMemory.mem_resources {s : Phys} (hnew : NewMemory root tf s s') (x : ℕ) :
    x ∈ resources s' root ↔ x ∈ s.freelist := by
  rw [hnew.space.mem_resources_new hnew.only, hnew.split]

/-- A new process keeps the invariant. -/
theorem Kernel.Invariant.created (h : k.Invariant) (hi : ¬ (k.proc i).Live)
    (hnew : NewMemory root tf k.phys s') : (k.staged i (newProc pid tf root) s').Invariant := by
  have hself : (k.staged i (newProc pid tf root) s').proc i = newProc pid tf root := staged_proc_self k i _ s'
  have hlive : ((k.staged i (newProc pid tf root) s').proc i).Live := by
    rw [hself]
    exact nofun
  have hspace := hnew.space
  have helse : k.Elsewhere (k.staged i (newProc pid tf root) s') i := by
    refine ⟨fun j hj => ?_, fun j hj => ?_, fun j hj hj' => ?_⟩
    · rw [staged_proc_of_ne k hj]
      exact Proc.SameMemory.refl _
    · rw [staged_proc_of_ne k hj]
    · rwa [staged_proc_of_ne k hj]
  -- the pages that the new process reaches come from the free list
  have hheld : ∀ x ∈ reach (child s'.mem) 3 root, PageAddress x → x ∈ k.phys.freelist := by
    intro x hx hpa
    exact (hnew.mem_resources x).1 ⟨hpa, .inl hx⟩
  have hshared : k.sharedPage ≠ 0 → k.sharedPage ∉ reach (child s'.mem) 3 root := by
    intro hp hx
    exact (h.layout.page hp).2 (hheld _ hx (h.layout.page hp).1)
  refine ⟨h.layout.update i helse hspace.within.free (fun x hx _ => hnew.frame x hx) ?_ (.inl rfl) ?_
    (fun hn => absurd hlive hn) ?_ ?_, h.counted.congr rfl rfl (helse.sharers_eq ?_)⟩
  · intro x hx
    exact .inl ((hnew.split x).2 (.inr (.inr hx)))
  · intro hp
    refine ⟨(h.layout.page hp).1, fun hx => (h.layout.page hp).2 ?_⟩
    exact (hnew.split _).2 (.inr (.inr hx))
  · intro _
    rw [hself]
    refine ⟨⟨hspace, Nat.zero_le _, nofun⟩, ⟨rfl, show 0 < TRAPFRAME by decide⟩, ?_, ?_, ?_⟩
    · intro hp ht
      exact hshared hp (reach_mono _ (by decide) _ ht)
    · intro hne
      exact absurd rfl hne
    · intro hp v w hw hwx
      exact absurd (mem_reach_three.2 (.inr ⟨v, w, hw, hwx⟩)) (hshared hp)
  · intro _ x hx hpa
    rw [hself] at hx
    exact .inl (hheld x hx hpa)
  · rw [hself]
    exact iff_of_false (fun hl => hl.2 rfl) fun hl => hi hl.1

end Create

end Xv6
