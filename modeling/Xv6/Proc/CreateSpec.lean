import Xv6.Proc.FreeSpec
import Xv6.Proc.Machine

/-!
# Creating a process

A new page table maps the trampoline and the trapframe. Its tables come from the free list; if memory
runs out on the way, all of them go back there. `allocproc` gives such a page table to a free slot.
-/

namespace Xv6

open Function Library List Vm

variable [KernelImage]

section Extern

variable {root va pa perm : ℕ} {s : Phys}

/-- Mapping a page that belongs neither to the address space nor to the free list. -/
theorem mappages_foreign (h : SpaceIn s root) (hva : va % 4096 = 0) (hmax : va < MAXVA)
    (hnone : leaf s.mem root (va / 4096) = none) (hperm : perm < 1024) (hrwx : hasFlag perm PTE_RWX)
    (haligned : pa % 4096 = 0) (hlt : pa < 2 ^ 56) (hvalid : pa ≠ KernelImage.trampoline → PageAddress pa)
    (hout : pa ∉ reach (child s.mem) 3 root) (hfree : pa ∉ s.freelist) :
    Ensures (mappages root va PGSIZE pa perm) s fun r s' => SpaceIn s' root ∧ ∃ taken,
      (r = 0 ∧ Grown root s s' taken
        (update (leaf s.mem root) (va / 4096) (some (mkPte pa perm))) ∧
          s'.exhausted = s.exhausted ∧ s.freelist.length ≤ s'.freelist.length + 2) ∨
      (r = -1 ∧ Grown root s s' taken (leaf s.mem root) ∧ s'.exhausted = true) := by
  refine (mappages_one hva hmax hperm haligned hlt h.space.tree h.free h.apart hnone
    (fun ht => hout (mem_reach_three.2 (.inl ht))) hfree).mono ?_
  have hmissing : missing s.mem va 2 root ≤ 2 := missing_le
  rintro r s' ⟨taken, ⟨rfl, hgrown, hex, hroom⟩ | ⟨rfl, hgrown, -, hex, -⟩⟩
  · exact ⟨hgrown.foreign h (PTE2PA_mkPte haligned hlt hperm) hrwx hvalid hout hfree, taken,
      .inl ⟨rfl, hgrown, hex, by omega⟩⟩
  · exact ⟨(hgrown.spaceStep h).after, taken, .inr ⟨rfl, hgrown, hex⟩⟩

end Extern

variable {rest : List ℕ} {s' : Phys}

section Pagetable

variable {tf : ℕ} {s : Phys}

/-- A new page table for a trapframe, with tables from the free list. -/
structure NewSpace (root tf : ℕ) (s s' : Phys) : Prop where
  space : ProcSpace s' root tf
  only : ∀ v w, leaf s'.mem root v = some w → v = trampVpn ∨ v = tfVpn
  split : ∀ x, x ∈ s.freelist ↔ x ∈ tables s'.mem root ∨ x ∈ s'.freelist
  frame : ∀ x, x ∉ s.freelist → s'.mem x = s.mem x
  exhausted : s'.exhausted = s.exhausted
  length : s.freelist.length ≤ s'.freelist.length + 5

/-- Memory has run out, and every page that had been taken is on the free list again. -/
structure Restored (s s' : Phys) : Prop where
  free : FreeOk s'.freelist
  split : ∀ x, x ∈ s'.freelist ↔ x ∈ s.freelist
  frame : ∀ x, x ∉ s.freelist → s'.mem x = s.mem x
  exhausted : s'.exhausted = true

/-- A page table under construction: all its tables come from the free list. -/
structure Started (root : ℕ) (s s' : Phys) : Prop where
  space : SpaceIn s' root
  split : ∀ x, x ∈ s.freelist ↔ x ∈ tables s'.mem root ∨ x ∈ s'.freelist
  frame : ∀ x, x ∉ s.freelist → s'.mem x = s.mem x

variable {s₁ : Phys}

theorem Started.grown {root : ℕ} {taken : List ℕ} {entries : ℕ → Option ℕ} (h : Started root s s₁)
    (hspace : SpaceIn s' root) (hg : Grown root s₁ s' taken entries) : Started root s s' where
  space := hspace
  split x := by
    rw [h.split, hg.tables_iff, hg.freelist, mem_append, or_assoc]
  frame x hx := by
    have hx' := hx
    rw [h.split, not_or, hg.freelist, mem_append, not_or] at hx'
    rw [hg.frame x hx'.1 hx'.2.1, h.frame x hx]

/-- Giving up a page table whose leaves are gone. -/
theorem Started.abandon {root : ℕ} {s₂ : Phys} {gone : Set ℕ} (h : Started root s s₁)
    (hd : Dropped root s₁ s₂ gone ∅ []) (hex : s₁.exhausted = true)
    (hgone : ∀ v w, leaf s₁.mem root v = some w → v ∈ gone) :
    Ensures (uvmfree root 0) s₂ fun _ s' => Restored s s' := by
  rw [uvmfree, if_neg (by decide)]
  have hyields := freewalk_dropped h.space.space hd
  refine (hyields.ensures ?_).mono ?_
  · intro e he
    obtain ⟨-, v, w, hw, hv⟩ := he
    exact hv (hgone v w hw)
  · intro _ s' hs'
    obtain ⟨-, freed, hfreed⟩ := hs'
    have hpages : ∀ x, x ∈ freed ↔ x ∈ tables s₁.mem root := by
      intro x
      rw [hfreed.mem_iff]
      refine ⟨fun hx => hx.elim id fun hx => ?_, .inl⟩
      obtain ⟨v, hv, -⟩ := hx
      exact absurd hv (Set.notMem_empty v)
    have hsplit : ∀ x, x ∈ s'.freelist ↔ x ∈ s.freelist := by
      intro x
      rw [hfreed.freelist, mem_append, hpages, h.split]
    refine ⟨hfreed.freeOk h.space.free ?_, hsplit, ?_, hfreed.exhausted.trans hex⟩
    · intro x hx
      rw [← hfreed.mem_iff, hpages] at hx
      exact ⟨h.space.space.tabs x hx, fun hfree => h.space.apart x hfree (mem_reach_three.2 (.inl hx))⟩
    · intro x hx
      have hx' := hx
      rw [h.split, not_or] at hx'
      rw [hfreed.frame x (by rw [← hfreed.mem_iff, hpages]; exact hx'.1), h.frame x hx]

/-- A cleared page is an empty page table. -/
theorem started_of_cleared {root : ℕ} (hf : FreeOk s.freelist) (hcons : s.freelist = root :: rest) :
    Started root s { s with freelist := rest, mem := update s.mem root (filled 0) } ∧
      ∀ v, leaf (update s.mem root (filled 0)) root v = none := by
  have hempty : ∀ i, child (update s.mem root (filled 0)) root i = none := by
    intro i
    rw [child, pteAt_update_zero, linkOf_zero]
  have hleaf := leaf_of_empty hempty
  have htables := tables_of_empty hempty
  have hvalid : PageAddress root := hf.valid root (hcons ▸ mem_cons_self)
  have hnodup : root ∉ rest ∧ rest.Nodup := nodup_cons.1 (hcons ▸ hf.nodup)
  have hnone : ∀ {P : Prop} v w, leaf (update s.mem root (filled 0)) root v = some w → P := by
    intro P v w hw
    rw [hleaf] at hw
    cases hw
  refine ⟨⟨⟨⟨treeOk_of_empty hempty, ?_, fun i _ => hempty i, ?_, ?_, ?_, ?_⟩, ⟨hnodup.2, ?_⟩, ?_⟩,
    ?_, ?_⟩, hleaf⟩
  · intro path t i hlen hpath hv
    have ht : t ∈ tables (update s.mem root (filled 0)) root := ⟨path, hlen.trans (by decide), hpath⟩
    rw [htables] at ht
    rw [Set.mem_singleton_iff.1 ht, pteAt_update_zero] at hv
    cases hv
  · intro v v' w w' hw
    exact hnone v w hw
  · intro t ht
    rw [htables] at ht
    rwa [Set.mem_singleton_iff.1 ht]
  · intro v w hw
    exact hnone v w hw
  · intro v w hw
    exact hnone v w hw
  · intro x hx
    exact hf.valid x (hcons ▸ mem_cons_of_mem root hx)
  · intro x hx hmem
    obtain ht | ⟨v, w, hw, -⟩ := mem_reach_three.1 hmem
    · rw [htables] at ht
      exact hnodup.1 (Set.mem_singleton_iff.1 ht ▸ hx)
    · exact hnone v w hw
  · intro x
    rw [hcons, mem_cons, htables]
    rfl
  · intro x hx
    have hne : x ≠ root := fun heq => hx (heq ▸ hcons ▸ mem_cons_self)
    exact update_of_ne hne _ _

/-- The trampoline is outside every new page table. -/
theorem Started.trampoline_out {root : ℕ} (h : Started root s s₁) (hleaf : ∀ v, leaf s₁.mem root v = none) :
    KernelImage.trampoline ∉ reach (child s₁.mem) 3 root ∧
      KernelImage.trampoline ∉ s₁.freelist := by
  refine ⟨fun hmem => ?_, fun hmem => not_pageAddress_trampoline (h.space.free.valid _ hmem)⟩
  obtain ht | ⟨v, w, hw, -⟩ := mem_reach_three.1 hmem
  · exact not_pageAddress_trampoline (h.space.space.tabs _ ht)
  · rw [hleaf] at hw
    cases hw

/-- `proc_pagetable` makes a new page table, or takes nothing. -/
theorem procPagetable_spec (hf : FreeOk s.freelist) (htf : PageAddress tf) (hout : tf ∉ s.freelist) :
    Ensures (procPagetable tf) s fun r s' =>
      (r = none ∧ Restored s s') ∨ ∃ root, r = some root ∧ NewSpace root tf s s' := by
  rw [procPagetable, uvmcreate]
  simp only [bind_assoc]
  rw [ensures_bind]
  refine kalloc_spec ?_ ?_
  · intro _
    simp only [pure_bind]
    exact (ensures_pure _ _ _).2 (.inl ⟨rfl, hf, fun _ => Iff.rfl, fun _ _ => rfl, rfl⟩)
  intro root rest hcons
  obtain ⟨hstart, hleaf⟩ := started_of_cleared hf hcons
  simp only [bind_assoc, pure_bind, ensures_bind, ensures_memset, update_idem]
  generalize hs₁ : ({ s with freelist := rest, mem := update s.mem root (filled 0) } : Phys) = s₁ at hstart
  have hleaf₁ : ∀ v, leaf s₁.mem root v = none := by
    rw [← hs₁]
    exact hleaf
  have hex₁ : s₁.exhausted = s.exhausted := by rw [← hs₁]
  have hlen₁ : s.freelist.length = s₁.freelist.length + 1 := by rw [← hs₁, hcons, length_cons]
  obtain ⟨htr, htr'⟩ := hstart.trampoline_out hleaf₁
  have htramplt : KernelImage.trampoline < 2 ^ 56 := by
    have h1 := KernelImage.trampoline_lt_kend
    have h2 : KernelImage.kend ≤ 0x88000000 := KernelImage.kend_le_phystop
    omega
  refine (mappages_foreign hstart.space (by decide) (by decide) (hleaf₁ _) (by decide) (by decide)
    KernelImage.trampoline_aligned htramplt (fun hne => absurd rfl hne) htr htr').mono ?_
  intro r s₂ h₂
  obtain ⟨hspace₂, taken₂, ⟨rfl, hg₂, hex₂, hlen₂⟩ | ⟨rfl, hg₂, hex₂⟩⟩ := h₂
  · have hstart₂ := hstart.grown hspace₂ hg₂
    have hleaf₂ : ∀ v, leaf s₂.mem root v =
        if v = trampVpn then some (mkPte KernelImage.trampoline (PTE_R ||| PTE_X)) else none := by
      intro v
      rw [hg₂.leaf_eq, update_apply, hleaf₁]
      rfl
    rw [if_neg (lt_irrefl 0), ensures_bind]
    have htfout : tf ∉ reach (child s₂.mem) 3 root := by
      intro hmem
      obtain ht | ⟨v, w, hw, hwx⟩ := mem_reach_three.1 hmem
      · exact hout ((hstart₂.split tf).2 (.inl ht))
      · rw [hleaf₂] at hw
        split_ifs at hw with hv
        rw [← Option.some.inj hw, PTE2PA_tramp] at hwx
        exact not_pageAddress_trampoline (hwx ▸ htf)
    have htffree : tf ∉ s₂.freelist := fun hmem => hout ((hstart₂.split tf).2 (.inr hmem))
    refine (mappages_foreign hspace₂ (by decide) (by decide) ?_ (by decide) (by decide) htf.1
      htf.lt_two_pow (fun _ => htf) htfout htffree).mono ?_
    · rw [hleaf₂, if_neg (by decide)]
    intro r s₃ h₃
    obtain ⟨hspace₃, taken₃, ⟨rfl, hg₃, hex₃, hlen₃⟩ | ⟨rfl, hg₃, hex₃⟩⟩ := h₃
    · have hstart₃ := hstart₂.grown hspace₃ hg₃
      have hleaf₃ : ∀ v, leaf s₃.mem root v = if v = tfVpn then some (mkPte tf (PTE_R ||| PTE_W))
          else leaf s₂.mem root v := by
        intro v
        rw [hg₃.leaf_eq, update_apply]
        rfl
      rw [if_neg (lt_irrefl 0), ensures_pure]
      refine .inr ⟨root, rfl, ⟨hspace₃, ?_, ?_, htf⟩, ?_, hstart₃.split, hstart₃.frame, ?_, by omega⟩
      · rw [hleaf₃, if_neg (by decide), hleaf₂, if_pos rfl]
      · rw [hleaf₃, if_pos rfl]
      · intro v w hw
        rw [hleaf₃, hleaf₂] at hw
        split_ifs at hw with h1 h2
        · exact .inr h1
        · exact .inl h2
      · rw [hex₃, hex₂, hex₁]
    · -- there was no table for the trapframe
      have hstart₃ := hstart₂.grown hspace₃ hg₃
      rw [if_pos (by decide), ensures_bind]
      refine (uvmunmap_dropped TRAMPOLINE 1 false hspace₃.space (by decide) (by decide) (by simp)).mono ?_
      intro _ s₄ h₄
      obtain ⟨freed, h₄⟩ := h₄
      rw [if_neg Bool.false_ne_true] at h₄
      rw [h₄.nil_of_no_release] at h₄
      rw [ensures_bind]
      refine (hstart₃.abandon h₄ hex₃ ?_).mono ?_
      · intro v w hw
        rw [hg₃.leaf_eq, hleaf₂] at hw
        split_ifs at hw with hv
        rw [hv]
        exact ⟨le_refl _, by decide⟩
      · intro _ s' hs'
        exact (ensures_pure _ _ _).2 (.inl ⟨rfl, hs'⟩)
  · -- there was no table for the trampoline
    have hstart₂ := hstart.grown hspace₂ hg₂
    have hnone : ∀ v w, leaf s₂.mem root v = some w → v ∈ (∅ : Set ℕ) := by
      intro v w hw
      rw [hg₂.leaf_eq, hleaf₁] at hw
      cases hw
    have hrefl : Dropped root s₂ s₂ ∅ ∅ [] :=
      Dropped.refl hspace₂.space (fun v hv => absurd hv (Set.notMem_empty v)) (le_refl _)
    rw [if_pos (by decide), ensures_bind]
    refine (hstart₂.abandon hrefl hex₂ hnone).mono ?_
    intro _ s' hs'
    exact (ensures_pure _ _ _).2 (.inl ⟨rfl, hs'⟩)

end Pagetable

section Allocproc

variable {k : Kernel}

/-- The pages of a new process come from the free list. -/
structure NewMemory (root tf : ℕ) (s s' : Phys) : Prop where
  space : ProcSpace s' root tf
  only : ∀ v w, leaf s'.mem root v = some w → v = trampVpn ∨ v = tfVpn
  split : ∀ x, x ∈ s.freelist ↔ x = tf ∨ x ∈ tables s'.mem root ∨ x ∈ s'.freelist
  frame : ∀ x, x ∉ s.freelist → s'.mem x = s.mem x
  exhausted : s'.exhausted = s.exhausted
  length : s.freelist.length ≤ s'.freelist.length + 6

/-- The record of a slot that has just been allocated. -/
def newProc (pid tf root : ℕ) : Proc :=
  { Proc.empty with pid := pid, state := .used, trapframe := tf, pagetable := root }

/-- The kernel while a slot is being allocated. -/
def Kernel.staged (k : Kernel) (i : Fin NPROC) (p : Proc) (s : Phys) : Kernel :=
  { k.setProc i p with nextpid := k.nextpid + 1, phys := s }

omit [KernelImage] in
theorem staged_setProc (k : Kernel) (i : Fin NPROC) (p q : Proc) (s : Phys) :
    (k.staged i p s).setProc i q = k.staged i q s := by
  rw [Kernel.staged, Kernel.staged, ← setProc_setProc k i p q]
  rfl

omit [KernelImage] in
theorem staged_proc_self (k : Kernel) (i : Fin NPROC) (p : Proc) (s : Phys) : (k.staged i p s).proc i = p :=
  setProc_proc_self k i p

variable {i : Fin NPROC}

omit [KernelImage] in
theorem staged_proc_of_ne (k : Kernel) {j : Fin NPROC} (h : j ≠ i) (p : Proc) (s : Phys) :
    (k.staged i p s).proc j = k.proc j :=
  setProc_proc_of_ne k h p

omit [KernelImage] in
/-- A slot that is given back leaves no trace in the process table. -/
theorem staged_eq {p : Proc} (h : k.proc i = p) (s : Phys) :
    k.staged i p s = { k with phys := s, nextpid := k.nextpid + 1 } := by
  rw [Kernel.staged, setProc_eq_self h]

omit [KernelImage] in
theorem unusedSlot_some (h : k.unusedSlot = some i) : (k.proc i).state = .unused := by
  have hi := List.find?_some h
  exact of_decide_eq_true hi

/-- Giving back a slot that has no page table yet. -/
theorem freeproc_staged {s : Phys} {tf : ℕ} (htf : tf = 0 ∨ PageAddress tf) :
    Ensures (freeproc i) (k.staged i (newProc k.nextpid tf 0) s) fun _ k' =>
      k' = k.staged i Proc.empty (if tf = 0 then s else s.free tf) := by
  have hproc : (k.staged i (newProc k.nextpid tf 0) s).proc i = newProc k.nextpid tf 0 := setProc_proc_self k i _
  have hfinish : ∀ t : Phys, Ensures (do
      freeSpace (newProc k.nextpid tf 0)
      modify fun k => k.setProc i { Proc.empty with mapRoVa := 0 })
      (k.staged i (newProc k.nextpid tf 0) t) fun _ k' => k' = k.staged i Proc.empty t := by
    intro t
    rw [ensures_bind, freeSpace, if_neg (fun h => h rfl), ensures_pure, ensures_modify]
    exact staged_setProc k i _ _ t
  rw [freeproc, ensures_bind, ensures_get, ensures_bind, ensures_onPhys, hproc, freeTrapframe]
  change Ensures (if tf ≠ 0 then _ else _) s _
  by_cases hzero : tf = 0
  · rw [if_neg (not_not.2 hzero), if_pos hzero, ensures_pure]
    exact hfinish s
  · rw [if_pos hzero, if_neg hzero]
    apply kfree_spec (htf.resolve_left hzero)
    exact hfinish (s.free tf)

/-- The pages that were taken for a process which could not be made are all free again. -/
theorem restored_of_trapframe {s : Phys} {tf : ℕ} (hf : FreeOk s.freelist) (hcons : s.freelist = tf :: rest)
    (hr : Restored { s with freelist := rest, mem := update s.mem tf (filled 5) } s') :
    Restored s (s'.free tf) := by
  have hnot : tf ∉ rest := (nodup_cons.1 (hcons ▸ hf.nodup)).1
  refine ⟨⟨?_, ?_⟩, ?_, ?_, hr.exhausted⟩
  · rw [free_freelist, nodup_cons]
    exact ⟨fun hmem => hnot ((hr.split tf).1 hmem), hr.free.nodup⟩
  · intro x hx
    rw [free_freelist, mem_cons] at hx
    obtain rfl | hx := hx
    · exact hf.valid x (hcons ▸ mem_cons_self)
    · exact hr.free.valid x hx
  · intro x
    rw [free_freelist, mem_cons, hr.split, hcons, mem_cons]
  · intro x hx
    rw [hcons, mem_cons, not_or] at hx
    rw [free_mem_of_ne s' hx.1, hr.frame x hx.2]
    exact update_of_ne hx.1 _ _

/-- The memory of a new process, with its trapframe taken first. -/
theorem NewSpace.newMemory {s : Phys} {tf root : ℕ} (hcons : s.freelist = tf :: rest)
    (h : NewSpace root tf { s with freelist := rest, mem := update s.mem tf (filled 5) } s') :
    NewMemory root tf s s' where
  space := h.space
  only := h.only
  split x := by
    rw [hcons, mem_cons, ← h.split]
  frame x hx := by
    rw [hcons, mem_cons, not_or] at hx
    rw [h.frame x hx.2]
    exact update_of_ne hx.1 _ _
  exhausted := h.exhausted
  length := by
    have hlength : rest.length ≤ s'.freelist.length + 5 := h.length
    rw [hcons, length_cons]
    omega

/-- `allocproc` gives a free slot a trapframe and a page table, or changes no record and takes no
page. -/
theorem allocproc_spec (hf : FreeOk k.phys.freelist)
    (hslots : ∀ i, (k.proc i).state = .unused → k.proc i = Proc.empty) :
    Ensures allocproc k fun r k' =>
      (r = none ∧ k.unusedSlot = none ∧ k' = k) ∨
      (r = none ∧ ∃ s', k' = { k with phys := s', nextpid := k.nextpid + 1 } ∧ Restored k.phys s') ∨
      ∃ i tf root s', r = some i ∧ k.unusedSlot = some i ∧
        k' = k.staged i (newProc k.nextpid tf root) s' ∧ NewMemory root tf k.phys s' := by
  rw [allocproc, ensures_bind, ensures_get]
  cases hslot : k.unusedSlot with
  | none => exact (ensures_pure _ _ _).2 (.inl ⟨rfl, rfl, rfl⟩)
  | some i =>
    have hempty := hslots i (unusedSlot_some hslot)
    simp only [hempty]
    rw [ensures_bind, ensures_modify]
    change Ensures _ (k.staged i (newProc k.nextpid 0 0) k.phys) _
    rw [ensures_bind, ensures_onPhys]
    refine kalloc_spec ?_ ?_
    · -- there was no page for the trapframe
      intro _
      change Ensures (modify _ >>= _) (k.staged i (newProc k.nextpid 0 0) { k.phys with exhausted := true }) _
      rw [ensures_bind, ensures_modify]
      change Ensures _ (Kernel.setProc _ i (newProc k.nextpid 0 0)) _
      rw [staged_setProc, ensures_bind]
      refine (freeproc_staged (.inl rfl)).mono ?_
      intro _ k' hk'
      rw [if_pos rfl, staged_eq hempty] at hk'
      exact (ensures_pure _ _ _).2 (.inr (.inl ⟨rfl, _, hk', hf, fun _ => Iff.rfl, fun _ _ => rfl, rfl⟩))
    · intro tf rest hcons
      have htf : PageAddress tf := hf.valid tf (hcons ▸ mem_cons_self)
      have hnodup := nodup_cons.1 (hcons ▸ hf.nodup)
      change Ensures (modify _ >>= _) (k.staged i (newProc k.nextpid 0 0)
        { k.phys with freelist := rest, mem := update k.phys.mem tf (filled 5) }) _
      generalize hs₁ : ({ k.phys with
        freelist := rest, mem := update k.phys.mem tf (filled 5) } : Phys) = s₁
      have hf₁ : FreeOk s₁.freelist := by
        rw [← hs₁]
        exact ⟨hnodup.2, fun x hx => hf.valid x (hcons ▸ mem_cons_of_mem tf hx)⟩
      have hout : tf ∉ s₁.freelist := by
        rw [← hs₁]
        exact hnodup.1
      rw [ensures_bind, ensures_modify]
      change Ensures _ (Kernel.setProc _ i (newProc k.nextpid tf 0)) _
      rw [staged_setProc, ensures_bind, ensures_onPhys]
      refine (procPagetable_spec hf₁ htf hout).mono ?_
      intro r s' hr
      obtain ⟨rfl, hr⟩ | ⟨root, rfl, hnew⟩ := hr
      · -- there was no memory for the page table
        change Ensures (modify _ >>= _) (k.staged i (newProc k.nextpid tf 0) s') _
        rw [ensures_bind, ensures_modify]
        change Ensures _ (Kernel.setProc _ i (newProc k.nextpid tf 0)) _
        rw [staged_setProc, ensures_bind]
        refine (freeproc_staged (.inr htf)).mono ?_
        intro _ k' hk'
        rw [if_neg htf.ne_zero, staged_eq hempty] at hk'
        exact (ensures_pure _ _ _).2 (.inr (.inl ⟨rfl, _, hk', restored_of_trapframe hf hcons (hs₁ ▸ hr)⟩))
      · change Ensures (modify _ >>= _) (k.staged i (newProc k.nextpid tf 0) s') _
        rw [ensures_bind, ensures_modify]
        change Ensures _ (Kernel.setProc _ i (newProc k.nextpid tf root)) _
        rw [staged_setProc, ensures_pure]
        exact .inr (.inr ⟨i, tf, root, s', rfl, rfl, rfl, NewSpace.newMemory hcons (hs₁ ▸ hnew)⟩)

end Allocproc

end Xv6
