import Xv6.Vm.FiniteMap
import Xv6.Vm.Resize
import Xv6.Vm.UserCopy

/-!
# Growing an address space

`uvmalloc` maps cleared pages up to a new size and takes all of them back if memory runs out.
`vmfault` maps one cleared page at an address below the size of the process. Both only write tables
and pages that were free.
-/

namespace Xv6.Vm

open Function Library

variable [KernelImage]

section Uvmalloc

variable {root tf perm : ℕ}

/-- The pages from `base` on have become `n` cleared pages. -/
structure Cleared (root base n perm : ℕ) (s s' : Phys) : Prop where
  quiet : Quiet root s s'
  fresh : ∀ vpn, base ≤ vpn → vpn < base + n → ∃ m ∈ s.freelist, PageAddress m ∧
    leaf s'.mem root vpn = some (mkPte m perm) ∧ s'.mem m = filled 0
  others : ∀ vpn, ¬ (base ≤ vpn ∧ vpn < base + n) → leaf s'.mem root vpn = leaf s.mem root vpn
  length : s'.freelist.length + n ≤ s.freelist.length
  exhausted : s'.exhausted = s.exhausted

theorem Cleared.zero {base : ℕ} {s : Phys} (h : SpaceIn s root) : Cleared root base 0 perm s s where
  quiet := Quiet.refl h
  fresh vpn h1 h2 := by omega
  others _ _ := rfl
  length := le_refl _
  exhausted := rfl

/-- A mapped page is neither a table nor free. -/
theorem SpaceIn.mapped_out {s : Phys} {vpn w : ℕ} (h : SpaceIn s root) (hw : leaf s.mem root vpn = some w) :
    PTE2PA w ∉ tables s.mem root ∧ PTE2PA w ∉ s.freelist :=
  ⟨h.space.tree.leaf_not_mem_tables hw, fun hf => h.apart _ hf (mem_reach_three.2 (.inr ⟨vpn, w, hw, rfl⟩))⟩

/-- The pages that an operation has taken have become tables or are mapped now. -/
theorem Quiet.free_iff {s s' : Phys} (h : Quiet root s s') (hin : SpaceIn s root) (new : ℕ → Prop)
    (hnew : ∀ v w, leaf s'.mem root v = some w → leaf s.mem root v = some w ∨ new (PTE2PA w)) {x : ℕ}
    (hx : new x → x ∈ s.freelist) : x ∈ s.freelist ↔
      x ∈ s'.freelist ∨ x ∈ s.freelist ∧ x ∈ tables s'.mem root ∨ new x := by
  refine ⟨fun hfree => ?_, fun hx' => hx'.elim (h.free_sub x) fun hx' => hx'.elim And.left hx⟩
  have hres : x ∈ resources s' root := by
    rw [h.step.conserve]
    exact ⟨hin.free.valid x hfree, .inr hfree⟩
  obtain ⟨-, hreach | hback⟩ := hres
  · obtain ht | ⟨v, w, hw, rfl⟩ := mem_reach_three.1 hreach
    · exact .inr (.inl ⟨hfree, ht⟩)
    · exact .inr (.inr ((hnew v w hw).resolve_left fun hold => (hin.mapped_out hold).2 hfree))
  · exact .inl hback

/-- An operation that has mapped nothing has only made tables. -/
theorem Quiet.free_iff_of_eq {s s' : Phys} (h : Quiet root s s') (hin : SpaceIn s root)
    (hleaf : ∀ v, leaf s'.mem root v = leaf s.mem root v) (x : ℕ) :
    x ∈ s.freelist ↔ x ∈ s'.freelist ∨ x ∈ s.freelist ∧ x ∈ tables s'.mem root := by
  have hiff := h.free_iff hin (fun _ => False) (fun v w hw => .inl (hleaf v ▸ hw)) (x := x) False.elim
  rwa [or_false] at hiff

/-- The trapframe is neither a table nor free. -/
theorem ProcSpace.tf_out {s : Phys} {tf : ℕ} (h : ProcSpace s root tf) :
    tf ∉ tables s.mem root ∧ tf ∉ s.freelist := by
  have hout := h.within.mapped_out h.tfLeaf
  rwa [h.PTE2PA_tf] at hout

/-- The trapframe is a page of the address space. -/
theorem ProcSpace.tf_resource {s : Phys} {tf : ℕ} (h : ProcSpace s root tf) : tf ∈ resources s root :=
  ⟨h.tfPage, .inl (mem_reach_three.2 (.inr ⟨tfVpn, _, h.tfLeaf, h.PTE2PA_tf⟩))⟩

/-- The tables and the pages of the leaves are pages of the allocator that are not free, apart from the
trampoline. -/
theorem ProcSpace.page_out {s : Phys} {tf x : ℕ} (h : ProcSpace s root tf)
    (hx : x ∈ tables s.mem root ∨ ∃ v w, leaf s.mem root v = some w ∧ PTE2PA w = x ∧ v ≠ trampVpn) :
    PageAddress x ∧ x ∈ reach (child s.mem) 3 root ∧ x ∉ s.freelist := by
  have hreach : x ∈ reach (child s.mem) 3 root :=
    mem_reach_three.2 (hx.imp_right fun ⟨v, w, hw, hwx, _⟩ => ⟨v, w, hw, hwx⟩)
  refine ⟨?_, hreach, fun hfree => h.within.apart x hfree hreach⟩
  obtain ht | ⟨v, w, hw, rfl, hv⟩ := hx
  · exact h.within.space.tabs x ht
  · exact h.pageAddress hv hw

/-- The pages that an address space and the free list hold. -/
theorem ProcSpace.mem_resources {s : Phys} {tf x : ℕ} (h : ProcSpace s root tf) :
    x ∈ resources s root ↔ (x ∈ tables s.mem root ∨
      ∃ v w, leaf s.mem root v = some w ∧ PTE2PA w = x ∧ v ≠ trampVpn) ∨ x ∈ s.freelist := by
  constructor
  · rintro ⟨hpa, hx⟩
    refine hx.imp_left fun hx => (mem_reach_three.1 hx).imp_right fun ⟨v, w, hw, hwx⟩ =>
      ⟨v, w, hw, hwx, ?_⟩
    rintro rfl
    rw [h.tramp] at hw
    rw [← hwx, ← Option.some.inj hw, PTE2PA_tramp] at hpa
    exact not_pageAddress_trampoline hpa
  · rintro (hx | hx)
    · obtain ⟨hpa, hreach, -⟩ := h.page_out hx
      exact ⟨hpa, .inl hreach⟩
    · exact ⟨h.within.free.valid x hx, .inr hx⟩

/-- An address space without memory holds its tables and the trapframe. -/
theorem ProcSpace.mem_resources_new {s : Phys} {tf x : ℕ} (h : ProcSpace s root tf)
    (honly : ∀ v w, leaf s.mem root v = some w → v = trampVpn ∨ v = tfVpn) :
    x ∈ resources s root ↔ x = tf ∨ x ∈ tables s.mem root ∨ x ∈ s.freelist := by
  have hleaf : (∃ v w, leaf s.mem root v = some w ∧ PTE2PA w = x ∧ v ≠ trampVpn) ↔ x = tf := by
    constructor
    · rintro ⟨v, w, hw, hwx, hv⟩
      obtain rfl := (honly v w hw).resolve_left hv
      rw [h.tfLeaf] at hw
      rw [← hwx, ← Option.some.inj hw, h.PTE2PA_tf]
    · rintro rfl
      exact ⟨tfVpn, _, h.tfLeaf, h.PTE2PA_tf, by decide⟩
  rw [h.mem_resources, hleaf, or_comm (a := x ∈ tables s.mem root), or_assoc]

/-- The trapframe and the trampoline are not for the user. -/
theorem ProcSpace.lt_of_user {s : Phys} {tf v w : ℕ} (h : ProcSpace s root tf)
    (hw : leaf s.mem root v = some w) (hU : hasFlag w PTE_U = true) : v < tfVpn := by
  rw [show PTE_U = 2 ^ 4 from rfl, ← hasFlag_PTE_FLAGS _ (by decide)] at hU
  obtain hv | rfl | rfl := h.within.space.leaf_cases hw
  · exact hv
  · rw [h.tfLeaf] at hw
    rw [← Option.some.inj hw, PTE_FLAGS_mkPte (by decide)] at hU
    exact absurd hU (by decide)
  · rw [h.tramp] at hw
    rw [← Option.some.inj hw, PTE_FLAGS_mkPte (by decide)] at hU
    exact absurd hU (by decide)

/-- One more cleared page. -/
theorem Cleared.succ {base n m : ℕ} {s s₁ s₂ : Phys} (hperm : perm < 1024) (h : Cleared root base n perm s s₁)
    (hm : AllocMapped root (base + n) perm (fun _ => filled 0) s₁ (some m) s₂) :
    Cleared root base (n + 1) perm s s₂ := by
  obtain ⟨hmfree, hleaf, hmem, hex, hlen, -⟩ := hm.mapped m rfl
  have hin := h.quiet.step.after
  refine ⟨h.quiet.trans hm.quiet, ?_, ?_, ?_, hex.trans h.exhausted⟩
  · intro vpn h1 h2
    by_cases hlast : vpn = base + n
    · refine ⟨m, h.quiet.free_sub m hmfree, hin.free.valid m hmfree, ?_, hmem⟩
      rw [hleaf, hlast, update_self]
    · obtain ⟨m', hm', hpage, hleaf', hzero⟩ := h.fresh vpn h1 (by omega)
      refine ⟨m', hm', hpage, by rw [hleaf, update_of_ne hlast, hleaf'], ?_⟩
      obtain ⟨ht, hf⟩ := hin.mapped_out hleaf'
      rw [PTE2PA_mkPte hpage.1 hpage.lt_two_pow hperm] at ht hf
      rw [hm.quiet.same m' ht hf, hzero]
  · intro vpn hout
    rw [hleaf, update_of_ne (by omega)]
    exact h.others vpn (by omega)
  · have := h.length
    omega

/-- The address space has kept all its leaf entries; memory has run out. -/
structure Exhausted (root : ℕ) (s s' : Phys) : Prop where
  quiet : Quiet root s s'
  leaf_eq : ∀ vpn, leaf s'.mem root vpn = leaf s.mem root vpn
  exhausted : s'.exhausted = true

/-- Undoing the pages that were mapped before memory ran out. -/
theorem undo_spec {base n : ℕ} {s s₁ s₂ : Phys} (h : ProcSpace s root tf) (hperm : perm < 1024)
    (hbound : base + n ≤ tfVpn) (hnone : ∀ vpn, base ≤ vpn → vpn < base + n → leaf s.mem root vpn = none)
    (hc : Cleared root base n perm s s₁) (hm : AllocMapped root (base + n) perm (fun _ => filled 0) s₁ none s₂) :
    Ensures (uvmdealloc root ((base + n) * 4096) (base * 4096)) s₂ fun _ s' => Exhausted root s s' := by
  change base + n ≤ 2 ^ 26 - 2 at hbound
  obtain ⟨hleaf, hex⟩ := hm.failed rfl
  have hquiet := hc.quiet.trans hm.quiet
  have hproc : ProcSpace s₂ root tf := by
    refine h.of_step hquiet.step ?_
    intro vpn hvpn
    change 2 ^ 26 - 2 ≤ vpn at hvpn
    rw [hleaf, hc.others vpn (by omega)]
  have hcount : ∀ k, pageCount (k * 4096) = k := by
    intro k
    rw [pageCount]
    omega
  refine Ensures.mono (uvmdealloc_spec hproc (by change _ ≤ 2 ^ 38 - 4096 - 4096; omega)) ?_
  rintro r s' ⟨-, hstep, hleaf', hsame, hfree, htables, hex'⟩
  rw [hcount, hcount] at hfree
  simp only [hcount] at hsame
  -- the freed pages are the cleared ones, which were free before
  have hfresh : ∀ vpn w, base ≤ vpn → vpn < base + n → leaf s₂.mem root vpn = some w →
      PTE2PA w ∈ s.freelist := by
    intro vpn w h1 h2 hw
    obtain ⟨m, hmfree, hpage, hleafm, -⟩ := hc.fresh vpn h1 h2
    rw [hleaf, hleafm] at hw
    rw [← Option.some.inj hw, PTE2PA_mkPte hpage.1 hpage.lt_two_pow hperm]
    exact hmfree
  refine ⟨⟨hquiet.step.trans hstep, ?_, ?_, ?_, fun _ => hex'.trans hex⟩, ?_, hex'.trans hex⟩
  · intro x ht hf
    rw [hsame x (fun hx => (hquiet.tables_sub x hx).elim ht hf) ?_, hquiet.same x ht hf]
    rintro vpn w h1 h2 hw rfl
    exact hf (hfresh vpn w h1 h2 hw)
  · intro x hx
    rw [htables] at hx
    exact hquiet.tables_sub x hx
  · intro x hx
    rw [hfree, List.mem_append, freedPages, if_pos rfl, List.mem_reverse, mem_leafPages] at hx
    rcases hx with ⟨vpn, w, h1, h2, hw, rfl⟩ | hx
    · exact hfresh vpn w h1 (by omega) hw
    · exact hquiet.free_sub x hx
  · intro vpn
    rw [hleaf', removed, hcount, hcount, without]
    by_cases hin : base ≤ vpn ∧ vpn < base + n
    · rw [if_pos (by omega), hnone vpn hin.1 hin.2]
    · rw [if_neg (by omega), hleaf, hc.others vpn hin]

/-- The loop of `uvmalloc` after `n` of its pages. -/
theorem uvmallocLoop_spec {xperm : ℕ} (base : ℕ) {s : Phys} (h : ProcSpace s root tf)
    (hperm : PTE_R ||| PTE_U ||| xperm < 1024) (k n : ℕ) (s₁ : Phys)
    (hroom : ∀ j, n ≤ j → j < n + k → j ≤ s.freelist.length →
      base + j < tfVpn ∧ leaf s.mem root (base + j) = none)
    (hnone : ∀ vpn, base ≤ vpn → vpn < base + n → leaf s.mem root vpn = none)
    (hbound : base + n ≤ tfVpn)
    (hc : Cleared root base n (PTE_R ||| PTE_U ||| xperm) s s₁) :
    Ensures (uvmallocLoop root (base * 4096) xperm k ((base + n) * 4096)) s₁ fun ok s' =>
      (ok = true ∧ Cleared root base (n + k) (PTE_R ||| PTE_U ||| xperm) s s') ∨
        (ok = false ∧ Exhausted root s s') := by
  induction k generalizing n s₁ with
  | zero => exact (ensures_pure _ _ _).2 (.inl ⟨rfl, hc⟩)
  | succ k ih =>
    have hlen := hc.length
    obtain ⟨hlt, hfree⟩ := hroom n (le_refl n) (by omega) (by omega)
    change base + n < 2 ^ 26 - 2 at hlt
    have hdiv : (base + n) * 4096 / 4096 = base + n := by omega
    have hrwx : hasFlag (PTE_R ||| PTE_U ||| xperm) PTE_RWX := by
      rw [hasFlag_or]
      exact Bool.or_eq_true_iff.2 (.inl (by decide))
    rw [uvmallocLoop, ensures_bind]
    refine Ensures.mono (allocMap_spec hc.quiet.step.after (by omega) (by change _ < 2 ^ 38; omega) ?_ hperm hrwx) ?_
    · rw [hdiv, hc.others _ (by omega), hfree]
    intro r s₂ hm
    rw [hdiv] at hm
    cases r with
    | none =>
      rw [ensures_bind]
      refine Ensures.mono (undo_spec h hperm (by change _ ≤ 2 ^ 26 - 2; omega) hnone hc hm) ?_
      intro _ s' hex
      exact (ensures_pure _ _ _).2 (.inr ⟨rfl, hex⟩)
    | some m =>
      have hnext := ih (n + 1) s₂ (fun j h1 h2 h3 => hroom j (by omega) (by omega) h3) (by
        intro vpn h1 h2
        by_cases hlast : vpn = base + n
        · rw [hlast, hfree]
        · exact hnone vpn h1 (by omega)) (by change _ ≤ 2 ^ 26 - 2; omega) (hc.succ hperm hm)
      rw [show (base + (n + 1)) * 4096 = (base + n) * 4096 + PGSIZE by
        change _ = (base + n) * 4096 + 4096; omega, show n + 1 + k = n + (k + 1) by omega] at hnext
      exact hnext

/-- Growing a process to a new size, as far as there is memory. -/
theorem uvmalloc_spec {s : Phys} {xperm oldsz newsz : ℕ} (h : ProcSpace s root tf)
    (hperm : PTE_R ||| PTE_U ||| xperm < 1024) (hold : oldsz ≤ TRAPFRAME) (hle : oldsz ≤ newsz)
    (hroom : ∀ j, pageCount oldsz + j < pageCount newsz → j ≤ s.freelist.length →
      pageCount oldsz + j < tfVpn ∧ leaf s.mem root (pageCount oldsz + j) = none) :
    Ensures (uvmalloc root oldsz newsz xperm) s fun r s' =>
      (r = newsz ∧ Cleared root (pageCount oldsz) (pageCount newsz - pageCount oldsz)
        (PTE_R ||| PTE_U ||| xperm) s s') ∨ (r = 0 ∧ Exhausted root s s') := by
  have hcount := pageCount_le hold
  have hold' : oldsz ≤ 2 ^ 38 - 4096 - 4096 := hold
  have hk : (newsz - pageCount oldsz * 4096 + (PGSIZE - 1)) / PGSIZE =
      pageCount newsz - pageCount oldsz := by
    change (newsz - pageCount oldsz * 4096 + 4095) / 4096 = _
    rw [pageCount, pageCount]
    omega
  rw [uvmalloc, if_neg (by omega)]
  dsimp only
  rw [PGROUNDUP_eq (by omega), hk, ensures_bind]
  have hloop := uvmallocLoop_spec (pageCount oldsz) h hperm
    (pageCount newsz - pageCount oldsz) 0 s
    (fun j _ h2 h3 => hroom j (by omega) h3) (fun vpn h1 h2 => by omega) hcount
    (Cleared.zero h.within)
  rw [Nat.add_zero, Nat.zero_add] at hloop
  refine Ensures.mono hloop ?_
  rintro ok s' (⟨rfl, hc⟩ | ⟨rfl, hex⟩)
  · exact (ensures_pure _ _ _).2 (.inl ⟨rfl, hc⟩)
  · exact (ensures_pure _ _ _).2 (.inr ⟨rfl, hex⟩)

end Uvmalloc

section Vmfault

variable {p : Proc} {s : Phys} {tf va : ℕ}

/-- What the lazy allocation of a page has done. -/
structure Faulted (root vpn perm : ℕ) (page : Page) (s s' : Phys) (m : ℕ) : Prop where
  quiet : Quiet root s s'
  unmapped : leaf s.mem root vpn = none
  free : m ∈ s.freelist
  leaf_eq : ∀ v, leaf s'.mem root v = Function.update (leaf s.mem root) vpn (some (mkPte m perm)) v
  contents : s'.mem m = page
  exhausted : s'.exhausted = s.exhausted

/-- The permissions of a lazily allocated page. -/
abbrev lazyPerm : ℕ := PTE_W ||| PTE_U ||| PTE_R

section

variable (h : ProcSpace s p.pagetable tf) (hsz : p.sz ≤ TRAPFRAME)

include h hsz

/-- A page fault of the kernel is refused, or it allocates a page for the hole. -/
theorem vmfault_outcome :
    Ensures (vmfault p p.pagetable va) s fun r s' =>
      (r = 0 ∧ s' = s ∧ (p.sz ≤ va ∨ leaf s.mem p.pagetable (va / 4096) ≠ none)) ∨
      (va < p.sz ∧ leaf s.mem p.pagetable (va / 4096) = none ∧ ∃ page, r = page.getD 0 ∧
        AllocOutcome p.pagetable (va / 4096) lazyPerm (fun _ => filled 0) s page s') := by
  rw [vmfault]
  by_cases hva : p.sz ≤ va
  · rw [if_pos hva, ensures_pure]
    exact .inl ⟨rfl, rfl, .inl hva⟩
  have hsz' : p.sz ≤ 2 ^ 38 - 4096 - 4096 := hsz
  obtain ⟨haligned, hdiv⟩ := PGROUNDDOWN_facts va
  have hmax : PGROUNDDOWN va < MAXVA := by
    rw [PGROUNDDOWN_eq]
    change _ < 2 ^ 38
    omega
  rw [if_neg hva, ensures_bind]
  refine Ensures.mono (ismapped_translation p.pagetable s hmax) ?_
  rintro mapped s₁ ⟨rfl, rfl⟩
  rw [translation_eq, hdiv, Option.isSome_map]
  cases hleaf : leaf s₁.mem p.pagetable (va / 4096) with
  | some w =>
    rw [Option.isSome_some, if_pos rfl, ensures_pure]
    exact .inl ⟨rfl, rfl, .inr nofun⟩
  | none =>
    rw [Option.isSome_none, if_neg Bool.false_ne_true, ensures_bind]
    refine (allocMap_outcome h.within haligned hmax (hdiv.symm ▸ hleaf) (by decide)).mono ?_
    intro page s₂ ho
    rw [hdiv] at ho
    exact (ensures_pure _ _ _).2 (.inr ⟨not_le.1 hva, rfl, page, rfl, ho⟩)

/-- `vmfault` maps a cleared page at an address of the process that is not mapped. -/
theorem vmfault_spec :
    Ensures (vmfault p p.pagetable va) s fun r s' =>
      (r = 0 ∧ s' = s ∧ (p.sz ≤ va ∨ leaf s.mem p.pagetable (va / 4096) ≠ none)) ∨
      (r = 0 ∧ va < p.sz ∧ Exhausted p.pagetable s s') ∨
      (r ≠ 0 ∧ va < p.sz ∧ Faulted p.pagetable (va / 4096) lazyPerm (filled 0) s s' r) := by
  refine (vmfault_outcome h hsz).mono ?_
  intro r s' ho
  obtain hrefused | ⟨hlt, hleaf, page, rfl, ho⟩ := ho
  · exact .inl hrefused
  have hm := ho.allocMapped h.within hleaf (by decide) (by decide)
  cases page with
  | none =>
    obtain ⟨hsame, hex⟩ := hm.failed rfl
    exact .inr (.inl ⟨rfl, hlt, hm.quiet, hsame, hex⟩)
  | some m =>
    obtain ⟨hmfree, hleaf', hmem, hex, -⟩ := hm.mapped m rfl
    exact .inr (.inr ⟨(h.within.free.valid m hmfree).ne_zero, hlt, hm.quiet, hleaf, hmfree, hleaf', hmem, hex⟩)

/-- With three free pages, `vmfault` fills every hole below the size of the process. -/
theorem vmfault_room (hroom : 3 ≤ s.freelist.length) :
    Ensures (vmfault p p.pagetable va) s fun r _ => va < p.sz →
      leaf s.mem p.pagetable (va / 4096) = none → r ≠ 0 := by
  refine (vmfault_outcome h hsz).mono ?_
  intro r s' ho hlt hnone
  obtain ⟨-, -, hrefused⟩ | ⟨-, -, page, hr, hout⟩ := ho
  · obtain hle | hmapped := hrefused
    · exact absurd hlt (not_lt.2 hle)
    · exact absurd hnone hmapped
  · obtain ⟨m, rfl⟩ := Option.ne_none_iff_exists'.1 (hout.ne_none hroom)
    have hm := hout.allocMapped h.within hnone (by decide) (by decide)
    have hpage := h.within.free.valid m (hm.mapped m rfl).1
    rw [hr]
    exact hpage.ne_zero

/-- A lazy allocation is steady. -/
theorem vmfault_steady : Ensures (vmfault p p.pagetable va) s fun r s' => Steady p.pagetable s s' (r = 0) := by
  refine (vmfault_outcome h hsz).mono ?_
  intro r s' ho
  obtain ⟨-, rfl, -⟩ | ⟨-, -, page, rfl, ho⟩ := ho
  · exact Steady.refl
  · apply (ho.steady h.within).mono
    intro hnone
    rw [hnone]
    rfl

end

end Vmfault

end Xv6.Vm
