import Xv6.Proc.UserAccessSpec

/-!
# Copies between the kernel and a process

`copyin` and `copyout` go page by page. Each page is mapped already, is filled with zeros on the way
because it lies below the size of the process, or makes the copy fail. Apart from pages of the region
that have not been touched before, the process sees a copy as a plain sequence of byte accesses.
-/

namespace Xv6

open Library List Vm

variable [KernelImage]

/-- What a copy may map: cleared pages below the size of the process, among the pages it touches. -/
def Proc.CopyPage (p : Proc) (va len vpn perm : ℕ) (page : Page) : Prop :=
  va / 4096 ≤ vpn ∧ vpn * 4096 < va + len ∧ perm = lazyPerm ∧ vpn * 4096 < p.sz ∧ page = filled 0

/-- What looking for the page of an address has found. -/
structure PageFound (p : Proc) (va0 : ℕ) (s : Phys) (r : ℕ) (s' : Phys) : Prop where
  filled : Filled p.pagetable (p.CopyPage va0 1) s s'
  found : r ≠ 0 → ∃ w, leaf s'.mem p.pagetable (va0 / 4096) = some w ∧ hasFlag w PTE_U = true ∧
    PTE2PA w = r
  failed : r = 0 → s'.exhausted = true ∨
    (∃ w, leaf s.mem p.pagetable (va0 / 4096) = some w ∧ hasFlag w PTE_U = false) ∨
    (leaf s.mem p.pagetable (va0 / 4096) = none ∧ p.sz ≤ va0)

variable {vpn : ℕ}

section UserPage

variable {p : Proc} {s : Phys} {va0 : ℕ} {mem : ℕ → Page} {w : ℕ}

/-- The pages of an address space are not at address zero. -/
theorem Vm.Space.page_ne_zero {root : ℕ} (h : Space mem root) (hw : leaf mem root vpn = some w) : PTE2PA w ≠ 0 := by
  have hbase : 0x80000000 ≤ KernelImage.trampoline := KernelImage.kernbase_le_trampoline
  by_cases htramp : PTE2PA w = KernelImage.trampoline
  · omega
  · exact (h.pages vpn w hw htramp).ne_zero

omit [KernelImage] in
/-- The result of `walkaddr` by leaf entries. -/
theorem userAddress_of_leaf {root va : ℕ} (hw : leaf mem root (va / 4096) = some w) :
    userAddress (translation mem root va) = if hasFlag w PTE_U then PTE2PA w else 0 := by
  have hU : hasFlag (PTE_FLAGS w) PTE_U = hasFlag w PTE_U := hasFlag_PTE_FLAGS w (k := 4) (by decide)
  rw [translation_eq, hw, ← hU]
  rfl

omit [KernelImage] in
theorem userAddress_of_none {root va : ℕ} (hw : leaf mem root (va / 4096) = none) :
    userAddress (translation mem root va) = 0 := by
  rw [translation_eq, hw]
  rfl

/-- A page that `vmfault` is asked for. -/
theorem vmfault_pageFound (h : ProcSpace s p.pagetable p.trapframe) (hsz : p.sz ≤ TRAPFRAME) (hva : va0 % 4096 = 0)
    (hno : ∀ w, leaf s.mem p.pagetable (va0 / 4096) = some w → hasFlag w PTE_U = false) :
    Ensures (vmfault p p.pagetable va0) s (PageFound p va0 s) := by
  refine (vmfault_spec h hsz).mono ?_
  intro r s' hr
  obtain ⟨rfl, rfl, hcause⟩ | ⟨rfl, hlt, hex⟩ | ⟨hr, hlt, hfault⟩ := hr
  · refine ⟨Filled.refl h.within, fun hne => absurd rfl hne, fun _ => .inr ?_⟩
    cases hw : leaf s'.mem p.pagetable (va0 / 4096) with
    | some w => exact .inl ⟨w, rfl, hno w hw⟩
    | none => exact .inr ⟨rfl, hcause.resolve_right (not_not.2 hw)⟩
  · exact ⟨Filled.of_same hex.quiet hex.leaf_eq, fun hne => absurd rfl hne, fun _ => .inl hex.exhausted⟩
  · have hvalid := h.within.free.valid r hfault.free
    refine ⟨hfault.filled (by decide) ⟨le_refl _, by omega, rfl, by omega, rfl⟩, fun _ => ?_, fun h0 => absurd h0 hr⟩
    refine ⟨mkPte r lazyPerm, by rw [hfault.leaf_eq, Function.update_self], hasFlag_mkPte (by decide), ?_⟩
    exact PTE2PA_mkPte hvalid.1 hvalid.lt_two_pow (by decide)

/-- A page that is mapped for the user is found at once. -/
theorem userPage_mapped {root : ℕ} (h : Space s.mem root) (hw : leaf s.mem root (va0 / 4096) = some w)
    (hU : hasFlag w PTE_U = true) : Ensures (userPage p root va0) s fun r s' => s' = s ∧ r ≠ 0 ∧ PTE2PA w = r := by
  rw [userPage, ensures_bind]
  refine (walkaddr_translation root s va0).mono ?_
  intro r s₁ hr
  obtain ⟨rfl, hr⟩ := hr
  rw [if_pos (h.lt_maxva hw), userAddress_of_leaf hw, if_pos hU] at hr
  have hne : r ≠ 0 := hr ▸ h.page_ne_zero hw
  rw [if_neg hne, ensures_pure]
  exact ⟨rfl, hne, hr.symm⟩

/-- For any other page `vmfault` is asked. -/
theorem userPage_fault {root : ℕ} {post : ℕ → Phys → Prop}
    (hno : ∀ w, leaf s.mem root (va0 / 4096) = some w → hasFlag w PTE_U = false)
    (hfault : Ensures (vmfault p root va0) s post) : Ensures (userPage p root va0) s post := by
  rw [userPage, ensures_bind]
  refine (walkaddr_translation root s va0).mono ?_
  intro r s₁ hr
  obtain ⟨rfl, hr⟩ := hr
  have hzero : r = 0 := by
    cases hw : leaf s₁.mem root (va0 / 4096) with
    | none => rw [hr, userAddress_of_none hw, ite_self]
    | some w => rw [hr, userAddress_of_leaf hw, hno w hw, if_neg Bool.false_ne_true, ite_self]
  rw [if_pos hzero]
  exact hfault

/-- The page of an address: mapped already, mapped now, or not to be had. -/
theorem userPage_spec (h : ProcSpace s p.pagetable p.trapframe) (hsz : p.sz ≤ TRAPFRAME) (hva : va0 % 4096 = 0) :
    Ensures (userPage p p.pagetable va0) s (PageFound p va0 s) := by
  by_cases hno : ∀ w, leaf s.mem p.pagetable (va0 / 4096) = some w → hasFlag w PTE_U = false
  · exact userPage_fault hno (vmfault_pageFound h hsz hva hno)
  · push Not at hno
    obtain ⟨w, hw, hU⟩ := hno
    rw [Ne, Bool.not_eq_false] at hU
    refine (userPage_mapped h.within.space hw hU).mono ?_
    rintro r _ ⟨rfl, hne, hr⟩
    exact ⟨Filled.refl h.within, fun _ => ⟨w, hw, hU, hr⟩, fun h0 => absurd h0 hne⟩

end UserPage

variable {len : ℕ}

section Ok

variable {p : Proc} {s s' : Phys}

theorem Proc.Ok.of_filled {allowed : ℕ → ℕ → Page → Prop} (h : p.Ok s)
    (hf : Filled p.pagetable allowed s s') : p.Ok s' :=
  ⟨hf.procSpace h.space, h.size, h.region⟩

theorem Proc.Ok.of_leafGrowth {allowed : ℕ → ℕ → Prop} (h : p.Ok s)
    (hg : LeafGrowth p.pagetable allowed s s') : p.Ok s' :=
  ⟨hg.procSpace h.space, h.size, h.region⟩

/-- All pages of the region in a range of addresses are mapped. -/
def Proc.Materialised (p : Proc) (s : Phys) (va len : ℕ) : Prop :=
  ∀ vpn, va / 4096 ≤ vpn → vpn * 4096 < va + len → p.InRegion (vpn * 4096) →
    leaf s.mem p.pagetable vpn ≠ none

omit [KernelImage] in
theorem Proc.Materialised.of_old {va va' len' : ℕ} (h : p.Materialised s va len)
    (hold : ∀ vpn w, leaf s.mem p.pagetable vpn = some w → leaf s'.mem p.pagetable vpn = some w)
    (hsub : va / 4096 ≤ va' / 4096 ∧ va' + len' ≤ va + len) : p.Materialised s' va' len' := by
  intro vpn hle hlt hin
  obtain ⟨w, hw⟩ := Option.ne_none_iff_exists'.1 (h vpn (hsub.1.trans hle) (by omega) hin)
  rw [hold vpn w hw]
  exact Option.some_ne_none w

omit [KernelImage] in
/-- The page of the first byte is outside the region or mapped. -/
theorem Proc.Materialised.first {va : ℕ} (h : p.Materialised s va len) (hlen : 0 < len) :
    ¬ p.InRegion (va / 4096 * 4096) ∨ leaf s.mem p.pagetable (va / 4096) ≠ none := by
  by_cases hin : p.InRegion (va / 4096 * 4096)
  · exact .inr (h _ (le_refl _) (by omega) hin)
  · exact .inl hin

omit [KernelImage] in
/-- A copy delivers what was promised outside the untouched pages of the region. -/
theorem Proc.CopyPage.promised {va perm : ℕ} {page : Page}
    (hm : p.Materialised s va len) (hnone : leaf s.mem p.pagetable vpn = none)
    (hc : p.CopyPage va len vpn perm page) : perm = lazyPerm ∧ p.promised vpn = some page := by
  obtain ⟨hle, hlt, rfl, hsz, rfl⟩ := hc
  have hout : ¬ p.InRegion (vpn * 4096) := fun hin => hm vpn hle hlt hin hnone
  rw [Proc.promised, if_neg hout, if_pos hsz]
  exact ⟨rfl, rfl⟩

/-- There is nothing to see beyond the last address. -/
theorem Proc.Ok.view_none (h : p.Ok s) (hvpn : 2 ^ 26 ≤ vpn) : view s p vpn = none := by
  rw [view_of_none (h.space.within.space.leaf_of_le hvpn), Proc.promised, if_neg, if_neg]
  · rfl
  · have hsz : p.sz ≤ 2 ^ 38 - 4096 - 4096 := h.size
    omega
  · intro hin
    have hlimit : p.vr.limit ≤ 2 ^ 38 - 4096 - 4096 := h.region hin.1
    have := hin.2.2
    omega

end Ok

variable {src : List UInt8}

section Rounds

omit [KernelImage] in
/-- The part of a copy that lies in the page of its first address. -/
theorem chunk_facts (va : ℕ) :
    va - PGROUNDDOWN va = va % 4096 ∧ PGROUNDDOWN va % 4096 = 0 ∧ PGROUNDDOWN va / 4096 = va / 4096 ∧
      PGROUNDDOWN va ≤ va ∧ va < PGROUNDDOWN va + 4096 := by
  rw [PGROUNDDOWN_eq]
  omega

variable {p : Proc} {root va : ℕ} {s : Phys} {found : ℕ → Phys → Prop}
  (hpage : Ensures (userPage p root (PGROUNDDOWN va)) s found)

include hpage

/-- One round of `copyin`: there is no page for the next byte, or the rest follows the bytes of its page. -/
theorem copyin_round {post : Option (List UInt8) → Phys → Prop} (hlen : len ≠ 0)
    (hmax : ∀ pa s₁, found pa s₁ → pa ≠ 0 → va < MAXVA)
    (hstop : ∀ s₁, found 0 s₁ → post none s₁)
    (hnext : ∀ pa s₁ n, found pa s₁ → pa ≠ 0 → n = min (4096 - va % 4096) len →
      Ensures (copyin p root (va + n) (len - n)) s₁ fun rest =>
        post (rest.map fun tail => readBytes (s₁.mem pa) (va % 4096) n ++ tail)) :
    Ensures (copyin p root va len) s post := by
  obtain ⟨hoff, -, -, hle, hlt⟩ := chunk_facts va
  rw [Xv6.Vm.copyin, dif_neg hlen]
  dsimp only
  rw [ensures_bind]
  refine hpage.mono ?_
  intro pa s₁ hfound
  by_cases hpa : pa = 0
  · rw [if_pos hpa, ensures_pure]
    exact hstop s₁ (hpa ▸ hfound)
  · have hva : va < 2 ^ 38 := hmax pa s₁ hfound hpa
    have hwrap : (PGROUNDDOWN va + PGSIZE) % UINT64 = PGROUNDDOWN va + 4096 := by
      apply Nat.mod_eq_of_lt
      change _ + 4096 < 2 ^ 64
      omega
    rw [if_neg hpa, ensures_bind, ensures_get, ensures_bind, hoff, hwrap]
    generalize hn : min (PGSIZE - va % 4096) len = n
    change min (4096 - va % 4096) len = n at hn
    -- a round that is not the last one ends at a page boundary
    have hsame : copyin p root (PGROUNDDOWN va + 4096) (len - n) = copyin p root (va + n) (len - n) := by
      by_cases hlast : len - n = 0
      · rw [hlast, Xv6.Vm.copyin, Xv6.Vm.copyin, dif_pos rfl, dif_pos rfl]
      · rw [show PGROUNDDOWN va + 4096 = va + n by omega]
    rw [hsame]
    exact (hnext pa s₁ n hfound hpa hn.symm).mono fun rest s₂ hpost => (ensures_pure _ _ _).2 hpost

/-- One round of `copyout`: there is no page for the next byte, the page cannot be written, or the rest
follows the bytes in it. -/
theorem copyout_round {post : ℤ → Phys → Prop} (hlen : src.length ≠ 0)
    (hfound : ∀ pa s₁, found pa s₁ → pa ≠ 0 → ∃ w, leaf s₁.mem root (va / 4096) = some w ∧
      hasFlag w PTE_U = true ∧ PTE2PA w = pa)
    (hbeyond : MAXVA ≤ PGROUNDDOWN va → post (-1) s) (hstop : ∀ s₁, found 0 s₁ → post (-1) s₁)
    (hread : ∀ s₁ w, found (PTE2PA w) s₁ → leaf s₁.mem root (va / 4096) = some w →
      hasFlag w PTE_W = false → post (-1) s₁)
    (hnext : ∀ s₁ w n, found (PTE2PA w) s₁ → PTE2PA w ≠ 0 → leaf s₁.mem root (va / 4096) = some w →
      hasFlag w PTE_U = true → hasFlag w PTE_W = true → n = min (4096 - va % 4096) src.length →
      Ensures (copyout p root (va + n) (src.drop n))
        (s₁.setPage (PTE2PA w) (writeBytes (s₁.mem (PTE2PA w)) (va % 4096) (src.take n))) post) :
    Ensures (copyout p root va src) s post := by
  obtain ⟨hoff, -, hdiv, hle, hlt⟩ := chunk_facts va
  rw [Xv6.Vm.copyout, dif_neg hlen]
  dsimp only
  by_cases hmax : MAXVA ≤ PGROUNDDOWN va
  · rw [if_pos hmax, ensures_pure]
    exact hbeyond hmax
  rw [if_neg hmax, ensures_bind]
  refine hpage.mono ?_
  intro pa s₁ hpa
  by_cases hzero : pa = 0
  · rw [if_pos hzero, ensures_pure]
    exact hstop s₁ (hzero ▸ hpa)
  rw [if_neg hzero, ensures_bind, ensures_walk_false (not_le.1 hmax), hdiv]
  obtain ⟨w, hw, hU, rfl⟩ := hfound pa s₁ hpa hzero
  obtain ⟨t, ht, hpte⟩ := leafTable_of_leaf hw
  rw [ht, PX_zero_eq, hdiv]
  change Ensures (readPte _ >>= _) s₁ _
  rw [ensures_bind, ensures_readPte, hpte]
  cases hW : hasFlag w PTE_W with
  | false =>
    rw [Bool.not_false, if_pos rfl, ensures_pure]
    exact hread s₁ w hpa hw hW
  | true =>
    rw [Bool.not_true, if_neg Bool.false_ne_true, ensures_bind, ensures_modify, hoff]
    generalize hn : min (PGSIZE - va % 4096) src.length = n
    change min (4096 - va % 4096) src.length = n at hn
    have hrest := hnext s₁ w n hpa hzero hw hU hW hn.symm
    by_cases hlast : src.length ≤ n
    · rw [drop_eq_nil_of_le hlast, Xv6.Vm.copyout, dif_pos length_nil] at hrest ⊢
      exact hrest
    · have hbound : PGROUNDDOWN va + PGSIZE = va + n := by
        change PGROUNDDOWN va + 4096 = va + n
        omega
      rwa [hbound]

end Rounds

variable {r : ℕ}

section Copyin

variable {p : Proc}

omit [KernelImage] in
/-- The rest of a copy is a part of it. -/
theorem Proc.CopyPage.rest {va n perm : ℕ} {page : Page} (hn : n ≤ len)
    (h : p.CopyPage (va + n) (len - n) vpn perm page) : p.CopyPage va len vpn perm page := by
  obtain ⟨h1, h2, hrest⟩ := h
  exact ⟨by omega, by omega, hrest⟩

/-- A page for a copy is among the pages which the whole copy touches. -/
theorem PageFound.filled_copy {s s' : Phys} {va : ℕ} (len : ℕ) (hlen : 0 < len)
    (hp : PageFound p (PGROUNDDOWN va) s r s') : Filled p.pagetable (p.CopyPage va len) s s' := by
  obtain ⟨-, -, hdiv, hle, hlt⟩ := chunk_facts va
  apply hp.filled.mono
  intro vpn perm page hc
  obtain ⟨h1, h2, hrest⟩ := hc
  rw [hdiv] at h1
  exact ⟨h1, by omega, hrest⟩

/-- The page of the first byte of a copy. -/
theorem PageFound.page {s s' : Phys} {va : ℕ} (hp : PageFound p (PGROUNDDOWN va) s r s') (hr : r ≠ 0) :
    ∃ w, leaf s'.mem p.pagetable (va / 4096) = some w ∧ hasFlag w PTE_U = true ∧ PTE2PA w = r := by
  rw [← (chunk_facts va).2.2.1]
  exact hp.found hr

theorem PageFound.lt_maxva {s s' : Phys} {va : ℕ} (hp : PageFound p (PGROUNDDOWN va) s r s')
    (h : ProcSpace s p.pagetable p.trapframe) (hr : r ≠ 0) : va < MAXVA := by
  obtain ⟨w, hw, -⟩ := hp.page hr
  exact (hp.filled.procSpace h).within.space.lt_maxva hw

/-- What the process sees at the first byte of a copy. -/
theorem PageFound.access {s s' : Phys} {va : ℕ}
    (hp : PageFound p (PGROUNDDOWN va) s r s') (hview : view s' p = view s p)
    (hex : s'.exhausted = false) (hout : ¬ p.InRegion (va / 4096 * 4096) ∨
      leaf s.mem p.pagetable (va / 4096) ≠ none) :
    (view s p).access va PTE_U = if r = 0 then none else some (s'.mem r) := by
  obtain ⟨-, -, hdiv, hle, hlt⟩ := chunk_facts va
  by_cases hr : r = 0
  · rw [if_pos hr]
    obtain hex' | ⟨w, hw, hU⟩ | ⟨hnone, hsz⟩ := hp.failed hr
    · rw [hex] at hex'
      cases hex'
    · rw [hdiv] at hw
      rw [access_user_of_leaf hw, hU]
      rfl
    · rw [hdiv] at hnone
      rw [UserMem.access, view_of_none hnone, Proc.promised,
        if_neg (hout.resolve_right (not_not.2 hnone)), if_neg (by rw [PGROUNDDOWN_eq] at hsz; omega)]
      rfl
  · rw [if_neg hr]
    obtain ⟨w, hw, hU, rfl⟩ := hp.found hr
    rw [hdiv] at hw
    rw [← hview, access_user_of_leaf hw, hU]
    rfl

/-- `copyin` reads what the process sees. -/
theorem copyin_spec (len va : ℕ) (s : Phys) (h : p.Ok s) :
    Ensures (copyin p p.pagetable va len) s fun r s' =>
      Filled p.pagetable (p.CopyPage va len) s s' ∧
        (p.Materialised s va len → s'.exhausted = true ∨ r = (view s p).copyin va len) := by
  induction len using Nat.strong_induction_on generalizing va s with
  | h len ih =>
    by_cases hlen : len = 0
    · rw [Xv6.Vm.copyin, dif_pos hlen, ensures_pure, hlen]
      exact ⟨Filled.refl h.space.within, fun _ => .inr rfl⟩
    have hview : ∀ {r s₁}, PageFound p (PGROUNDDOWN va) s r s₁ → p.Materialised s va len →
        view s₁ p = view s p := fun hp hm =>
      (hp.filled_copy len (by omega)).view_eq h.space.within fun v perm page hnone hc =>
        hc.promised hm hnone
    refine copyin_round (userPage_spec h.space h.size (chunk_facts va).2.1) hlen
      (fun pa s₁ hp => hp.lt_maxva h.space) ?_ ?_
    · intro s₁ hp
      refine ⟨hp.filled_copy len (by omega), fun hm => ?_⟩
      cases hex : s₁.exhausted with
      | true => exact .inl rfl
      | false =>
        have haccess := hp.access (hview hp hm) hex (hm.first (by omega))
        obtain ⟨n, rfl⟩ := Nat.exists_eq_succ_of_ne_zero hlen
        rw [UserMem.copyin, haccess]
        exact .inr rfl
    · intro pa s₁ n hp hpa hn
      have hfilled := hp.filled_copy len (by omega)
      refine (ih (len - n) (by omega) (va + n) s₁ (h.of_filled hfilled)).mono ?_
      intro rest s₂ hrest
      obtain ⟨hfilled₂, hseen⟩ := hrest
      refine ⟨hfilled.trans h.space.within (hfilled₂.mono fun _ _ _ hc => hc.rest (by omega)), fun hm => ?_⟩
      cases hex : s₂.exhausted with
      | true => exact .inl rfl
      | false =>
        have hex₁ : s₁.exhausted = false := by
          by_contra htrue
          rw [Bool.not_eq_false] at htrue
          rw [hfilled₂.quiet.exhausted htrue] at hex
          cases hex
        have haccess := hp.access (hview hp hm) hex₁ (hm.first (by omega))
        rw [if_neg hpa] at haccess
        have hres := (hseen (hm.of_old hfilled.old ⟨by omega, by omega⟩)).resolve_left (by rw [hex]; decide)
        have hchunk := UserMem.copyin_chunk haccess n (len - n) (by omega)
        rw [show n + (len - n) = len by omega] at hchunk
        rw [hchunk, hres, hview hp hm]
        exact .inr rfl

end Copyin

section Copyout

variable {p : Proc}

/-- What `copyout` may map. -/
def Proc.CopyVpn (p : Proc) (vpn perm : ℕ) : Prop := perm = lazyPerm ∧ vpn * 4096 < p.sz

/-- What the process sees after `copyout`: a prefix of the bytes has been written, and if there was
memory enough, all of them up to the first one that the process could not write itself. -/
structure CopiedOut (V V' : UserMem) (va : ℕ) (src : List UInt8) (r : ℤ) (exhausted : Bool) : Prop where
  written : ∃ n ≤ src.length, V' = (V.copyout va (src.take n)).1
  complete : exhausted = false → V' = (V.copyout va src).1 ∧ r = if (V.copyout va src).2 then 0 else -1

variable {exhausted : Bool} {V : UserMem}

omit [KernelImage] in
/-- The copy stops at its first byte. -/
theorem CopiedOut.stop {va : ℕ} (hlen : src ≠ [])
    (hnone : exhausted = false → V.access va PTE_W = none) : CopiedOut V V va src (-1) exhausted where
  written := ⟨0, Nat.zero_le _, rfl⟩
  complete hex := by
    obtain ⟨byte, rest, rfl⟩ := exists_cons_of_ne_nil hlen
    rw [UserMem.copyout, hnone hex]
    exact ⟨rfl, rfl⟩

omit [KernelImage] in
/-- The copy goes on after the part in its first page. -/
theorem CopiedOut.chunk {V' : UserMem} {va n flags : ℕ} {r : ℤ}
    {page : Page} (hpage : V (va / 4096) = some (flags, page)) (hU : hasFlag flags PTE_U = true)
    (hW : hasFlag flags PTE_W = true) (hn : n ≤ src.length) (hoff : va % 4096 + n ≤ 4096)
    (hrest : CopiedOut (Function.update V (va / 4096)
      (some (flags, writeBytes page (va % 4096) (src.take n)))) V' (va + n) (src.drop n) r exhausted) :
    CopiedOut V V' va src r exhausted := by
  have hlen : (src.take n).length = n := by rw [length_take, min_eq_left hn]
  have hchunk := fun rest => UserMem.copyout_chunk hpage hU hW (src.take n) rest (by rw [hlen]; exact hoff)
  rw [hlen] at hchunk
  obtain ⟨⟨m, hm, hV'⟩, hcomplete⟩ := hrest
  constructor
  · rw [length_drop] at hm
    refine ⟨n + m, by omega, ?_⟩
    rw [take_add, hchunk, hV']
  · intro hex
    obtain ⟨h1, h2⟩ := hcomplete hex
    rw [← take_append_drop n src, hchunk]
    exact ⟨h1, h2⟩

/-- A page for a copy adds a leaf at most. -/
theorem PageFound.leafGrowth {s s' : Phys} {va : ℕ} (hp : PageFound p va s r s')
    (h : SpaceIn s p.pagetable) : LeafGrowth p.pagetable p.CopyVpn s s' :=
  hp.filled.leafGrowth h fun _ _ _ hc => ⟨hc.2.2.1, hc.2.2.2.1⟩

/-- `copyout` writes what the process sees. -/
theorem copyout_spec (src : List UInt8) (va : ℕ) (s : Phys) (h : p.Ok s) :
    Ensures (copyout p p.pagetable va src) s fun r s' =>
      LeafGrowth p.pagetable p.CopyVpn s s' ∧
        (p.Materialised s va src.length →
          CopiedOut (view s p) (view s' p) va src r s'.exhausted) := by
  induction hlength : src.length using Nat.strong_induction_on generalizing src va s with
  | h len ih =>
    rw [← hlength]
    by_cases hlen : src.length = 0
    · rw [Xv6.Vm.copyout, dif_pos hlen, ensures_pure]
      rw [length_eq_zero_iff] at hlen
      rw [hlen]
      exact ⟨LeafGrowth.refl h.space.within, fun _ => ⟨⟨0, le_refl _, rfl⟩, fun _ => ⟨rfl, rfl⟩⟩⟩
    have hne : src ≠ [] := fun h0 => hlen (h0 ▸ rfl)
    have hview : ∀ {r s₁}, PageFound p (PGROUNDDOWN va) s r s₁ → p.Materialised s va src.length →
        view s₁ p = view s p := fun hp hm =>
      (hp.filled_copy src.length (by omega)).view_eq h.space.within fun v perm page hnone hc =>
        hc.promised hm hnone
    refine copyout_round (userPage_spec h.space h.size (chunk_facts va).2.1) hlen
      (fun pa s₁ hp => hp.page) ?_ ?_ ?_ ?_
    · intro hmax
      refine ⟨LeafGrowth.refl h.space.within, fun _ => CopiedOut.stop hne fun _ => ?_⟩
      have hge : 2 ^ 38 ≤ PGROUNDDOWN va := hmax
      obtain ⟨-, -, -, hle, -⟩ := chunk_facts va
      rw [UserMem.access, h.view_none (by omega)]
      rfl
    · intro s₁ hp
      refine ⟨hp.leafGrowth h.space.within, fun hm => ?_⟩
      rw [hview hp hm]
      refine CopiedOut.stop hne fun hex => ?_
      exact UserMem.access_none_of_user (hp.access (hview hp hm) hex (hm.first (by omega)))
    · intro s₁ w hp hw hW
      refine ⟨hp.leafGrowth h.space.within, fun hm => ?_⟩
      rw [hview hp hm]
      refine CopiedOut.stop hne fun _ => ?_
      have haccess := access_of_leaf (k := 2) (by decide) hw
      rw [hview hp hm] at haccess
      change (view s p).access va PTE_W = if (hasFlag w PTE_U && hasFlag w PTE_W) = true then _ else _ at haccess
      rw [haccess, hW, Bool.and_false]
      rfl
    · intro s₁ w n hp _ hw hU hW hn
      have hgrowth := hp.leafGrowth h.space.within
      have hok := h.of_leafGrowth hgrowth
      generalize hs₂ : s₁.setPage (PTE2PA w) (writeBytes (s₁.mem (PTE2PA w)) (va % 4096) (src.take n)) = s₂
      have hwrite : LeafGrowth p.pagetable p.CopyVpn s₁ s₂ :=
        hs₂ ▸ leafGrowth_write hok.space.within hw (hok.space.pageAddress_of_user hw hU) _
      have hgrowth₂ := hgrowth.trans hwrite
      refine (ih (src.length - n) (by omega) (src.drop n) (va + n) s₂ (h.of_leafGrowth hgrowth₂) length_drop).mono ?_
      intro r s' hrest
      obtain ⟨hgrowth₃, hseen⟩ := hrest
      refine ⟨hgrowth₂.trans hgrowth₃, fun hm => ?_⟩
      have hpageV : view s p (va / 4096) = some (PTE_FLAGS w, s₁.mem (PTE2PA w)) := by
        rw [← hview hp hm, view_of_leaf hw]
      have hflagU : hasFlag (PTE_FLAGS w) PTE_U = true := (hasFlag_PTE_FLAGS w (k := 4) (by decide)).trans hU
      have hflagW : hasFlag (PTE_FLAGS w) PTE_W = true := (hasFlag_PTE_FLAGS w (k := 2) (by decide)).trans hW
      apply CopiedOut.chunk (n := n) hpageV hflagU hflagW (by omega) (by omega)
      rw [← hview hp hm, ← view_setPage hok.space.within hw, hs₂]
      exact hseen (hm.of_old hgrowth₂.old ⟨by omega, by omega⟩)

end Copyout

end Xv6
