import Xv6.Proc.UserView

/-!
# User loads and stores

A user access works on the page that the process sees. It may fill one hole on the way, which the
process cannot see, and it fails only where there is no page for it or no memory.
-/

namespace Xv6

open Library Vm

variable [KernelImage]

/-- The record of a process after a user access: only the two fields of page faults can have changed. -/
def Proc.SameButFault (p p' : Proc) : Prop :=
  p' = { p with killed := p'.killed, pagefaultCount := p'.pagefaultCount }

/-- What a user access that needs a permission has found. -/
structure Accessed (p : Proc) (va flag : ℕ) (s : Phys) (r : Option ℕ) (p' : Proc) (s' : Phys) :
    Prop where
  filled : Filled p.pagetable p.FaultPage s s'
  proc : p.SameButFault p'
  found : ∀ pa, r = some pa → ∃ w, leaf s'.mem p.pagetable (va / 4096) = some w ∧ PTE2PA w = pa ∧
    va < MAXVA ∧ hasFlag w PTE_U = true ∧ hasFlag w flag = true
  failed : r = none → p.killed = false → s'.exhausted = true ∨
    (leaf s.mem p.pagetable (va / 4096) = none ∧ ¬ p.InRegion va ∧ (va = 0 ∨ p.sz ≤ va)) ∨
    ∃ w, leaf s.mem p.pagetable (va / 4096) = some w ∧ (hasFlag w PTE_U && hasFlag w flag) = false

section Translate

variable {mem : ℕ → Page} {root va flag pa : ℕ}

omit [KernelImage] in
/-- The hardware finds the page of a leaf with the right permissions. -/
theorem hwTranslate_eq_some :
    hwTranslate mem root va flag = some pa ↔ va < MAXVA ∧ ∃ w,
      leaf mem root (va / 4096) = some w ∧ (hasFlag w PTE_U && hasFlag w flag) = true ∧ PTE2PA w = pa := by
  rw [hwTranslate]
  by_cases hva : va < MAXVA
  · rw [if_pos hva]
    change (leaf mem root (va / 4096)).bind _ = _ ↔ _
    cases leaf mem root (va / 4096) <;> simp [hva]
  · simp [hva]

end Translate

variable {w : ℕ} {page : Page}

section Access

variable {p : Proc} {s : Phys} {va flag : ℕ}

omit [KernelImage] in
theorem Proc.SameButFault.refl (p : Proc) : p.SameButFault p := rfl

/-- An address with a page of its own is below the last address. -/
theorem Vm.Space.lt_maxva {mem : ℕ → Page} {root : ℕ} (h : Space mem root)
    (hw : leaf mem root (va / 4096) = some w) : va < MAXVA := by
  change va < 2 ^ 38
  by_contra hge
  exact none_elim (h.leaf_of_le (by omega)) hw

theorem Proc.Ok.lt_maxva (h : p.Ok s) (hw : leaf s.mem p.pagetable (va / 4096) = some w) : va < MAXVA :=
  h.space.within.space.lt_maxva hw

/-- The access that the hardware can do at once. -/
theorem accessed_of_translated {pa : ℕ} (h : p.Ok s)
    (hpa : hwTranslate s.mem p.pagetable va flag = some pa) : Accessed p va flag s (some pa) p s where
  filled := Filled.refl h.space.within
  proc := Proc.SameButFault.refl p
  found pa' hpa' := by
    obtain ⟨hva, w, hw, hflags, hpa⟩ := hwTranslate_eq_some.1 hpa
    rw [Bool.and_eq_true] at hflags
    exact ⟨w, hw, hpa.trans (Option.some.inj hpa'), hva, hflags.1, hflags.2⟩
  failed hr := nomatch hr

section

variable (h : p.Ok s) (hflag : hasFlag lazyPerm flag = true)

include h hflag

/-- The retry after a resolved fault. -/
theorem accessed_of_faulted {s' : Phys} {m : ℕ}
    (hfault : Faulted p.pagetable (va / 4096) lazyPerm page s s' m) (hpage : p.FaultPage (va / 4096) lazyPerm page)
    (hva : va < MAXVA) : let p' := { p with pagefaultCount := p.pagefaultCount + 1 }
    Accessed p va flag s
      (if p'.killed then none else hwTranslate s'.mem p.pagetable va flag) p' s' := by
  intro p'
  have hvalid := h.space.within.free.valid m hfault.free
  have hleaf : leaf s'.mem p.pagetable (va / 4096) = some (mkPte m lazyPerm) := by
    rw [hfault.leaf_eq, Function.update_self]
  have hU : hasFlag (mkPte m lazyPerm) PTE_U = true := hasFlag_mkPte (by decide)
  have hF : hasFlag (mkPte m lazyPerm) flag = true := hasFlag_mkPte hflag
  have htranslated : hwTranslate s'.mem p.pagetable va flag = some m :=
    hwTranslate_eq_some.2 ⟨hva, _, hleaf, by rw [hU, hF]; rfl, PTE2PA_mkPte hvalid.1 hvalid.lt_two_pow (by decide)⟩
  refine ⟨hfault.filled (by decide) hpage, rfl, ?_, ?_⟩
  · intro pa hpa
    by_cases hk : p'.killed = true
    · exact none_elim (if_pos hk) hpa
    · rw [if_neg hk] at hpa
      obtain ⟨-, w, hw, hflags, hpa⟩ := hwTranslate_eq_some.1 hpa
      rw [Bool.and_eq_true] at hflags
      exact ⟨w, hw, hpa, hva, hflags.1, hflags.2⟩
  · intro hr hk
    rw [if_neg (by rw [show p'.killed = p.killed from rfl, hk]; decide), htranslated] at hr
    cases hr

/-- Every outcome of a page fault leads to an outcome of the access. -/
theorem accessed_of_outcome {p' : Proc} {s' : Phys}
    (hnone : hwTranslate s.mem p.pagetable va flag = none) (ho : FaultOutcome p va s p' s') :
    Accessed p va flag s (if p'.killed then none else hwTranslate s'.mem p.pagetable va flag) p' s' := by
  have hlow : ∀ a, a < TRAPFRAME → a < MAXVA := by
    intro a ha
    change a < 2 ^ 38
    have : a < 2 ^ 38 - 4096 - 4096 := ha
    omega
  have hfilled := ho.filled
  cases ho with
  | killed _ quiet same reason =>
    change Accessed p va flag s none { p with killed := true } s'
    refine ⟨hfilled, rfl, (fun pa hpa => nomatch hpa), ?_⟩
    intro _ _
    cases hw : leaf s.mem p.pagetable (va / 4096) with
    | none =>
      obtain ⟨hout, hbad⟩ | ⟨_, hmapped⟩ | hex := reason
      · exact .inr (.inl ⟨rfl, hout, hbad⟩)
      · exact absurd hw hmapped
      · exact .inl hex
    | some w =>
      refine .inr (.inr ⟨w, rfl, ?_⟩)
      by_contra hflags
      rw [Bool.not_eq_false] at hflags
      rw [hwTranslate_eq_some.2 ⟨h.lt_maxva hw, w, hw, hflags, rfl⟩] at hnone
      cases hnone
  | region _ m inside fault =>
    exact accessed_of_faulted h hflag fault ⟨rfl, va, rfl, .inl ⟨inside, rfl⟩⟩
      (hlow va (lt_of_lt_of_le inside.2.2 (h.region inside.1)))
  | lazy _ m outside below fault =>
    exact accessed_of_faulted h hflag fault ⟨rfl, va, rfl, .inr ⟨outside, below, rfl⟩⟩
      (hlow va (lt_of_lt_of_le below h.size))

/-- A user access, whenever the kernel survives it. -/
theorem userAccess_allows : Allows (userAccess p va flag) s fun r s' => Accessed p va flag s r.1 r.2 s' := by
  rw [userAccess, allows_bind, allows_get]
  cases htr : hwTranslate s.mem p.pagetable va flag with
  | some pa => exact (allows_pure _ _ _).2 (accessed_of_translated h htr)
  | none =>
    rw [allows_bind]
    refine (pageFault_allows h).mono ?_
    intro p' s' ho
    have hacc := accessed_of_outcome h hflag htr ho
    by_cases hk : p'.killed = true
    · rw [if_pos hk] at hacc ⊢
      exact (allows_pure _ _ _).2 hacc
    · rw [if_neg hk] at hacc ⊢
      rw [allows_bind, allows_get, allows_pure]
      exact hacc

/-- A user access never stops the kernel if the pages of the region that are mapped can be accessed. -/
theorem userAccess_spec
    (hregion : p.InRegion va → ∀ w, leaf s.mem p.pagetable (va / 4096) = some w →
      (hasFlag w PTE_U && hasFlag w flag) = true) :
    Ensures (userAccess p va flag) s fun r s' => Accessed p va flag s r.1 r.2 s' := by
  rw [userAccess, ensures_bind, ensures_get]
  cases htr : hwTranslate s.mem p.pagetable va flag with
  | some pa => exact (ensures_pure _ _ _).2 (accessed_of_translated h htr)
  | none =>
    have hfault : Ensures (pageFault p va) s (FaultOutcome p va s) := by
      by_cases hin : p.InRegion va
      · have hva : va < MAXVA := by
          have hlt : va < 2 ^ 38 - 4096 - 4096 := lt_of_lt_of_le hin.2.2 (h.region hin.1)
          change va < 2 ^ 38
          omega
        apply pageFault_inside h hin hva
        cases hw : leaf s.mem p.pagetable (va / 4096) with
        | none => rfl
        | some w =>
          rw [hwTranslate_eq_some.2 ⟨hva, w, hw, hregion hin w hw, rfl⟩] at htr
          cases htr
      · exact pageFault_outside h hin
    rw [ensures_bind]
    apply hfault.mono
    intro p' s' ho
    have hacc := accessed_of_outcome h hflag htr ho
    by_cases hk : p'.killed = true
    · rw [if_pos hk] at hacc ⊢
      exact (ensures_pure _ _ _).2 hacc
    · rw [if_neg hk] at hacc ⊢
      rw [ensures_bind, ensures_get, ensures_pure]
      exact hacc

end

/-- The page that was found is the one which the process sees. -/
theorem Accessed.access_eq {k pa : ℕ} {p' : Proc} {s' : Phys} (hk : k < 10)
    (ha : Accessed p va (2 ^ k) s (some pa) p' s') : (view s' p).access va (2 ^ k) = some (s'.mem pa) := by
  obtain ⟨w, hw, rfl, -, hU, hF⟩ := ha.found pa rfl
  rw [access_of_leaf hk hw, hU, hF]
  rfl

/-- An access is invisible as far as it only fills a hole. -/
theorem Accessed.view_eq {r : Option ℕ} {p' : Proc} {s' : Phys} (h : p.Ok s) (hr : p.RegionAligned)
    (ha : Accessed p va flag s r p' s') : view s' p = view s p :=
  ha.filled.view_eq h.space.within fun _ _ _ _ hf => hf.promised hr

/-- There is nothing for a user access at the address. -/
def Proc.Unreachable (p : Proc) (s : Phys) (va : ℕ) : Prop :=
  leaf s.mem p.pagetable (va / 4096) = none ∧ ¬ p.InRegion va ∧ (va = 0 ∨ p.sz ≤ va)

/-- An access fails for lack of memory, or because there is no page or no permission. -/
theorem Accessed.access_none {k : ℕ} {p' : Proc} {s' : Phys} (hk : k < 10)
    (ha : Accessed p va (2 ^ k) s none p' s') (hkilled : p.killed = false) :
    s'.exhausted = true ∨ p.Unreachable s va ∨ (view s p).access va (2 ^ k) = none := by
  obtain hex | hout | ⟨w, hw, hflags⟩ := ha.failed rfl hkilled
  · exact .inl hex
  · exact .inr (.inl hout)
  · refine .inr (.inr ?_)
    rw [access_of_leaf hk hw, hflags]
    rfl

end Access

section LoadStore

variable {p : Proc} {s : Phys} {va : ℕ} {byte : UInt8}

/-- What a user load has done. -/
def LoadOutcome (p : Proc) (va : ℕ) (s : Phys) (r : Option UInt8) (p' : Proc) (s' : Phys) : Prop :=
  ∃ pa, Accessed p va PTE_R s pa p' s' ∧ r = pa.map fun pa => (s'.mem pa).at (va % 4096)

/-- What a user store has done. -/
def StoreOutcome (p : Proc) (va : ℕ) (byte : UInt8) (s : Phys) (r : Bool) (p' : Proc) (s' : Phys) :
    Prop :=
  ∃ pa s₁, Accessed p va PTE_W s pa p' s₁ ∧ r = pa.isSome ∧
    s' = pa.elim s₁ fun pa => s₁.setPage pa (writeBytes (s₁.mem pa) (va % 4096) [byte])

theorem userLoad_allows (h : p.Ok s) : Allows (userLoad p va) s fun r s' => LoadOutcome p va s r.1 r.2 s' := by
  rw [userLoad, allows_bind]
  refine (userAccess_allows h (by decide)).mono ?_
  intro r s' ha
  obtain ⟨pa, p'⟩ := r
  cases pa with
  | none => exact (allows_pure _ _ _).2 ⟨none, ha, rfl⟩
  | some pa =>
    change Allows (get >>= _) s' _
    rw [allows_bind, allows_get]
    exact (allows_pure _ _ _).2 ⟨some pa, ha, rfl⟩

theorem userStore_allows (h : p.Ok s) :
    Allows (userStore p va byte) s fun r s' => StoreOutcome p va byte s r.1 r.2 s' := by
  rw [userStore, allows_bind]
  refine (userAccess_allows h (by decide)).mono ?_
  intro r s' ha
  obtain ⟨pa, p'⟩ := r
  cases pa with
  | none => exact (allows_pure _ _ _).2 ⟨none, s', ha, rfl, rfl⟩
  | some pa =>
    change Allows (modify _ >>= _) s' _
    rw [allows_bind, allows_modify]
    exact (allows_pure _ _ _).2 ⟨some pa, s', ha, rfl, rfl⟩

/-- A user load never stops the kernel if the pages of the region that are mapped can be read. -/
theorem userLoad_spec (h : p.Ok s)
    (hregion : p.InRegion va → ∀ w, leaf s.mem p.pagetable (va / 4096) = some w →
      (hasFlag w PTE_U && hasFlag w PTE_R) = true) :
    Ensures (userLoad p va) s fun r s' => LoadOutcome p va s r.1 r.2 s' := by
  rw [userLoad, ensures_bind]
  refine (userAccess_spec h (by decide) hregion).mono ?_
  intro r s' ha
  obtain ⟨pa, p'⟩ := r
  cases pa with
  | none => exact (ensures_pure _ _ _).2 ⟨none, ha, rfl⟩
  | some pa =>
    change Ensures (get >>= _) s' _
    rw [ensures_bind, ensures_get]
    exact (ensures_pure _ _ _).2 ⟨some pa, ha, rfl⟩

/-- A user store never stops the kernel if the pages of the region that are mapped can be written. -/
theorem userStore_spec (h : p.Ok s)
    (hregion : p.InRegion va → ∀ w, leaf s.mem p.pagetable (va / 4096) = some w →
      (hasFlag w PTE_U && hasFlag w PTE_W) = true) :
    Ensures (userStore p va byte) s fun r s' => StoreOutcome p va byte s r.1 r.2 s' := by
  rw [userStore, ensures_bind]
  refine (userAccess_spec h (by decide) hregion).mono ?_
  intro r s' ha
  obtain ⟨pa, p'⟩ := r
  cases pa with
  | none => exact (ensures_pure _ _ _).2 ⟨none, s', ha, rfl, rfl⟩
  | some pa =>
    change Ensures (modify _ >>= _) s' _
    rw [ensures_bind, ensures_modify]
    exact (ensures_pure _ _ _).2 ⟨some pa, s', ha, rfl, rfl⟩

end LoadStore

variable {r : Option UInt8}

section Structure

variable {p p' : Proc} {s s' : Phys} {va : ℕ}

/-- The page numbers at which a page fault of the process can map a page, with its permissions. -/
def Proc.FaultVpn (p : Proc) (vpn perm : ℕ) : Prop :=
  perm = lazyPerm ∧ ∃ va, va / 4096 = vpn ∧ (p.InRegion va ∨ va < p.sz)

omit [KernelImage] in
theorem Proc.FaultPage.vpn {vpn perm : ℕ} (h : p.FaultPage vpn perm page) : p.FaultVpn vpn perm := by
  obtain ⟨hperm, va, hva, ⟨hin, -⟩ | ⟨-, hlt, -⟩⟩ := h
  · exact ⟨hperm, va, hva, .inl hin⟩
  · exact ⟨hperm, va, hva, .inr hlt⟩

/-- The trampoline is not a user page. -/
theorem trampoline_not_user : hasFlag (mkPte KernelImage.trampoline (PTE_R ||| PTE_X)) PTE_U = false := by
  change hasFlag _ (2 ^ 4) = false
  rw [← hasFlag_PTE_FLAGS _ (k := 4) (by decide), PTE_FLAGS_mkPte (by decide)]
  decide

/-- The page of a user is a page of the allocator. -/
theorem Vm.ProcSpace.pageAddress_of_user {root tf vpn : ℕ} (h : ProcSpace s root tf)
    (hw : leaf s.mem root vpn = some w) (hU : hasFlag w PTE_U = true) : PageAddress (PTE2PA w) := by
  refine h.pageAddress ?_ hw
  intro hvpn
  rw [hvpn, h.tramp] at hw
  rw [← Option.some.inj hw, trampoline_not_user] at hU
  cases hU

/-- The page of a user address is a page of the allocator. -/
theorem Accessed.pageAddress {flag pa : ℕ} (h : p.Ok s) (ha : Accessed p va flag s (some pa) p' s') :
    ∃ w, leaf s'.mem p.pagetable (va / 4096) = some w ∧ PTE2PA w = pa ∧ PageAddress pa := by
  obtain ⟨w, hw, rfl, -, hU, -⟩ := ha.found pa rfl
  exact ⟨w, hw, rfl, (ha.filled.procSpace h.space).pageAddress_of_user hw hU⟩

/-- A user load adds leaves at most. -/
theorem LoadOutcome.leafGrowth (h : p.Ok s) (ho : LoadOutcome p va s r p' s') :
    LeafGrowth p.pagetable p.FaultVpn s s' := by
  obtain ⟨pa, ha, -⟩ := ho
  exact ha.filled.leafGrowth h.space.within fun _ _ _ hf => hf.vpn

/-- A user store adds leaves and writes a user page at most. -/
theorem StoreOutcome.leafGrowth {r : Bool} {byte : UInt8} (h : p.Ok s)
    (ho : StoreOutcome p va byte s r p' s') : LeafGrowth p.pagetable p.FaultVpn s s' := by
  obtain ⟨pa, s₁, ha, -, hs'⟩ := ho
  have hgrowth : LeafGrowth p.pagetable p.FaultVpn s s₁ := ha.filled.leafGrowth h.space.within fun _ _ _ hf => hf.vpn
  cases pa with
  | none => rwa [show s' = s₁ from hs']
  | some pa =>
    obtain ⟨w, hw, rfl, hpage⟩ := ha.pageAddress h
    rw [hs']
    exact hgrowth.trans (leafGrowth_write hgrowth.step.after hw hpage _)

end Structure

section Visible

variable {p p' : Proc} {s s' : Phys} {va : ℕ}

/-- What a user load finds is what the process sees, and nothing it sees changes. -/
theorem LoadOutcome.visible (h : p.Ok s) (hr : p.RegionAligned)
    (ho : LoadOutcome p va s r p' s') : view s' p = view s p ∧
      (∀ b, r = some b → (view s p).load va = some b) ∧
      (r = none → p.killed = false →
        s'.exhausted = true ∨ p.Unreachable s va ∨ (view s p).load va = none) := by
  obtain ⟨pa, ha, hrpa⟩ := ho
  have hview := ha.view_eq h hr
  refine ⟨hview, ?_, ?_⟩
  · intro b hb
    cases pa with
    | none => rw [hrpa] at hb; cases hb
    | some pa =>
      have haccess : (view s p).access va PTE_R = some (s'.mem pa) := by
        rw [← hview]
        exact ha.access_eq (k := 1) (by decide)
      rw [UserMem.load, haccess, ← hb, hrpa]
      rfl
  · intro hnone hkilled
    cases pa with
    | some pa => rw [hrpa] at hnone; cases hnone
    | none =>
      obtain hex | hout | haccess := ha.access_none (k := 1) (by decide) hkilled
      · exact .inl hex
      · exact .inr (.inl hout)
      · refine .inr (.inr ?_)
        rw [UserMem.load, show (view s p).access va PTE_R = none from haccess]
        rfl

/-- A user store puts its byte into what the process sees. -/
theorem StoreOutcome.visible {r : Bool} {byte : UInt8} (h : p.Ok s) (hr : p.RegionAligned)
    (ho : StoreOutcome p va byte s r p' s') :
    (r = true → view s' p = (view s p).put va byte ∧ ((view s p).access va PTE_W).isSome) ∧
    (r = false → view s' p = view s p ∧ (p.killed = false →
      s'.exhausted = true ∨ p.Unreachable s va ∨ (view s p).access va PTE_W = none)) := by
  obtain ⟨pa, s₁, ha, hrpa, hs'⟩ := ho
  have hview := ha.view_eq h hr
  cases pa with
  | none =>
    obtain rfl : s' = s₁ := hs'
    refine ⟨fun htrue => ?_, fun _ => ⟨hview, ha.access_none (k := 2) (by decide)⟩⟩
    rw [hrpa] at htrue
    cases htrue
  | some pa =>
    have haccess : (view s p).access va PTE_W = some (s₁.mem pa) := by
      rw [← hview]
      exact ha.access_eq (k := 2) (by decide)
    refine ⟨fun _ => ⟨?_, by rw [haccess]; rfl⟩, fun hfalse => ?_⟩
    · obtain ⟨w, hw, rfl, -⟩ := ha.found pa rfl
      have hold : view s p (va / 4096) = some (PTE_FLAGS w, s₁.mem (PTE2PA w)) := by
        rw [← hview, view_of_leaf hw]
      rw [UserMem.put, hold, ← hview, hs']
      exact view_setPage ha.filled.quiet.step.after hw _
    · rw [hrpa] at hfalse
      cases hfalse

end Visible

end Xv6
