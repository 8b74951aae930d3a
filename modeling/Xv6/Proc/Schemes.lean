import Xv6.Proc.ExecSafety

/-!
# Two processes that see the same

Under lazy and under eager allocation a process has different pages mapped. It sees the same as long as
the pages below its size agree, where a page that is only promised counts with the contents it will
have. Loads, stores and the copies of the kernel then have the same results and keep the agreement.
-/

namespace Xv6

open Function Library Vm

variable {va : ℕ}

namespace UserMem

/-- Two memories agree on the pages below a number, and the user can access no other page. -/
structure Agree (n : ℕ) (V W : UserMem) : Prop where
  below : ∀ v < n, V v = W v
  left : ∀ va flag, n ≤ va / 4096 → V.access va flag = none
  right : ∀ va flag, n ≤ va / 4096 → W.access va flag = none

section Agree

variable {n : ℕ} {V W : UserMem}

theorem Agree.access_eq (h : Agree n V W) (va flag : ℕ) : V.access va flag = W.access va flag := by
  by_cases hva : va / 4096 < n
  · rw [access, access, h.below _ hva]
  · rw [h.left va flag (not_lt.1 hva), h.right va flag (not_lt.1 hva)]

theorem Agree.load_eq (h : Agree n V W) (va : ℕ) : V.load va = W.load va := by
  rw [load, load, h.access_eq]

theorem Agree.copyin_eq (h : Agree n V W) (va len : ℕ) : V.copyin va len = W.copyin va len := by
  induction len generalizing va with
  | zero => rfl
  | succ len ih => rw [copyin, copyin, h.access_eq, ih]

/-- The user can access the pages below the number only. -/
theorem Agree.lt_of_access (h : Agree n V W) {flag : ℕ} (hsome : (V.access va flag).isSome = true) :
    va / 4096 < n := by
  by_contra hva
  rw [h.left va flag (not_lt.1 hva)] at hsome
  cases hsome

theorem access_put_of_ne (V : UserMem) {x : ℕ} (byte : UInt8) (flag : ℕ) (h : x / 4096 ≠ va / 4096) :
    (V.put va byte).access x flag = V.access x flag := by
  rw [access, access, put, update_of_ne h]

/-- Storing a byte below the number keeps the agreement. -/
theorem Agree.put (h : Agree n V W) (hva : va / 4096 < n) (byte : UInt8) :
    Agree n (V.put va byte) (W.put va byte) where
  below v hv := by
    rw [UserMem.put, UserMem.put, h.below _ hva]
    by_cases hpage : v = va / 4096
    · rw [hpage, update_self, update_self]
    · rw [update_of_ne hpage, update_of_ne hpage, h.below v hv]
  left x flag hx := by rw [access_put_of_ne V byte flag (by omega), h.left x flag hx]
  right x flag hx := by rw [access_put_of_ne W byte flag (by omega), h.right x flag hx]

/-- A copy to both memories ends in the same way and keeps the agreement. -/
theorem Agree.copyout (h : Agree n V W) (va : ℕ) (src : List UInt8) :
    (V.copyout va src).2 = (W.copyout va src).2 ∧
      Agree n (V.copyout va src).1 (W.copyout va src).1 := by
  induction src generalizing V W va with
  | nil => exact ⟨rfl, h⟩
  | cons byte src ih =>
    rw [UserMem.copyout, UserMem.copyout, ← h.access_eq]
    by_cases hwrite : (V.access va PTE_W).isSome = true
    · rw [if_pos hwrite, if_pos hwrite]
      exact ih (h.put (h.lt_of_access hwrite) byte) (va + 1)
    · rw [if_neg hwrite, if_neg hwrite]
      exact ⟨rfl, h⟩

end Agree

end UserMem

variable [KernelImage]

/-- A process that uses neither `map_ro` nor `mapzero` nor shared memory. -/
structure Proc.Heap (p : Proc) (s : Phys) : Prop where
  ok : p.Ok s
  plain : p.Plain s

section Heap

variable {p q : Proc} {s t : Phys}

omit [KernelImage] in
/-- A process stays plain if its record says the same and its user pages still lie below its size. -/
theorem Proc.Plain.of_same {s' : Phys} (h : p.Plain s) (hsame : p.SameMemory q)
    (hbelow : ∀ v w, leaf s'.mem p.pagetable v = some w → v < tfVpn → v < pageCount p.sz) : q.Plain s' := by
  refine ⟨?_, ?_, ?_, ?_, ?_⟩
  · rw [hsame.shmVa]
    exact h.unshared
  · rw [hsame.usar]
    exact h.usar
  · rw [hsame.mapRoVa]
    exact h.mapRo
  · rw [hsame.vr]
    exact h.region
  · rw [hsame.pagetable, hsame.sz]
    exact hbelow

omit [KernelImage] in
theorem Proc.Plain.not_inRegion (h : p.Plain s) (va : ℕ) : ¬ p.InRegion va := by
  intro hin
  have hactive := hin.1
  rw [h.region] at hactive
  cases hactive

omit [KernelImage] in
theorem Proc.Plain.regionAligned (h : p.Plain s) : p.RegionAligned := by
  intro hactive
  rw [h.region] at hactive
  cases hactive

omit [KernelImage] in
/-- The copies of the kernel meet no region. -/
theorem Proc.Plain.materialised (h : p.Plain s) (va len : ℕ) : p.Materialised s va len :=
  fun _ _ _ hin => absurd hin (h.not_inRegion _)

omit [KernelImage] in
/-- The pages below the size are promised as cleared pages, and no other page is promised. -/
theorem Proc.Plain.promised (h : p.Plain s) (v : ℕ) :
    p.promised v = if v < pageCount p.sz then some (filled 0) else none := by
  rw [Proc.promised, if_neg (h.not_inRegion _)]
  simp only [lt_pageCount_iff]

/-- The user of a plain process can access the pages below its size only. -/
theorem Proc.Heap.access_none (h : p.Heap s) {flag : ℕ} (hva : pageCount p.sz ≤ va / 4096) :
    (view s p).access va flag = none := by
  rw [UserMem.access]
  cases hw : leaf s.mem p.pagetable (va / 4096) with
  | none =>
    rw [view_of_none hw, h.plain.promised, if_neg (not_lt.2 hva)]
    rfl
  | some w =>
    have hhigh : ¬ va / 4096 < 67108862 := fun hlow => absurd (h.plain.below _ w hw hlow) (not_lt.2 hva)
    -- the pages above are not for the user
    have hflags : hasFlag (PTE_FLAGS w) PTE_U = false := by
      rw [show PTE_U = 2 ^ 4 from rfl, hasFlag_PTE_FLAGS _ (by decide)]
      exact Bool.eq_false_iff.2 fun hU => hhigh (h.ok.space.lt_of_user hw hU)
    rw [view_of_leaf hw]
    change (if hasFlag (PTE_FLAGS w) PTE_U && _ then _ else _) = none
    rw [hflags, Bool.false_and]
    rfl

/-- Two plain processes of one size that see the same pages below it. -/
structure Twins (p : Proc) (s : Phys) (q : Proc) (t : Phys) : Prop where
  left : p.Heap s
  right : q.Heap t
  size : q.sz = p.sz
  seen : ∀ v < pageCount p.sz, view s p v = view t q v

theorem Twins.agree (h : Twins p s q t) : UserMem.Agree (pageCount p.sz) (view s p) (view t q) where
  below := h.seen
  left _ _ hva := h.left.access_none hva
  right _ _ hva := h.right.access_none (h.size ▸ hva)

/-- What the views of two processes show again after an operation keeps them alike. -/
theorem Twins.of_agree {p' q' : Proc} {s' t' : Phys} (hleft : p'.Heap s') (hright : q'.Heap t')
    (hsize : q'.sz = p'.sz)
    (hagree : UserMem.Agree (pageCount p'.sz) (view s' p') (view t' q')) : Twins p' s' q' t' :=
  ⟨hleft, hright, hsize, hagree.below⟩

end Heap

section Access

variable {p q p' q' : Proc} {s t s' t' : Phys}

/-- The addresses at which the schemes are compared: those below the size and those above the last page.
In between it depends on the history whether there is a page. The page fault handler looks for none at
address zero, so its page has to be mapped, as it is in every process that runs a program. -/
def Proc.Compared (p : Proc) (s : Phys) (va : ℕ) : Prop :=
  (va < p.sz ∧ (va = 0 → leaf s.mem p.pagetable 0 ≠ none)) ∨ pageCount p.sz * 4096 ≤ va

/-- If there is nothing for an access at such an address, the process cannot see a page there. -/
theorem Proc.Heap.access_unreachable (h : p.Heap s) (hva : p.Compared s va) (hun : p.Unreachable s va)
    (flag : ℕ) : (view s p).access va flag = none := by
  obtain ⟨hnone, -, hout⟩ := hun
  apply h.access_none
  obtain ⟨hlt, hzero⟩ | hhigh := hva
  · obtain rfl | hsz := hout
    · exact absurd hnone (hzero rfl)
    · exact absurd hsz (not_le.2 hlt)
  · omega

/-- A load is answered by what the process sees, if there is memory for the page. -/
theorem LoadOutcome.result {r : Option UInt8} (h : p.Heap s) (halive : p.killed = false)
    (hva : p.Compared s va) (ho : LoadOutcome p va s r p' s')
    (hmem : s'.exhausted = false) : view s' p = view s p ∧ r = (view s p).load va := by
  obtain ⟨hview, hfound, hnone⟩ := ho.visible h.ok h.plain.regionAligned
  refine ⟨hview, ?_⟩
  cases r with
  | some b => exact (hfound b rfl).symm
  | none =>
    obtain hex | hunreachable | hload := hnone rfl halive
    · rw [hmem] at hex
      cases hex
    · rw [UserMem.load, h.access_unreachable hva hunreachable]
      rfl
    · exact hload.symm

/-- A store is done where the process may write, if there is memory for the page. -/
theorem StoreOutcome.result {byte : UInt8} {r : Bool} (h : p.Heap s)
    (halive : p.killed = false) (hva : p.Compared s va)
    (ho : StoreOutcome p va byte s r p' s') (hmem : s'.exhausted = false) :
    r = ((view s p).access va PTE_W).isSome ∧
      view s' p = if r then (view s p).put va byte else view s p := by
  obtain ⟨hdone, hfail⟩ := ho.visible h.ok h.plain.regionAligned
  cases r with
  | true =>
    obtain ⟨hview, hwrite⟩ := hdone rfl
    exact ⟨hwrite.symm, hview⟩
  | false =>
    obtain ⟨hview, hreason⟩ := hfail rfl
    refine ⟨?_, hview⟩
    obtain hex | hunreachable | hwrite := hreason halive
    · rw [hmem] at hex
      cases hex
    · rw [h.access_unreachable hva hunreachable]
      rfl
    · rw [hwrite]
      rfl

variable {o : Outcome}

/-- An access keeps a process plain. -/
theorem Proc.Heap.of_access {op : Op} (h : p.Heap s) (he : MemEffect p s op o p' s')
    (hop : op.IsAccess) : p'.Heap s' := by
  obtain ⟨hsame, hg⟩ := he.access h.ok hop
  refine ⟨hsame.ok (h.ok.of_leafGrowth hg), h.plain.of_same hsame ?_⟩
  intro v w hw hv
  cases hold : leaf s.mem p.pagetable v with
  | some w' => exact h.plain.below v w' hold hv
  | none =>
    obtain ⟨m, perm, -, -, -, -, va, rfl, hin | hlt⟩ := hg.new v w hold hw
    · exact absurd hin (h.plain.not_inRegion va)
    · rw [lt_pageCount_iff]
      omega

/-- The operations of a process on its heap. -/
def Proc.HeapOp (p : Proc) (s : Phys) : Op → Prop
  | .sbrk _ | .copyin _ _ | .copyout _ _ | .fork => True
  | .load va | .store va _ => p.Compared s va.toNat
  | _ => False

/-- Accesses by two processes that see the same have the same outcome, and they still see the same. -/
theorem Twins.access {op : Op} {o' : Outcome} (h : Twins p s q t) (hp : p.killed = false) (hq : q.killed = false)
    (hop : op.IsAccess) (hheap : p.HeapOp s op) (hheap' : q.HeapOp t op) (he : MemEffect p s op o p' s')
    (he' : MemEffect q t op o' q' t')
    (hs : s'.exhausted = false) (ht : t'.exhausted = false) : o' = o ∧ Twins p' s' q' t' := by
  obtain ⟨hsame, -⟩ := he.access h.left.ok hop
  obtain ⟨hsame', -⟩ := he'.access h.right.ok hop
  have hagree := h.agree
  -- it is enough to compare the outcomes and what the old records show of the new memory
  suffices hmain : o' = o ∧ UserMem.Agree (pageCount p.sz) (view s' p) (view t' q) by
    obtain ⟨ho, hagree'⟩ := hmain
    refine ⟨ho, Twins.of_agree (h.left.of_access he hop) (h.right.of_access he' hop) ?_ ?_⟩
    · rw [hsame.sz, hsame'.sz, h.size]
    · rw [hsame.sz, hsame.view_eq, hsame'.view_eq]
      exact hagree'
  cases he with
  | grow | shrink | mapzero | mapRoFailed | mapRo => exact absurd hop id
  | load va r _ _ outcome =>
    cases he' with
    | load _ r' _ _ outcome' =>
      obtain ⟨hview, rfl⟩ := outcome.result h.left hp hheap hs
      obtain ⟨hview', rfl⟩ := outcome'.result h.right hq hheap' ht
      rw [hview, hview', hagree.load_eq]
      exact ⟨rfl, hagree⟩
  | store va byte r _ _ outcome =>
    cases he' with
    | store _ _ r' _ _ outcome' =>
      obtain ⟨hr, hview⟩ := outcome.result h.left hp hheap hs
      obtain ⟨hr', hview'⟩ := outcome'.result h.right hq hheap' ht
      rw [← hagree.access_eq, ← hr] at hr'
      subst hr'
      refine ⟨rfl, ?_⟩
      rw [hview, hview']
      cases r' with
      | true => exact hagree.put (hagree.lt_of_access hr.symm) byte
      | false => exact hagree
  | copyin va len r _ filled seen =>
    cases he' with
    | copyin _ _ r' _ filled' seen' =>
      have hm := h.left.plain.materialised va.toNat len.toNat
      have hm' := h.right.plain.materialised va.toNat len.toNat
      have hview : view s' p = view s p :=
        filled.view_eq h.left.ok.space.within fun v perm page hnone hc => hc.promised hm hnone
      have hview' : view t' q = view t q :=
        filled'.view_eq h.right.ok.space.within fun v perm page hnone hc => hc.promised hm' hnone
      have hr := (seen hm).resolve_left (by rw [hs]; exact Bool.false_ne_true)
      have hr' := (seen' hm').resolve_left (by rw [ht]; exact Bool.false_ne_true)
      rw [hview, hview', hr, hr', hagree.copyin_eq]
      exact ⟨rfl, hagree⟩
  | copyout va src r _ growth seen =>
    cases he' with
    | copyout _ _ r' _ growth' seen' =>
      obtain ⟨hview, hr⟩ := (seen (h.left.plain.materialised _ _)).complete hs
      obtain ⟨hview', hr'⟩ := (seen' (h.right.plain.materialised _ _)).complete ht
      obtain ⟨hok, hagree'⟩ := hagree.copyout va.toNat src
      rw [hview, hview', hr, hr', hok]
      exact ⟨rfl, hagree'⟩

end Access

section Resize

variable {p q : Proc} {s t s' t' : Phys} {newsz : ℕ}

/-- Shrinking keeps what a process sees below its new size. -/
theorem Vm.Dealloced.view_eq {r : ℕ} (h : p.Heap s) (hle : newsz ≤ p.sz)
    (hd : Dealloced p.pagetable p.sz newsz s r s') : ({ p with sz := newsz } : Proc).Heap s' ∧
      ∀ v < pageCount newsz, view s' { p with sz := newsz } v = view s p v := by
  have hcount := pageCount_mono hle
  have hplain : ({ p with sz := newsz } : Proc).Plain s' := by
    refine ⟨h.plain.unshared, h.plain.usar, h.plain.mapRo, h.plain.region, ?_⟩
    intro v w hw hv
    rw [hd.leaf_eq] at hw
    obtain ⟨hw, hlow | hhigh⟩ := removed_eq_some hw
    · exact hlow
    · exact absurd (h.plain.below v w hw hv) (not_lt.2 hhigh)
  have hok : ({ p with sz := newsz } : Proc).Ok s' := by
    refine ⟨h.ok.space.of_step hd.step ?_, hle.trans h.ok.size, h.ok.region⟩
    intro v hv
    rw [hd.leaf_eq, removed_of_le _ ((pageCount_le h.ok.size).trans hv)]
  refine ⟨⟨hok, hplain⟩, ?_⟩
  intro v hv
  have hleaf : leaf s'.mem p.pagetable v = leaf s.mem p.pagetable v := by
    rw [hd.leaf_eq, removed_of_lt _ hv]
  cases hw : leaf s.mem p.pagetable v with
  | some w =>
    have hw' : leaf s'.mem ({ p with sz := newsz } : Proc).pagetable v = some w := hleaf.trans hw
    rw [view_of_leaf hw, view_of_leaf hw', hd.same]
    · exact (h.ok.space.within.mapped_out hw).1
    · intro v' w' hlow _ hw'' heq
      have hsame := h.ok.space.within.space.inj v' v w' w hw'' hw heq
      omega
  | none =>
    have hw' : leaf s'.mem ({ p with sz := newsz } : Proc).pagetable v = none := hleaf.trans hw
    rw [view_of_none hw, view_of_none hw', hplain.promised, h.plain.promised, if_pos hv,
      if_pos (lt_of_lt_of_le hv hcount)]

/-- A process that only moves its size up is promised the new pages. -/
theorem Proc.Heap.grown (h : p.Heap s) (hle : p.sz ≤ newsz) (htop : newsz ≤ TRAPFRAME) :
    ({ p with sz := newsz } : Proc).Heap s ∧
      ∀ v < pageCount newsz, view s { p with sz := newsz } v =
        if v < pageCount p.sz then view s p v else some (lazyPerm ||| PTE_V, filled 0) := by
  have hcount := pageCount_mono hle
  have hplain : ({ p with sz := newsz } : Proc).Plain s :=
    ⟨h.plain.unshared, h.plain.usar, h.plain.mapRo, h.plain.region,
      fun v w hw hv => lt_of_lt_of_le (h.plain.below v w hw hv) hcount⟩
  refine ⟨⟨⟨h.ok.space, htop, h.ok.region⟩, hplain⟩, ?_⟩
  intro v hv
  cases hw : leaf s.mem p.pagetable v with
  | some w =>
    have hlow : v < tfVpn := lt_of_lt_of_le hv (pageCount_le htop)
    have hw' : leaf s.mem ({ p with sz := newsz } : Proc).pagetable v = some w := hw
    rw [if_pos (h.plain.below v w hw hlow), view_of_leaf hw, view_of_leaf hw']
  | none =>
    have hw' : leaf s.mem ({ p with sz := newsz } : Proc).pagetable v = none := hw
    rw [view_of_none hw', view_of_none hw, hplain.promised, h.plain.promised, if_pos hv]
    by_cases hlow : v < pageCount p.sz
    · rw [if_pos hlow, if_pos hlow]
    · rw [if_neg hlow]
      rfl

/-- A process that has got new cleared pages sees them. -/
theorem Vm.Cleared.view_eq (h : p.Heap s) (hle : p.sz ≤ newsz) (htop : newsz ≤ TRAPFRAME)
    (hc : Cleared p.pagetable (pageCount p.sz) (pageCount newsz - pageCount p.sz)
      (PTE_R ||| PTE_U ||| PTE_W) s s') :
    ({ p with sz := newsz } : Proc).Heap s' ∧
      ∀ v < pageCount newsz, view s' { p with sz := newsz } v =
        if v < pageCount p.sz then view s p v else some (lazyPerm ||| PTE_V, filled 0) := by
  have hcount := pageCount_mono hle
  have hplain : ({ p with sz := newsz } : Proc).Plain s' := by
    refine ⟨h.plain.unshared, h.plain.usar, h.plain.mapRo, h.plain.region, ?_⟩
    intro v w hw hv
    by_contra hout
    have hout' : ¬ v < pageCount newsz := hout
    rw [hc.others v (by omega)] at hw
    have hbelow := h.plain.below v w hw hv
    omega
  have hok : ({ p with sz := newsz } : Proc).Ok s' := by
    refine ⟨h.ok.space.of_step hc.quiet.step ?_, htop, h.ok.region⟩
    intro v hv
    have hlow := pageCount_le htop
    exact hc.others v (by omega)
  refine ⟨⟨hok, hplain⟩, ?_⟩
  intro v hv
  by_cases hlow : v < pageCount p.sz
  · rw [if_pos hlow]
    have hleaf := hc.others v (by omega)
    cases hw : leaf s.mem p.pagetable v with
    | some w =>
      have hw' : leaf s'.mem ({ p with sz := newsz } : Proc).pagetable v = some w := hleaf.trans hw
      obtain ⟨htable, hfree⟩ := h.ok.space.within.mapped_out hw
      rw [view_of_leaf hw, view_of_leaf hw', hc.quiet.same _ htable hfree]
    | none =>
      have hw' : leaf s'.mem ({ p with sz := newsz } : Proc).pagetable v = none := hleaf.trans hw
      rw [view_of_none hw, view_of_none hw', hplain.promised, h.plain.promised, if_pos hv, if_pos hlow]
  · rw [if_neg hlow]
    obtain ⟨m, -, hm, hw, hpage⟩ := hc.fresh v (not_lt.1 hlow) (by omega)
    have hw' : leaf s'.mem ({ p with sz := newsz } : Proc).pagetable v =
        some (mkPte m (PTE_R ||| PTE_U ||| PTE_W)) := hw
    rw [view_of_leaf hw', PTE_FLAGS_mkPte (by decide), PTE2PA_mkPte hm.1 hm.lt_two_pow (by decide), hpage]
    rfl

/-- What `sbrk` has done under either scheme, as the process sees it. -/
structure Resized (p : Proc) (s : Phys) (n : ℤ) (r : ℕ × Proc) (s' : Phys) : Prop where
  result : r = ((sbrkTo p.sz n).1, { p with sz := (sbrkTo p.sz n).2 })
  step : SpaceStep p.pagetable s s'
  heap : ({ p with sz := (sbrkTo p.sz n).2 } : Proc).Heap s'
  seen : ∀ v < pageCount (sbrkTo p.sz n).2, view s' { p with sz := (sbrkTo p.sz n).2 } v =
    if v < pageCount p.sz then view s p v else some (lazyPerm ||| PTE_V, filled 0)

variable {n : ℤ} {r : ℕ × Proc}

/-- Shrinking is the same under both schemes. -/
theorem Resized.of_dealloced (h : p.Heap s) (hneg : n < 0)
    (hr : r = ((sbrkTo p.sz n).1, { p with sz := (sbrkTo p.sz n).2 }))
    (hd : Dealloced p.pagetable p.sz (sbrkTo p.sz n).2 s (sbrkTo p.sz n).2 s') : Resized p s n r s' := by
  have hle : (sbrkTo p.sz n).2 ≤ p.sz := sbrkTo_neg_le hneg
  obtain ⟨hheap, hview⟩ := hd.view_eq h hle
  refine ⟨hr, hd.step, hheap, ?_⟩
  intro v hv
  rw [hview v hv, if_pos (lt_of_lt_of_le hv (pageCount_mono hle))]

/-- `sbrk` with lazy allocation. -/
theorem sysSbrk_resized (h : p.Heap s) (hn : n.natAbs ≤ 2 ^ 31) : Ensures (sysSbrk p n) s (Resized p s n) := by
  refine (sysSbrk_spec h.ok hn).mono ?_
  intro r s' hr
  obtain ⟨hr, hsame, hd⟩ := hr
  by_cases hneg : n < 0
  · exact Resized.of_dealloced h hneg hr (hd hneg)
  · rw [hsame (not_lt.1 hneg)]
    obtain ⟨hheap, hview⟩ := h.grown (sbrkTo_nonneg_le (not_lt.1 hneg)) (sbrkTo_le h.ok.size)
    exact ⟨hr, SpaceStep.refl h.ok.space.within, hheap, hview⟩

/-- `sbrk` with eager allocation, unless memory runs out. -/
theorem sysSbrkEager_resized (h : p.Heap s) (hn : n.natAbs ≤ 2 ^ 31) :
    Ensures (sysSbrkEager p n) s fun r s' => s'.exhausted = true ∨ Resized p s n r s' := by
  rw [sysSbrkEager, ensures_bind]
  by_cases hneg : n < 0
  · refine (growproc_neg h.ok hn hneg).mono ?_
    intro r s' hr
    obtain ⟨rfl, hd⟩ := hr
    rw [ensures_pure]
    refine .inr (Resized.of_dealloced h hneg ?_ hd)
    have hfst : (sbrkTo p.sz n).1 = p.sz := by
      rw [sbrkTo, if_neg (by omega)]
      split_ifs <;> rfl
    rw [hfst]
    rfl
  obtain ⟨hheap, hview⟩ := h.grown (sbrkTo_nonneg_le (n := n) (not_lt.1 hneg)) (sbrkTo_le h.ok.size)
  by_cases hpos : 0 < n
  · rw [growproc, if_pos hpos, toUInt64_add_pos h.ok.size hpos hn]
    by_cases hbig : TRAPFRAME < p.sz + n.natAbs
    · have hsbrk : sbrkTo p.sz n = (minusOne, p.sz) := by rw [sbrkTo, if_pos hpos, if_pos hbig]
      rw [if_pos hbig, ensures_pure]
      refine (ensures_pure _ _ _).2 (.inr ⟨?_, SpaceStep.refl h.ok.space.within, hheap, hview⟩)
      rw [hsbrk]
      rfl
    · have hsbrk : sbrkTo p.sz n = (p.sz, p.sz + n.natAbs) := by
        rw [sbrkTo, if_pos hpos, if_neg hbig]
      have htop : p.sz + n.natAbs ≤ TRAPFRAME := not_lt.1 hbig
      rw [if_neg hbig, ensures_bind]
      refine (uvmalloc_spec h.ok.space (by decide) h.ok.size (Nat.le_add_right _ _) ?_).mono ?_
      · intro j hj _
        have hlow : pageCount p.sz + j < tfVpn := lt_of_lt_of_le hj (pageCount_le htop)
        refine ⟨hlow, ?_⟩
        cases hw : leaf s.mem p.pagetable (pageCount p.sz + j) with
        | none => rfl
        | some w =>
          have hbelow := h.plain.below _ w hw hlow
          omega
      · intro r s' hr
        obtain ⟨rfl, hc⟩ | ⟨-, hex⟩ := hr
        · obtain ⟨hheap', hview'⟩ := hc.view_eq h (Nat.le_add_right _ _) htop
          rw [if_neg (by omega), ensures_pure]
          refine (ensures_pure _ _ _).2 (.inr ⟨?_, hc.quiet.step, ?_, ?_⟩)
          · rw [hsbrk]
            rfl
          · rw [hsbrk]
            exact hheap'
          · rw [hsbrk]
            exact hview'
        · have hexhausted := hex.exhausted
          by_cases hr : r = 0
          · rw [if_pos hr, ensures_pure]
            exact (ensures_pure _ _ _).2 (.inl hexhausted)
          · rw [if_neg hr, ensures_pure]
            exact (ensures_pure _ _ _).2 (.inl hexhausted)
  · have hzero : n = 0 := by omega
    subst hzero
    rw [growproc, if_neg hpos, if_neg hneg, ensures_pure]
    exact (ensures_pure _ _ _).2 (.inr ⟨rfl, SpaceStep.refl h.ok.space.within, hheap, hview⟩)

/-- Two processes that see the same still do after both have been resized. -/
theorem Twins.resized {r' : ℕ × Proc} (h : Twins p s q t) (hp : Resized p s n r s')
    (hq : Resized q t n r' t') : r'.1 = r.1 ∧ Twins r.2 s' r'.2 t' := by
  obtain ⟨hr, -, hheap, hseen⟩ := hp
  obtain ⟨hr', -, hheap', hseen'⟩ := hq
  rw [hr, hr']
  rw [h.size] at hheap' hseen' ⊢
  refine ⟨rfl, ⟨hheap, hheap', rfl, ?_⟩⟩
  intro v hv
  rw [hseen v hv, hseen' v hv]
  by_cases hlow : v < pageCount p.sz
  · rw [if_pos hlow, if_pos hlow, h.seen v hlow]
  · rw [if_neg hlow, if_neg hlow]

end Resize

section Child

variable {k : Kernel} {i np : Fin NPROC} {root tf : ℕ} {s : Phys}

/-- A child sees what its parent sees. -/
theorem ChildMemory.view_eq (h : k.Layout) (hparent : (k.proc i).Heap k.phys)
    (hmem : ChildMemory k i root tf s) {q : Proc} (hroot : q.pagetable = root)
    (htf : q.trapframe = tf) (hsz : q.sz = (k.proc i).sz) (hvr : q.vr.active = false)
    (hro : q.mapRoVa = 0) (hshm : q.shmVa = 0) (husar : q.usarMemoriaCompartida = false) :
    q.Heap s ∧ ∀ v < pageCount (k.proc i).sz, view s q v = view k.phys (k.proc i) v := by
  have hplain : q.Plain s := by
    refine ⟨hshm, husar, hro, hvr, ?_⟩
    intro v w hw hv
    rw [hroot] at hw
    rw [hsz]
    obtain hlow | rfl | rfl := hmem.only v w hw
    · exact hlow
    · exact absurd hv (by decide)
    · exact absurd hv (by decide)
  have hok : q.Ok s := by
    refine ⟨?_, hsz ▸ hparent.ok.size, fun hactive => ?_⟩
    · rw [hroot, htf]
      exact hmem.space
    · rw [hvr] at hactive
      cases hactive
  refine ⟨⟨hok, hplain⟩, ?_⟩
  intro v hv
  cases hw : leaf k.phys.mem (k.proc i).pagetable v with
  | none =>
    have hw' : leaf s.mem q.pagetable v = none := hroot ▸ hmem.hole v hv hw
    rw [view_of_none hw, view_of_none hw', hplain.promised, hparent.plain.promised, hsz]
  | some w =>
    obtain ⟨m, hm, hw', hpage⟩ := hmem.copy v hv w hw
    rw [← hroot] at hw'
    have hpa := h.free.valid m hm
    rw [view_of_leaf hw, view_of_leaf hw', PTE_FLAGS_copied hw m,
      PTE2PA_mkPte hpa.1 hpa.lt_two_pow (PTE_FLAGS_lt w), hpage]

end Child

end Xv6
