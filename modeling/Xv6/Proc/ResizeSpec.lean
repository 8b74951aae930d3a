import Xv6.Proc.AccessSpec

/-!
# What `sbrk`, `mapzero` and `map_ro` do

A growing `sbrk` only moves the size. A shrinking one removes the pages above the new size. `mapzero`
moves the size without looking at the trapframe, and keeps the size of its region in 32 bits. `map_ro`
adds one leaf, wherever the caller asks for it.
-/

namespace Xv6

open Library Vm

/-- The result of `sbrk` and the new size. -/
def sbrkTo (sz : ℕ) (n : ℤ) : ℕ × ℕ :=
  if 0 < n then
    if TRAPFRAME < sz + n.natAbs then (minusOne, sz) else (sz, sz + n.natAbs)
  else if n.natAbs ≤ sz then (sz, sz - n.natAbs)
  else (sz, sz)

section Arithmetic

variable {sz : ℕ} {n : ℤ}

theorem sbrkTo_le (h : sz ≤ TRAPFRAME) : (sbrkTo sz n).2 ≤ TRAPFRAME := by
  rw [sbrkTo]
  split_ifs with h1 h2 h3
  · exact h
  · exact not_lt.1 h2
  · exact (Nat.sub_le _ _).trans h
  · exact h

theorem sbrkTo_neg_le (hn : n < 0) : (sbrkTo sz n).2 ≤ sz := by
  rw [sbrkTo, if_neg (by omega)]
  split_ifs
  · exact Nat.sub_le _ _
  · exact le_refl _

theorem sbrkTo_nonneg_le (hn : 0 ≤ n) : sz ≤ (sbrkTo sz n).2 := by
  rw [sbrkTo]
  split_ifs with h1 h2 h3
  · exact le_refl _
  · exact Nat.le_add_right _ _
  · have hzero : n = 0 := by omega
    rw [hzero]
    exact le_refl _
  · exact le_refl _

/-- The 64-bit sum of a size and a positive number of bytes does not wrap around. -/
theorem toUInt64_add_pos (hsz : sz ≤ TRAPFRAME) (hpos : 0 < n) (hn : n.natAbs ≤ 2 ^ 31) :
    toUInt64 (sz + n) = sz + n.natAbs := by
  have hle : sz ≤ 2 ^ 38 - 4096 - 4096 := hsz
  rw [toUInt64]
  omega

/-- The 64-bit sum of a size and a negative number of bytes wraps around if there are not so many. -/
theorem min_toUInt64_add_neg (hsz : sz ≤ TRAPFRAME) (hneg : n < 0) (hn : n.natAbs ≤ 2 ^ 31) :
    min sz (toUInt64 (sz + n)) = (sbrkTo sz n).2 := by
  have hle : sz ≤ 2 ^ 38 - 4096 - 4096 := hsz
  rw [sbrkTo, if_neg (by omega), toUInt64]
  split_ifs with h <;> omega

theorem pageCount_mono {a b : ℕ} (h : a ≤ b) : pageCount a ≤ pageCount b := by
  rw [pageCount, pageCount]
  omega

/-- The number of bytes that `mapzero` reserves for a size. -/
theorem PGROUNDUP_toUInt64 (hpos : 0 < n) (hn : n.natAbs ≤ 2 ^ 31) :
    PGROUNDUP (toUInt64 n) = pageCount n.natAbs * 4096 := by
  have hn' : toUInt64 n = n.natAbs := by
    rw [toUInt64]
    omega
  rw [hn', PGROUNDUP_eq (by omega)]

/-- The end of the region that `mapzero` records for a number of pages: a region of `2 ^ 31` bytes
has become one of `-2 ^ 31` bytes. -/
theorem limit_mapzero {pages : ℕ} (hsz : sz ≤ TRAPFRAME) (hpages : pages ≤ 2 ^ 19) :
    VRegion.limit ⟨sz, toInt32 (pages * 4096), true⟩ =
      if pages < 2 ^ 19 then sz + pages * 4096
      else if 2 ^ 31 ≤ sz then sz - 2 ^ 31 else sz + (2 ^ 64 - 2 ^ 31) := by
  have hsz' : sz ≤ 2 ^ 38 - 4096 - 4096 := hsz
  change (sz + toUInt64 (toInt32 (pages * 4096))) % 2 ^ 64 = _
  split_ifs with hlt hle
  · rw [toUInt64_toInt32 (by omega)]
    omega
  · obtain rfl : pages = 2 ^ 19 := by omega
    have hwrap : toUInt64 (toInt32 (2 ^ 19 * 4096)) = 2 ^ 64 - 2 ^ 31 := by decide
    rw [hwrap]
    omega
  · obtain rfl : pages = 2 ^ 19 := by omega
    have hwrap : toUInt64 (toInt32 (2 ^ 19 * 4096)) = 2 ^ 64 - 2 ^ 31 := by decide
    rw [hwrap]
    omega

end Arithmetic

section Mapzero

variable {p : Proc} {n : ℤ}

/-- The new end of the process stays below the trapframe, and the region is one that 32 bits can
hold; the longest region is harmless only above as many bytes, where it is empty. -/
def Proc.MapzeroFits (p : Proc) (n : ℤ) : Prop :=
  0 < n → p.sz + pageCount n.natAbs * 4096 ≤ TRAPFRAME ∧ (n ≤ 2 ^ 31 - 4096 ∨ 2 ^ 31 ≤ p.sz)

theorem sysMapzero_nonpos (hn : n ≤ 0) : sysMapzero p n = (minusOne, p) := by
  rw [sysMapzero, if_pos hn]

/-- `mapzero` when the new size fits. -/
theorem sysMapzero_pos (hpos : 0 < n) (hn : n.natAbs ≤ 2 ^ 31)
    (hsz : p.sz + pageCount n.natAbs * 4096 ≤ TRAPFRAME) :
    sysMapzero p n = (p.sz, { p with
      vr := ⟨p.sz, toInt32 (pageCount n.natAbs * 4096), true⟩
      sz := p.sz + pageCount n.natAbs * 4096 }) := by
  have hsz' : p.sz + pageCount n.natAbs * 4096 ≤ 2 ^ 38 - 4096 - 4096 := hsz
  have hmod : (p.sz + pageCount n.natAbs * 4096) % UINT64 = p.sz + pageCount n.natAbs * 4096 := by
    apply Nat.mod_eq_of_lt
    change _ < 2 ^ 64
    omega
  rw [sysMapzero, if_neg (not_le.2 hpos), PGROUNDUP_toUInt64 hpos hn]
  simp only [hmod]

/-- The region of a `mapzero` that fits ends where the process ends, or it is empty. -/
theorem Proc.MapzeroFits.limit (hfits : p.MapzeroFits n) (hpos : 0 < n) (hn : n < 2 ^ 31) :
    VRegion.limit ⟨p.sz, toInt32 (pageCount n.natAbs * 4096), true⟩ =
        p.sz + pageCount n.natAbs * 4096 ∨
      VRegion.limit ⟨p.sz, toInt32 (pageCount n.natAbs * 4096), true⟩ ≤ p.sz := by
  obtain ⟨hsz, hcase⟩ := hfits hpos
  have hsz' : p.sz + pageCount n.natAbs * 4096 ≤ 2 ^ 38 - 4096 - 4096 := hsz
  have hpages : pageCount n.natAbs ≤ 2 ^ 19 := by
    rw [pageCount]
    omega
  rw [limit_mapzero (show p.sz ≤ 2 ^ 38 - 4096 - 4096 by omega) hpages]
  split_ifs with hlt hle
  · exact .inl rfl
  · right
    omega
  · exfalso
    rw [pageCount] at hlt
    omega

end Mapzero

variable [KernelImage] {p : Proc} {s : Phys} {n : ℤ}

/-- Shrinking does the same whether the new size is given as such or after a wrap around. -/
theorem Vm.Dealloced.congr {root oldsz newsz newsz' r r' : ℕ} {s' : Phys} (h : Dealloced root oldsz newsz s r s')
    (heq : min oldsz newsz = newsz') (hr : r' = newsz') : Dealloced root oldsz newsz' s r' s' := by
  by_cases hle : newsz ≤ oldsz
  · obtain rfl : newsz = newsz' := by omega
    exact ⟨by omega, h.step, h.leaf_eq, h.same, h.freelist, h.tables_eq, h.exhausted⟩
  · obtain rfl : oldsz = newsz' := by omega
    have hempty : pageCount oldsz - pageCount newsz = 0 := by
      rw [pageCount, pageCount]
      omega
    have hnone : ∀ size, pageCount oldsz - pageCount size = 0 →
        removed (leaf s.mem root) size oldsz = leaf s.mem root ∧
          freedPages true (leaf s.mem root) (pageCount size) (pageCount oldsz - pageCount size) = [] := by
      intro size hsize
      rw [removed, hsize, without_zero]
      exact ⟨rfl, rfl⟩
    obtain ⟨hrem, hfreed⟩ := hnone newsz hempty
    obtain ⟨hrem', hfreed'⟩ := hnone oldsz (Nat.sub_self _)
    refine ⟨by omega, h.step, ?_, ?_, ?_, h.tables_eq, h.exhausted⟩
    · intro vpn
      rw [h.leaf_eq, hrem, hrem']
    · intro x hx _
      refine h.same x hx fun vpn w h1 h2 => ?_
      omega
    · rw [h.freelist, hfreed, hfreed']

/-- `growproc` with a negative number of bytes. -/
theorem growproc_neg (h : p.Ok s) (hn : n.natAbs ≤ 2 ^ 31) (hneg : n < 0) :
    Ensures (growproc p n) s fun r s' => r = (0, { p with sz := (sbrkTo p.sz n).2 }) ∧
      Dealloced p.pagetable p.sz (sbrkTo p.sz n).2 s (sbrkTo p.sz n).2 s' := by
  rw [growproc, if_neg (by omega), if_pos hneg, ensures_bind]
  have hmin := min_toUInt64_add_neg h.size hneg hn
  refine (uvmdealloc_spec h.space h.size).mono ?_
  intro r s' hd
  rw [ensures_pure]
  have hr : r = (sbrkTo p.sz n).2 := hd.result.trans hmin
  exact ⟨by rw [hr], hd.congr hmin rfl⟩

/-- `sbrk` moves the size, and removes pages if the size shrinks. -/
theorem sysSbrk_spec (h : p.Ok s) (hn : n.natAbs ≤ 2 ^ 31) :
    Ensures (sysSbrk p n) s fun r s' =>
      r = ((sbrkTo p.sz n).1, { p with sz := (sbrkTo p.sz n).2 }) ∧ (0 ≤ n → s' = s) ∧
      (n < 0 → Dealloced p.pagetable p.sz (sbrkTo p.sz n).2 s (sbrkTo p.sz n).2 s') := by
  have hle : p.sz ≤ 2 ^ 38 - 4096 - 4096 := h.size
  rw [sysSbrk]
  dsimp only
  by_cases hpos : 0 < n
  · rw [if_pos hpos, toUInt64_add_pos h.size hpos hn, sbrkTo, if_pos hpos]
    by_cases hbig : TRAPFRAME < p.sz + n.natAbs
    · rw [if_pos (.inr hbig), if_pos hbig, ensures_pure]
      exact ⟨rfl, fun _ => rfl, fun hneg => absurd hneg (by omega)⟩
    · rw [if_neg (not_or.2 ⟨by omega, hbig⟩), if_neg hbig, ensures_pure]
      exact ⟨rfl, fun _ => rfl, fun hneg => absurd hneg (by omega)⟩
  · rw [if_neg hpos]
    by_cases hneg : n < 0
    · rw [if_pos hneg, ensures_bind]
      refine (growproc_neg h hn hneg).mono ?_
      intro r s' hr
      obtain ⟨rfl, hd⟩ := hr
      change Ensures (if (0 : ℤ) < 0 then _ else _) s' _
      rw [if_neg (lt_irrefl 0), ensures_pure]
      refine ⟨?_, fun hge => absurd hneg (by omega), fun _ => hd⟩
      have hfst : (sbrkTo p.sz n).1 = p.sz := by
        rw [sbrkTo, if_neg hpos]
        split_ifs <;> rfl
      rw [hfst]
    · have hzero : n = 0 := by omega
      rw [if_neg hneg, ensures_pure, hzero]
      exact ⟨rfl, fun _ => rfl, fun h0 => absurd h0 (by decide)⟩

/-- `map_ro` fails, or it adds the leaf that it was asked for. -/
theorem sysMapRo_allows {addr : ℕ} (h : p.Ok s) :
    Allows (sysMapRo p addr) s fun r s' =>
      (r = (minusOne, p) ∧ LeafGrowth p.pagetable (fun _ _ => False) s s') ∨
      (r = (0, { p with mapRoVa := PGROUNDDOWN addr }) ∧ addr / 4096 < tfVpn ∧
        leaf s.mem p.pagetable (addr / 4096) = none ∧
        LeafGrowth p.pagetable (fun v perm => v = addr / 4096 ∧ perm = PTE_R ||| PTE_U) s s') := by
  obtain ⟨haligned, hdiv⟩ := PGROUNDDOWN_facts addr
  rw [sysMapRo, allows_bind]
  by_cases hmax : PGROUNDDOWN addr < MAXVA
  · refine (ismapped_translation p.pagetable s hmax).allows.mono ?_
    intro b s₁ hb
    obtain ⟨rfl, hb⟩ := hb
    rw [translation_eq, Option.isSome_map, hdiv] at hb
    cases hw : leaf s₁.mem p.pagetable (addr / 4096) with
    | some w =>
      rw [hb, hw, Option.isSome_some, if_pos rfl, allows_pure]
      exact .inl ⟨rfl, LeafGrowth.refl h.space.within⟩
    | none =>
      rw [hb, hw, Option.isSome_none, if_neg Bool.false_ne_true, allows_bind]
      have hlow : addr / 4096 < tfVpn := by
        have hlt : PGROUNDDOWN addr < 2 ^ 38 := hmax
        have h1 : addr / 4096 ≠ 67108863 := by
          intro heq
          rw [show addr / 4096 = trampVpn from heq, h.space.tramp] at hw
          cases hw
        have h2 : addr / 4096 ≠ 67108862 := by
          intro heq
          rw [show addr / 4096 = tfVpn from heq, h.space.tfLeaf] at hw
          cases hw
        change addr / 4096 < 67108862
        omega
      refine (allocMap_spec h.space.within haligned hmax (hdiv.symm ▸ hw) (by decide) (by decide)).allows.mono ?_
      intro r s' hm
      rw [hdiv] at hm
      cases r with
      | none =>
        obtain ⟨hsame, -⟩ := hm.failed rfl
        have hfilled : Filled p.pagetable (fun _ _ _ => False) s₁ s' := Filled.of_same hm.quiet hsame
        exact (allows_pure _ _ _).2 (.inl ⟨rfl, hfilled.leafGrowth h.space.within fun _ _ _ hf => hf⟩)
      | some m =>
        refine (allows_pure _ _ _).2 (.inr ⟨rfl, hlow, rfl, ?_⟩)
        have hfilled : Filled p.pagetable
            (fun v perm _ => v = addr / 4096 ∧ perm = PTE_R ||| PTE_U) s₁ s' :=
          hm.filled (by decide) hw fun _ _ => ⟨rfl, rfl⟩
        exact hfilled.leafGrowth h.space.within fun _ _ _ hf => hf
  · refine allows_of_error (e := .walk) ?_ _
    rw [ismapped]
    exact bind_error (walk_panic (not_lt.1 hmax) _ _ _)

end Xv6
