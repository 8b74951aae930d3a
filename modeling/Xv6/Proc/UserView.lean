import Xv6.Proc.UserMem

/-!
# What a process sees through its page table

A page that is mapped is seen with its flags and contents. A page that is only promised, by `mapzero`
or by `sbrk`, is seen as the page fault will make it. User accesses then act on what the process sees.
-/

namespace Xv6

open Function Library Vm

/-- The contents that a page fault will give to a page which is not mapped. -/
def Proc.promised (p : Proc) (vpn : ℕ) : Option Page :=
  if p.InRegion (vpn * 4096) then some (filled regionByte)
  else if vpn * 4096 < p.sz then some (filled 0)
  else none

/-- The memory that a process sees. -/
def view (s : Phys) (p : Proc) : UserMem := fun vpn =>
  match leaf s.mem p.pagetable vpn with
  | some w => some (PTE_FLAGS w, s.mem (PTE2PA w))
  | none => (p.promised vpn).map fun page => (lazyPerm ||| PTE_V, page)

/-- The region consists of whole pages. -/
def Proc.RegionAligned (p : Proc) : Prop :=
  p.vr.active = true → p.vr.start % 4096 = 0 ∧ p.vr.limit % 4096 = 0

section Promised

variable {p : Proc} {va : ℕ}

/-- An address is in an aligned region exactly when its page is. -/
theorem Proc.RegionAligned.inRegion_iff (h : p.RegionAligned) : p.InRegion va ↔ p.InRegion (va / 4096 * 4096) := by
  rw [Proc.InRegion, Proc.InRegion]
  apply and_congr_right
  intro hactive
  obtain ⟨hstart, hlimit⟩ := h hactive
  omega

/-- What the process is promised at the page of an address in its region. -/
theorem promised_inside (h : p.RegionAligned) (hin : p.InRegion va) :
    p.promised (va / 4096) = some (filled regionByte) := by
  rw [Proc.promised, if_pos (h.inRegion_iff.1 hin)]

/-- What the process is promised at the page of an address below its size. -/
theorem promised_below (h : p.RegionAligned) (hout : ¬ p.InRegion va) (hlt : va < p.sz) :
    p.promised (va / 4096) = some (filled 0) := by
  rw [Proc.promised, if_neg (mt h.inRegion_iff.2 hout), if_pos (by omega)]

/-- A page fault delivers what was promised. -/
theorem Proc.FaultPage.promised {vpn perm : ℕ} {page : Page} (h : p.RegionAligned)
    (hf : p.FaultPage vpn perm page) : perm = lazyPerm ∧ p.promised vpn = some page := by
  obtain ⟨hperm, va, rfl, ⟨hin, rfl⟩ | ⟨hout, hlt, rfl⟩⟩ := hf
  · exact ⟨hperm, promised_inside h hin⟩
  · exact ⟨hperm, promised_below h hout hlt⟩

end Promised

section View

variable {p : Proc} {s s' : Phys} {vpn w : ℕ}

theorem view_of_leaf (h : leaf s.mem p.pagetable vpn = some w) :
    view s p vpn = some (PTE_FLAGS w, s.mem (PTE2PA w)) := by
  rw [view, h]

theorem view_of_none (h : leaf s.mem p.pagetable vpn = none) :
    view s p vpn = (p.promised vpn).map fun page => (lazyPerm ||| PTE_V, page) := by
  rw [view, h]

/-- Permissions are read from the flags of an entry. -/
theorem access_of_leaf {va k : ℕ} (hk : k < 10) (h : leaf s.mem p.pagetable (va / 4096) = some w) :
    (view s p).access va (2 ^ k) =
      if hasFlag w PTE_U && hasFlag w (2 ^ k) then some (s.mem (PTE2PA w)) else none := by
  rw [UserMem.access, view_of_leaf h, Option.bind_some]
  change (if hasFlag (PTE_FLAGS w) (2 ^ 4) && hasFlag (PTE_FLAGS w) (2 ^ k) then _ else _) = _
  rw [hasFlag_PTE_FLAGS w (k := 4) (by decide), hasFlag_PTE_FLAGS w hk]
  rfl

/-- The kernel needs the user flag only. -/
theorem access_user_of_leaf {va : ℕ} (h : leaf s.mem p.pagetable (va / 4096) = some w) :
    (view s p).access va PTE_U = if hasFlag w PTE_U then some (s.mem (PTE2PA w)) else none := by
  have haccess := access_of_leaf (k := 4) (by decide) h
  change _ = if (hasFlag w PTE_U && hasFlag w PTE_U) = true then _ else _ at haccess
  rw [Bool.and_self] at haccess
  exact haccess

variable [KernelImage]

/-- Filling a hole with what was promised is invisible. -/
theorem Vm.Filled.view_eq {allowed : ℕ → ℕ → Page → Prop} (hf : Filled p.pagetable allowed s s')
    (h : SpaceIn s p.pagetable)
    (hallowed : ∀ v perm page, leaf s.mem p.pagetable v = none → allowed v perm page →
      perm = lazyPerm ∧ p.promised v = some page) : view s' p = view s p := by
  funext v
  cases hold : leaf s.mem p.pagetable v with
  | some w =>
    rw [view_of_leaf hold, view_of_leaf (hf.old v w hold), hf.mem_eq h hold]
  | none =>
    rw [view_of_none hold]
    cases hnew : leaf s'.mem p.pagetable v with
    | none => rw [view_of_none hnew]
    | some w =>
      obtain ⟨m, perm, hm, hperm, rfl, hpage⟩ := hf.new v w hold hnew
      have hvalid := h.free.valid m hm
      obtain ⟨rfl, hpromised⟩ := hallowed v perm _ hold hpage
      rw [view_of_leaf hnew, hpromised, PTE_FLAGS_mkPte hperm, PTE2PA_mkPte hvalid.1 hvalid.lt_two_pow hperm]
      rfl

/-- Writing a mapped page changes what the process sees there and nowhere else. -/
theorem view_setPage (h : SpaceIn s p.pagetable) (hw : leaf s.mem p.pagetable vpn = some w) (page : Page) :
    view (s.setPage (PTE2PA w) page) p =
      update (view s p) vpn (some (PTE_FLAGS w, page)) := by
  have hleaf : ∀ v, leaf (s.setPage (PTE2PA w) page).mem p.pagetable v = leaf s.mem p.pagetable v := by
    apply leaf_congr
    intro t ht
    apply setPage_mem_of_ne
    intro heq
    exact (h.mapped_out hw).1 (heq ▸ ht)
  funext v
  by_cases hv : v = vpn
  · rw [hv, update_self, view_of_leaf ((hleaf vpn).trans hw), setPage_mem_self]
  · rw [update_of_ne hv]
    cases hold : leaf s.mem p.pagetable v with
    | none => rw [view_of_none hold, view_of_none ((hleaf v).trans hold)]
    | some w' =>
      have hne : PTE2PA w' ≠ PTE2PA w := fun heq => hv (h.space.inj v vpn w' w hold hw heq)
      rw [view_of_leaf hold, view_of_leaf ((hleaf v).trans hold), setPage_mem_of_ne s hne]

end View

end Xv6
