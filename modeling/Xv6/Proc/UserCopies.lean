import Xv6.Proc.ExecSafety

/-!
# Copies to and from user memory, byte by byte

The bytes of a process are those of the pages that are mapped for it with the user flag. `copyout` writes a
prefix of its source and nothing else that the process had; the pages that it maps on the way are cleared.
`copyin` writes nothing and returns the bytes that are there.
-/

namespace Xv6

open Library List Option Vm

/-- The byte of a process at an address, if there is a page for it. -/
def userByte (s : Phys) (root va : ℕ) : Option UInt8 :=
  (leaf s.mem root (va / 4096)).bind fun w =>
    if hasFlag w PTE_U then some ((s.mem (PTE2PA w)).at (va % 4096)) else none

/-- Outside a set of addresses the bytes of a process are as before, and those that are new are zero. -/
structure BytesKept (root : ℕ) (s s' : Phys) (written : ℕ → Prop) : Prop where
  same : ∀ va b, ¬ written va → userByte s root va = some b → userByte s' root va = some b
  zero : ∀ va b, ¬ written va → userByte s root va = none → userByte s' root va = some b → b = 0

/-- A physical page that is mapped for the user with permission to write. -/
def UserWritable (s : Phys) (root x : ℕ) : Prop :=
  ∃ v w, leaf s.mem root v = some w ∧ PTE2PA w = x ∧ hasFlag w PTE_U = true ∧ hasFlag w PTE_W = true

section Bytes

variable {root va : ℕ} {s s₁ s' : Phys} {written written' : ℕ → Prop}

theorem userByte_of_leaf {w : ℕ} (hw : leaf s.mem root (va / 4096) = some w) (hU : hasFlag w PTE_U = true) :
    userByte s root va = some ((s.mem (PTE2PA w)).at (va % 4096)) := by
  rw [userByte, hw, bind_some, if_pos hU]

theorem userByte_eq_some {b : UInt8} (h : userByte s root va = some b) : ∃ w,
    leaf s.mem root (va / 4096) = some w ∧ hasFlag w PTE_U = true ∧
      b = (s.mem (PTE2PA w)).at (va % 4096) := by
  obtain ⟨w, hw, hb⟩ := bind_eq_some_iff.1 h
  by_cases hU : hasFlag w PTE_U = true
  · rw [if_pos hU] at hb
    exact ⟨w, hw, hU, (Option.some.inj hb).symm⟩
  · exact none_elim (if_neg hU) hb

theorem BytesKept.refl : BytesKept root s s written where
  same _ _ _ h := h
  zero va b _ hnone h := by
    exact none_elim hnone h

theorem BytesKept.trans (h : BytesKept root s s₁ written) (h' : BytesKept root s₁ s' written') :
    BytesKept root s s' fun va => written va ∨ written' va where
  same va b hout hb := by
    rw [not_or] at hout
    exact h'.same va b hout.2 (h.same va b hout.1 hb)
  zero va b hout hnone hb := by
    rw [not_or] at hout
    cases hmid : userByte s₁ root va with
    | none => exact h'.zero va b hout.2 hmid hb
    | some c =>
      rw [h'.same va c hout.2 hmid] at hb
      rw [← Option.some.inj hb]
      exact h.zero va c hout.1 hnone hmid

theorem BytesKept.mono (h : BytesKept root s s' written) (hle : ∀ va, written va → written' va) :
    BytesKept root s s' written' where
  same va b hout := h.same va b fun hw => hout (hle va hw)
  zero va b hout := h.zero va b fun hw => hout (hle va hw)

end Bytes

section Steps

variable [KernelImage] {p : Proc} {s s' : Phys} {va len : ℕ}

/-- Filling holes with cleared pages keeps every byte. -/
theorem Vm.Filled.bytesKept {len : ℕ} (hf : Filled p.pagetable (p.CopyPage va len) s s')
    (h : SpaceIn s p.pagetable) : BytesKept p.pagetable s s' fun _ => False where
  same a b _ hb := by
    obtain ⟨w, hw, hU, rfl⟩ := userByte_eq_some hb
    rw [userByte_of_leaf (hf.old _ w hw) hU, hf.mem_eq h hw]
  zero a b _ hnone hb := by
    obtain ⟨w, hw, hU, rfl⟩ := userByte_eq_some hb
    cases hold : leaf s.mem p.pagetable (a / 4096) with
    | some w' =>
      have hsame := hf.old _ w' hold
      rw [hw] at hsame
      rw [Option.some.inj hsame] at hU
      exact none_elim hnone (userByte_of_leaf hold hU)
    | none =>
      obtain ⟨m, perm, hm, hperm, rfl, -, -, -, -, hzero⟩ := hf.new _ w hold hw
      have hpage := h.free.valid m hm
      rw [PTE2PA_mkPte hpage.1 hpage.lt_two_pow hperm, hzero, Bytes.at_of_lt _ (Nat.mod_lt _ (by decide)), filled]

/-- The leaves of an address space do not depend on the contents of a mapped page. -/
theorem leaf_setPage {w v : ℕ} (h : SpaceIn s p.pagetable) (hw : leaf s.mem p.pagetable v = some w) (page : Page)
    (v' : ℕ) : leaf (s.setPage (PTE2PA w) page).mem p.pagetable v' = leaf s.mem p.pagetable v' := by
  apply leaf_congr
  intro t ht
  apply setPage_mem_of_ne
  intro heq
  exact (h.mapped_out hw).1 (heq ▸ ht)

section Write

variable {w n : ℕ} {bytes : List UInt8} (h : SpaceIn s p.pagetable)
  (hw : leaf s.mem p.pagetable (va / 4096) = some w) (hlen : bytes.length = n)
  (hend : va % 4096 + n ≤ 4096)

include h hw hlen hend

/-- The bytes after a part of a mapped page has been written. -/
theorem userByte_write (a : ℕ) :
    userByte (s.setPage (PTE2PA w) (writeBytes (s.mem (PTE2PA w)) (va % 4096) bytes)) p.pagetable a =
      if va ≤ a ∧ a < va + n then (if hasFlag w PTE_U then bytes[a - va]? else none)
      else userByte s p.pagetable a := by
  rw [userByte, userByte, leaf_setPage h hw]
  by_cases hpage : a / 4096 = va / 4096
  · have hat := at_writeBytes (s.mem (PTE2PA w)) (va % 4096) bytes (Nat.mod_lt a (show 4096 > 0 by decide))
    rw [hpage, hw, bind_some, bind_some, setPage_mem_self, hat]
    by_cases hin : va ≤ a ∧ a < va + n
    · have hidx : a - va < bytes.length := by omega
      have hoff : va % 4096 ≤ a % 4096 ∧ a % 4096 < va % 4096 + bytes.length := by omega
      have hsub : a % 4096 - va % 4096 = a - va := by omega
      rw [if_pos hin, if_pos hoff, hsub, getElem?_eq_getElem hidx, getD_eq_getElem _ _ hidx]
    · have hoff : ¬ (va % 4096 ≤ a % 4096 ∧ a % 4096 < va % 4096 + bytes.length) := by omega
      rw [if_neg hin, if_neg hoff]
  · rw [if_neg (by omega)]
    cases ha : leaf s.mem p.pagetable (a / 4096) with
    | none => rw [bind_none, bind_none]
    | some w' =>
      have hne : PTE2PA w' ≠ PTE2PA w := fun heq => hpage (h.space.inj _ _ w' w ha hw heq)
      rw [bind_some, bind_some, setPage_mem_of_ne s hne]

/-- Writing a part of a mapped page keeps the bytes outside it. -/
theorem bytesKept_write : BytesKept p.pagetable s
    (s.setPage (PTE2PA w) (writeBytes (s.mem (PTE2PA w)) (va % 4096) bytes))
      fun a => va ≤ a ∧ a < va + n where
  same a b hout hb := by rwa [userByte_write h hw hlen hend, if_neg hout]
  zero a b hout hnone hb := by
    rw [userByte_write h hw hlen hend, if_neg hout, hnone] at hb
    cases hb

end Write

/-- A changed page after a hole was filled is a table, a page that the user may write, or a last page
that went back. -/
theorem Vm.Filled.changed {failed : Prop} (h : SpaceIn s p.pagetable)
    (hf : Filled p.pagetable (p.CopyPage va len) s s') (hsteady : Steady p.pagetable s s' failed) {x : ℕ}
    (hx : s'.mem x ≠ s.mem x) : UserWritable s' p.pagetable x ∨ x ∈ tables s'.mem p.pagetable ∨
      (failed ∧ s'.freelist = [x]) := by
  by_cases ht : x ∈ tables s.mem p.pagetable
  · exact .inr (.inl (hsteady.tables x ht))
  have hfree : x ∈ s.freelist := by
    by_contra hout
    exact hx (hf.quiet.same x ht hout)
  have hres : x ∈ resources s' p.pagetable := by
    rw [hf.quiet.step.conserve]
    exact ⟨h.free.valid x hfree, .inr hfree⟩
  obtain ⟨-, hreach | hfree'⟩ := hres
  · obtain htable | ⟨v, w, hw, rfl⟩ := mem_reach_three.1 hreach
    · exact .inr (.inl htable)
    · refine .inl ⟨v, w, hw, rfl, ?_⟩
      cases hold : leaf s.mem p.pagetable v with
      | some w' =>
        have hsame := hf.old v w' hold
        rw [hw] at hsame
        rw [Option.some.inj hsame] at hfree
        exact absurd hfree (h.mapped_out hold).2
      | none =>
        obtain ⟨m, perm, -, -, rfl, -, -, rfl, -⟩ := hf.new v w hold hw
        exact ⟨hasFlag_mkPte (by decide), hasFlag_mkPte (by decide)⟩
  · exact .inr (.inr ((hsteady.free x hfree').resolve_left hx))

/-- The page of an address is found without disturbing anything else. -/
theorem userPage_steady {va0 : ℕ} (h : ProcSpace s p.pagetable p.trapframe) (hsz : p.sz ≤ TRAPFRAME) :
    Ensures (userPage p p.pagetable va0) s fun r s' => Steady p.pagetable s s' (r = 0) := by
  rw [userPage, ensures_bind]
  refine (walkaddr_translation p.pagetable s va0).mono ?_
  intro r s₁ hr
  obtain ⟨rfl, -⟩ := hr
  by_cases hzero : r = 0
  · rw [if_pos hzero]
    exact vmfault_steady h hsz
  · rw [if_neg hzero, ensures_pure]
    exact Steady.refl

/-- Writing a mapped page is steady. -/
theorem steady_write {w v : ℕ} (h : SpaceIn s p.pagetable) (hw : leaf s.mem p.pagetable v = some w)
    (page : Page) : Steady p.pagetable s (s.setPage (PTE2PA w) page) False := by
  obtain ⟨htable, hfree⟩ := h.mapped_out hw
  have hother : ∀ x, x ≠ PTE2PA w → (s.setPage (PTE2PA w) page).mem x = s.mem x :=
    fun x hne => setPage_mem_of_ne s hne page
  refine ⟨fun x hx => ?_, fun _ hx => hx, fun x hx => .inl (hother x fun heq => hfree (heq ▸ hx))⟩
  rwa [tables_congr fun t ht => hother t fun heq => htable (heq ▸ ht)]

end Steps

section Copyout

variable [KernelImage] {p : Proc} {va n : ℕ} {s s₁ s' : Phys} {src : List UInt8} {r : ℤ}

/-- What a copy to a process has done: it has written a prefix of the bytes, the whole if it says so, and
no page but those that the user may write, the tables of the process and a last page that it had
allocated and could not map. -/
structure CopyoutDone (root va : ℕ) (src : List UInt8) (s : Phys) (r : ℤ) (s' : Phys) : Prop where
  result : r = 0 ∨ r = -1
  written : ∃ n ≤ src.length, (r = 0 → n = src.length) ∧
    (∀ i < n, userByte s' root (va + i) = src[i]?) ∧
    BytesKept root s s' fun a => va ≤ a ∧ a < va + n
  changed : ∀ x, s'.mem x ≠ s.mem x →
    UserWritable s' root x ∨ x ∈ tables s'.mem root ∨ (r = -1 ∧ s'.freelist = [x])

/-- One round of a copy to a process: some bytes within one page. -/
structure CopyoutRound (p : Proc) (va : ℕ) (bytes : List UInt8) (s s₁ : Phys) : Prop where
  growth : LeafGrowth p.pagetable p.CopyVpn s s₁
  steady : Steady p.pagetable s s₁ False
  written : ∀ i < bytes.length, userByte s₁ p.pagetable (va + i) = bytes[i]?
  kept : BytesKept p.pagetable s s₁ fun a => va ≤ a ∧ a < va + bytes.length
  changed : ∀ x, s₁.mem x ≠ s.mem x → UserWritable s₁ p.pagetable x ∨ x ∈ tables s₁.mem p.pagetable

/-- Pages that the user may write stay so. -/
theorem UserWritable.of_growth {x : ℕ} {allowed : ℕ → ℕ → Prop} {root : ℕ} (h : UserWritable s root x)
    (hg : LeafGrowth root allowed s s') : UserWritable s' root x := by
  obtain ⟨v, w, hw, hrest⟩ := h
  exact ⟨v, w, hg.old v w hw, hrest⟩

/-- The page of the first byte has been found and written. -/
theorem copyoutRound {w : ℕ} (bytes : List UInt8) (h : ProcSpace s p.pagetable p.trapframe)
    (hfound : PageFound p (PGROUNDDOWN va) s (PTE2PA w) s₁) (hsteady : Steady p.pagetable s s₁ (PTE2PA w = 0))
    (hpa : PTE2PA w ≠ 0) (hw : leaf s₁.mem p.pagetable (va / 4096) = some w) (hU : hasFlag w PTE_U = true)
    (hW : hasFlag w PTE_W = true) (hend : va % 4096 + bytes.length ≤ 4096) :
    CopyoutRound p va bytes s
      (s₁.setPage (PTE2PA w) (writeBytes (s₁.mem (PTE2PA w)) (va % 4096) bytes)) := by
  have hspace := hfound.filled.procSpace h
  have hin := hspace.within
  have hsteady₁ := hsteady.mono hpa
  have hwrite : LeafGrowth p.pagetable p.CopyVpn s₁
      (s₁.setPage (PTE2PA w) (writeBytes (s₁.mem (PTE2PA w)) (va % 4096) bytes)) :=
    leafGrowth_write hin hw (hspace.pageAddress_of_user hw hU) _
  refine ⟨(hfound.leafGrowth h.within).trans hwrite, hsteady₁.trans (steady_write hin hw _), ?_, ?_, ?_⟩
  · intro i hi
    rw [userByte_write hin hw rfl hend, if_pos ⟨Nat.le_add_right va i, by omega⟩, if_pos hU, Nat.add_sub_cancel_left]
  · exact ((hfound.filled.bytesKept h.within).trans (bytesKept_write hin hw rfl hend)).mono
      fun a ha => ha.resolve_left id
  · intro x hx
    by_cases hself : x = PTE2PA w
    · refine .inl ⟨va / 4096, w, ?_, hself.symm, hU, hW⟩
      rwa [leaf_setPage hin hw]
    · rw [setPage_mem_of_ne _ hself] at hx
      obtain huser | htable | ⟨hfalse, -⟩ := hfound.filled.changed h.within hsteady₁ hx
      · exact .inl (huser.of_growth hwrite)
      · exact .inr ((steady_write hin hw _).tables x htable)
      · exact hfalse.elim

omit [KernelImage] in
/-- A copy stops before its first byte. -/
theorem CopyoutDone.stop (hr : r = -1)
    (hkept : BytesKept p.pagetable s s' fun _ => False)
    (hchanged : ∀ x, s'.mem x ≠ s.mem x → UserWritable s' p.pagetable x ∨ x ∈ tables s'.mem p.pagetable ∨
      (r = -1 ∧ s'.freelist = [x])) : CopyoutDone p.pagetable va src s r s' where
  result := .inr hr
  written := by
    refine ⟨0, Nat.zero_le _, fun h0 => ?_, fun i hi => absurd hi (Nat.not_lt_zero i), hkept.mono fun _ hf => hf.elim⟩
    rw [hr] at h0
    cases h0
  changed := hchanged

/-- A round and the rest of a copy. -/
theorem CopyoutRound.done (h : CopyoutRound p va (src.take n) s s₁) (hn : n ≤ src.length)
    (hgrowth : LeafGrowth p.pagetable p.CopyVpn s₁ s') (hsteady : Steady p.pagetable s₁ s' (r = -1))
    (hrest : CopyoutDone p.pagetable (va + n) (src.drop n) s₁ r s') : CopyoutDone p.pagetable va src s r s' := by
  have hlen : (src.take n).length = n := by rw [length_take, min_eq_left hn]
  obtain ⟨m, hm, hall, hbytes, hkept⟩ := hrest.written
  rw [length_drop] at hm hall
  refine ⟨hrest.result, ⟨n + m, by omega, fun hr => by have := hall hr; omega, ?_, ?_⟩, ?_⟩
  · intro i hi
    by_cases hfirst : i < n
    · have hold := h.written i (by rwa [hlen])
      rw [getElem?_take_of_lt hfirst, getElem?_eq_getElem (by omega)] at hold
      rw [getElem?_eq_getElem (by omega)]
      exact hkept.same _ _ (by omega) hold
    · have hnew := hbytes (i - n) (by omega)
      rwa [getElem?_drop, show va + n + (i - n) = va + i by omega, show n + (i - n) = i by omega] at hnew
  · refine (h.kept.trans hkept).mono ?_
    intro a ha
    rw [hlen] at ha
    omega
  · intro x hx
    by_cases hx₁ : s₁.mem x = s.mem x
    · exact hrest.changed x (by rwa [hx₁])
    · obtain huser | htable := h.changed x hx₁
      · exact .inl (huser.of_growth hgrowth)
      · exact .inr (.inl (hsteady.tables x htable))

/-- The whole loop of `copyout`. -/
theorem copyout_done (src : List UInt8) (va : ℕ) (s : Phys) (h : ProcSpace s p.pagetable p.trapframe)
    (hsz : p.sz ≤ TRAPFRAME) :
    Ensures (copyout p p.pagetable va src) s fun r s' => LeafGrowth p.pagetable p.CopyVpn s s' ∧
      Steady p.pagetable s s' (r = -1) ∧ CopyoutDone p.pagetable va src s r s' := by
  induction hlength : src.length using Nat.strong_induction_on generalizing src va s with
  | h len ih =>
    have hrefl : LeafGrowth p.pagetable p.CopyVpn s s := LeafGrowth.refl h.within
    by_cases hlen : src.length = 0
    · rw [Xv6.Vm.copyout, dif_pos hlen, ensures_pure]
      exact ⟨hrefl, Steady.refl, .inl rfl,
        ⟨0, Nat.zero_le _, fun _ => hlen.symm, fun i hi => absurd hi (Nat.not_lt_zero i), BytesKept.refl⟩,
        fun x hx => absurd rfl hx⟩
    -- without a page that can be written the copy stops
    have hstop : ∀ {pa s₁}, PageFound p (PGROUNDDOWN va) s pa s₁ ∧ Steady p.pagetable s s₁ (pa = 0) →
        LeafGrowth p.pagetable p.CopyVpn s s₁ ∧ Steady p.pagetable s s₁ ((-1 : ℤ) = -1) ∧
          CopyoutDone p.pagetable va src s (-1) s₁ := by
      rintro pa s₁ ⟨hfound, hsteady⟩
      have hfailed : Steady p.pagetable s s₁ ((-1 : ℤ) = -1) := hsteady.mono fun _ => rfl
      exact ⟨hfound.leafGrowth h.within, hfailed, CopyoutDone.stop rfl (hfound.filled.bytesKept h.within)
        fun x => hfound.filled.changed h.within hfailed⟩
    refine copyout_round ((userPage_spec h hsz (chunk_facts va).2.1).and (userPage_steady h hsz)) hlen
      (fun pa s₁ hp => hp.1.page) ?_ (fun s₁ => hstop) (fun s₁ w hp _ _ => hstop hp) ?_
    · intro _
      exact ⟨hrefl, Steady.refl, CopyoutDone.stop rfl BytesKept.refl fun x hx => absurd rfl hx⟩
    · intro s₁ w n hp hpa hw hU hW hn
      have htake : (src.take n).length = n := by rw [length_take]; omega
      have hround := copyoutRound (src.take n) h hp.1 hp.2 hpa hw hU hW (by omega)
      generalize s₁.setPage (PTE2PA w) (writeBytes (s₁.mem (PTE2PA w)) (va % 4096) (src.take n)) = s₂ at hround
      refine (ih (src.length - n) (by omega) (src.drop n) (va + n) s₂ (hround.growth.procSpace h) length_drop).mono ?_
      intro r s' hrest
      obtain ⟨hgrowth₂, hsteady₂, hdone⟩ := hrest
      exact ⟨hround.growth.trans hgrowth₂, hround.steady.trans hsteady₂,
        hround.done (by omega) hgrowth₂ hsteady₂ hdone⟩

end Copyout

section Copyin

variable [KernelImage] {p : Proc} {va n : ℕ} {s s₁ s' : Phys}

/-- The bytes that a copy from a process returns are those of the process. -/
structure CopyinDone (root va len : ℕ) (r : Option (List UInt8)) (s' : Phys) : Prop where
  bytes : ∀ data, r = some data → data.length = len ∧ ∀ i < len, userByte s' root (va + i) = data[i]?

omit [KernelImage] in
/-- A byte of a part of a page. -/
theorem readBytes_getElem? (page : Page) (off : ℕ) {i : ℕ} (hi : i < n) :
    (readBytes page off n)[i]? = some (page.at (off + i)) := by
  rw [readBytes, getElem?_map, getElem?_range hi, map_some]

omit [KernelImage] in
theorem length_readBytes (page : Page) (off n : ℕ) : (readBytes page off n).length = n := by
  rw [readBytes, length_map, length_range]

/-- The bytes of the first page and those of the rest. -/
theorem CopyinDone.append {w len : ℕ} {rest : Option (List UInt8)} (hin : SpaceIn s₁ p.pagetable)
    {allowed : ℕ → ℕ → Page → Prop} (hf : Filled p.pagetable allowed s₁ s')
    (hw : leaf s₁.mem p.pagetable (va / 4096) = some w) (hU : hasFlag w PTE_U = true) (hend : va % 4096 + n ≤ 4096)
    (hn : n ≤ len) (hrest : CopyinDone p.pagetable (va + n) (len - n) rest s') :
    CopyinDone p.pagetable va len
      (rest.map fun tail => readBytes (s₁.mem (PTE2PA w)) (va % 4096) n ++ tail) s' := by
  constructor
  intro data hdata
  obtain ⟨tail, htail, rfl⟩ := map_eq_some_iff.1 hdata
  obtain ⟨hlen, hbytes⟩ := hrest.bytes tail htail
  have hread := length_readBytes (s₁.mem (PTE2PA w)) (va % 4096) n
  refine ⟨by rw [length_append, hread]; omega, ?_⟩
  intro i hi
  by_cases hfirst : i < n
  · obtain ⟨hdiv, hmod⟩ := UserMem.add_in_page va i (by omega)
    have hleaf : leaf s'.mem p.pagetable ((va + i) / 4096) = some w := by
      rw [hdiv]
      exact hf.old _ w hw
    rw [getElem?_append_left (by omega), readBytes_getElem? _ _ hfirst, userByte_of_leaf hleaf hU,
      hf.mem_eq hin hw, hmod]
  · have hlast := hbytes (i - n) (by omega)
    rw [show va + n + (i - n) = va + i by omega] at hlast
    rw [getElem?_append_right (by omega), hread, hlast]

/-- The whole loop of `copyin`. -/
theorem copyin_done (len va : ℕ) (s : Phys) (h : ProcSpace s p.pagetable p.trapframe) (hsz : p.sz ≤ TRAPFRAME) :
    Ensures (copyin p p.pagetable va len) s fun r s' =>
      Filled p.pagetable (p.CopyPage va len) s s' ∧ CopyinDone p.pagetable va len r s' := by
  induction len using Nat.strong_induction_on generalizing va s with
  | h len ih =>
    by_cases hlen : len = 0
    · rw [Xv6.Vm.copyin, dif_pos hlen, ensures_pure]
      refine ⟨Filled.refl h.within, ⟨?_⟩⟩
      intro data hdata
      rw [← Option.some.inj hdata, hlen]
      exact ⟨rfl, fun i hi => absurd hi (Nat.not_lt_zero i)⟩
    refine copyin_round (userPage_spec h hsz (chunk_facts va).2.1) hlen (fun pa s₁ hp => hp.lt_maxva h) ?_ ?_
    · intro s₁ hp
      exact ⟨hp.filled_copy len (by omega), ⟨by simp⟩⟩
    · intro pa s₁ n hp hpa hn
      obtain ⟨w, hw, hU, rfl⟩ := hp.page hpa
      have hfilled := hp.filled_copy len (by omega)
      have hspace := hfilled.procSpace h
      refine (ih (len - n) (by omega) (va + n) s₁ hspace).mono ?_
      intro rest s₂ hrest
      obtain ⟨hfilled₂, hdone⟩ := hrest
      exact ⟨hfilled.trans h.within (hfilled₂.mono fun _ _ _ hc => hc.rest (by omega)),
        CopyinDone.append hspace.within hfilled₂ hw hU (by omega) (by omega) hdone⟩

/-- Where every byte is there, `copyin` succeeds and allocates nothing. -/
theorem copyin_mapped (len va : ℕ) (s : Phys) (h : SpaceIn s p.pagetable)
    (hall : ∀ i < len, (userByte s p.pagetable (va + i)).isSome = true) :
    Ensures (copyin p p.pagetable va len) s fun r s' => s' = s ∧ r ≠ none := by
  induction len using Nat.strong_induction_on generalizing va with
  | h len ih =>
    by_cases hlen : len = 0
    · rw [Xv6.Vm.copyin, dif_pos hlen, ensures_pure]
      exact ⟨rfl, some_ne_none _⟩
    obtain ⟨b, hb⟩ := isSome_iff_exists.1 (hall 0 (by omega))
    obtain ⟨w, hw, hU, -⟩ := userByte_eq_some hb
    rw [Nat.add_zero] at hw
    refine copyin_round (userPage_mapped h.space ((chunk_facts va).2.2.1.symm ▸ hw) hU) hlen
      (fun _ _ _ _ => h.space.lt_maxva hw) (fun _ hp => absurd rfl hp.2.1) ?_
    rintro pa _ n ⟨rfl, -⟩ - hn
    refine (ih (len - n) (by omega) (va + n) ?_).mono ?_
    · intro i hi
      rw [Nat.add_assoc]
      exact hall (n + i) (by omega)
    · intro rest s₂ hrest
      obtain ⟨rfl, hrest⟩ := hrest
      obtain ⟨tail, rfl⟩ := ne_none_iff_exists'.1 hrest
      exact ⟨rfl, some_ne_none _⟩

end Copyin

section Both

variable [KernelImage]

/-- `copyout` and `copyin` for every process whose size is below the trapframe, every address and every
length: neither panics; a copy to the process writes a prefix of its bytes, all of them if it succeeds, so
that they can be read back; a copy from the process returns its bytes and changes none of them. -/
theorem user_copies (p : Proc) (s : Phys) (h : ProcSpace s p.pagetable p.trapframe)
    (hsz : p.sz ≤ TRAPFRAME) (va : ℕ) :
    (∀ src, Ensures (copyout p p.pagetable va src) s fun r s' =>
      CopyoutDone p.pagetable va src s r s' ∧
        (r = 0 → Ensures (copyin p p.pagetable va src.length) s' fun r' s'' =>
          r' = some src ∧ s'' = s')) ∧
    ∀ len, Ensures (copyin p p.pagetable va len) s fun r s' =>
      BytesKept p.pagetable s s' (fun _ => False) ∧ CopyinDone p.pagetable va len r s' := by
  refine ⟨fun src => ?_, fun len => ?_⟩
  · refine (copyout_done src va s h hsz).mono ?_
    intro r s' hr
    obtain ⟨hgrowth, -, hdone⟩ := hr
    refine ⟨hdone, fun hzero => ?_⟩
    obtain ⟨n, -, hall, hbytes, -⟩ := hdone.written
    rw [hall hzero] at hbytes
    have hspace := hgrowth.procSpace h
    have hmapped : ∀ i < src.length, (userByte s' p.pagetable (va + i)).isSome = true := by
      intro i hi
      rw [hbytes i hi, getElem?_eq_getElem hi]
      rfl
    refine ((copyin_done src.length va s' hspace hsz).and
      (copyin_mapped src.length va s' hspace.within hmapped)).mono ?_
    intro r' s'' hr'
    obtain ⟨⟨-, hread⟩, rfl, hsome⟩ := hr'
    obtain ⟨data, rfl⟩ := ne_none_iff_exists'.1 hsome
    obtain ⟨hlen, hdata⟩ := hread.bytes data rfl
    refine ⟨congrArg some (ext_getElem? fun i => ?_), rfl⟩
    by_cases hi : i < src.length
    · rw [← hdata i hi, hbytes i hi]
    · rw [getElem?_eq_none (by omega), getElem?_eq_none (by omega)]
  · refine (copyin_done len va s h hsz).mono ?_
    intro r s' hr
    exact ⟨hr.1.bytesKept h.within, hr.2⟩

end Both

section Concrete

attribute [local instance] linkedImage

/-- A copy across the border between an untouched page of a heap and a touched one. -/
theorem user_copies_heap : ∃ (p : Proc) (s : Phys), p.sz = 8192 ∧ leaf s.mem p.pagetable 0 = none ∧
    (leaf s.mem p.pagetable 1).isSome = true ∧
    Ensures (copyout p p.pagetable 4090 (List.replicate 12 7)) s fun r s' =>
      CopyoutDone p.pagetable 4090 (List.replicate 12 7) s r s' := by
  obtain ⟨events, k, -, -, -, hsz, hok, -, hleaf, hnone, -⟩ := exists_touched_heap
  have hcopies := user_copies (k.proc 0) k.phys hok.space hok.size 4090
  exact ⟨k.proc 0, k.phys, hsz, hnone, hleaf, (hcopies.1 (List.replicate 12 7)).mono fun _ _ hr => hr.1⟩

end Concrete

end Xv6
