import Xv6.Proc.ExecSafety

/-!
# The whole effect of `sbrk`

`sbrk` takes a 32-bit number of bytes. It refuses to grow a process beyond the trapframe and does nothing
when asked to shrink it by more than it has. Growing touches no mapping; shrinking removes the mapped pages
between the new end and the old one and gives them back.
-/

namespace Xv6

open Library Vm

/-- The page starts between two sizes that have been rounded up. -/
def between (newsz oldsz v : ℕ) : Prop := PGROUNDUP newsz ≤ v * PGSIZE ∧ v * PGSIZE < PGROUNDUP oldsz

theorem between_iff {newsz oldsz v : ℕ} (hnew : newsz ≤ TRAPFRAME) (hold : oldsz ≤ TRAPFRAME) :
    between newsz oldsz v ↔ pageCount newsz ≤ v ∧ v < pageCount oldsz := by
  have hbound : TRAPFRAME ≤ 2 ^ 63 := by decide
  unfold between
  rw [PGROUNDUP_eq (hnew.trans hbound), PGROUNDUP_eq (hold.trans hbound)]
  change pageCount newsz * 4096 ≤ v * 4096 ∧ v * 4096 < pageCount oldsz * 4096 ↔ _
  omega

section Shrink

variable [KernelImage] {root oldsz newsz r : ℕ} {s s' : Phys}

section

variable (h : Dealloced root oldsz newsz s r s')

include h

/-- The mappings after shrinking. -/
theorem Vm.Dealloced.leaf_between (hnew : newsz ≤ TRAPFRAME) (hold : oldsz ≤ TRAPFRAME) (v : ℕ) :
    (between newsz oldsz v → leaf s'.mem root v = none) ∧
      (¬ between newsz oldsz v → leaf s'.mem root v = leaf s.mem root v) := by
  rw [between_iff hnew hold, h.leaf_eq, removed, without]
  constructor
  · intro hv
    rw [if_pos (by omega)]
  · intro hv
    rw [if_neg (by omega)]

/-- The pages that shrinking frees. -/
theorem Vm.Dealloced.freed_between (hspace : Space s.mem root)
    (hnew : newsz ≤ TRAPFRAME) (hold : oldsz ≤ TRAPFRAME) :
    ∃ freed, s'.freelist = freed ++ s.freelist ∧ freed.Nodup ∧
      ∀ x, x ∈ freed ↔ ∃ v w, between newsz oldsz v ∧ leaf s.mem root v = some w ∧ PTE2PA w = x := by
  refine ⟨_, h.freelist, ?_, fun x => ?_⟩
  · rw [freedPages, if_pos rfl, List.nodup_reverse]
    exact leafPages_nodup _ _ hspace.inj
  · rw [freedPages, if_pos rfl, List.mem_reverse, mem_leafPages]
    constructor
    · rintro ⟨v, w, hle, hlt, hw, hx⟩
      exact ⟨v, w, (between_iff hnew hold).2 ⟨hle, by omega⟩, hw, hx⟩
    · rintro ⟨v, w, hv, hw, hx⟩
      rw [between_iff hnew hold] at hv
      exact ⟨v, w, hv.1, by omega, hw, hx⟩

/-- What is still mapped after shrinking has kept its bytes. -/
theorem Vm.Dealloced.mem_eq (hspace : Space s.mem root) {v w : ℕ}
    (hw : leaf s'.mem root v = some w) : s'.mem (PTE2PA w) = s.mem (PTE2PA w) := by
  rw [h.leaf_eq] at hw
  obtain ⟨hw, hout⟩ := removed_eq_some hw
  apply h.same
  · exact hspace.tree.leaf_not_mem_tables hw
  · intro v' w' hle hlt hw' heq
    have hsame := hspace.inj v' v w' w hw' hw heq
    omega

end

end Shrink

section Result

variable {sz : ℕ} {n : ℤ}

/-- The result of `sbrk` is `-1` exactly if the process would grow beyond the trapframe, and its size stays
the same then. -/
theorem sbrkTo_refused (hsz : sz ≤ TRAPFRAME) :
    ((sbrkTo sz n).1 = minusOne ↔ 0 < n ∧ (TRAPFRAME : ℤ) < sz + n) ∧
      ((sbrkTo sz n).1 = minusOne → (sbrkTo sz n).2 = sz) := by
  have hne : sz ≠ minusOne := by
    change sz ≠ 2 ^ 64 - 1
    have : sz ≤ 2 ^ 38 - 4096 - 4096 := hsz
    omega
  unfold sbrkTo
  by_cases hpos : 0 < n
  · rw [if_pos hpos]
    by_cases hbig : TRAPFRAME < sz + n.natAbs
    · rw [if_pos hbig]
      exact ⟨iff_of_true rfl ⟨hpos, by omega⟩, fun _ => rfl⟩
    · rw [if_neg hbig]
      exact ⟨iff_of_false hne fun h => hbig (by omega), fun h => absurd h hne⟩
  · rw [if_neg hpos]
    split_ifs
    · exact ⟨iff_of_false hne fun h => hpos h.1, fun h => absurd h hne⟩
    · exact ⟨iff_of_false hne fun h => hpos h.1, fun h => absurd h hne⟩

/-- Otherwise the result is the old size, and the size has moved unless it would have become negative. -/
theorem sbrkTo_moved (h : (sbrkTo sz n).1 ≠ minusOne) :
    sbrkTo sz n = (sz, if n < 0 ∧ (sz : ℤ) < -n then sz else (sz + n).toNat) := by
  unfold sbrkTo at h ⊢
  by_cases hpos : 0 < n
  · rw [if_pos hpos] at h ⊢
    by_cases hbig : TRAPFRAME < sz + n.natAbs
    · rw [if_pos hbig] at h
      exact absurd rfl h
    · rw [if_neg hbig, if_neg (by omega)]
      congr 1
      omega
  · rw [if_neg hpos]
    by_cases hle : n.natAbs ≤ sz
    · rw [if_pos hle, if_neg (by omega)]
      congr 1
      omega
    · rw [if_neg hle, if_pos (by omega)]

end Result

/-- `sbrk` with a 32-bit number of bytes, for a process without special mappings. -/
theorem sbrk_effect [KernelImage] (p : Proc) (s : Phys) (n : BitVec 32) (hspace : ProcSpace s p.pagetable p.trapframe)
    (hsz : p.sz ≤ TRAPFRAME) (hregion : p.vr.active = false) :
    Ensures (sysSbrk p n.toInt) s fun r s' =>
      (r.1 = minusOne ↔ 0 < n.toInt ∧ (TRAPFRAME : ℤ) < p.sz + n.toInt) ∧
      (r.1 = minusOne → r.2 = p ∧ s' = s) ∧
      (r.1 ≠ minusOne → r.1 = p.sz ∧ r.2 = { p with
        sz := if n.toInt < 0 ∧ (p.sz : ℤ) < -n.toInt then p.sz else (p.sz + n.toInt).toNat }) ∧
      (0 ≤ n.toInt → s' = s) ∧
      (n.toInt < 0 →
        (∀ v, (between r.2.sz p.sz v → leaf s'.mem p.pagetable v = none) ∧
          (¬ between r.2.sz p.sz v → leaf s'.mem p.pagetable v = leaf s.mem p.pagetable v)) ∧
        (∃ freed, s'.freelist = freed ++ s.freelist ∧ freed.Nodup ∧ ∀ x, x ∈ freed ↔
          ∃ v w, between r.2.sz p.sz v ∧ leaf s.mem p.pagetable v = some w ∧ PTE2PA w = x) ∧
        ∀ v w, leaf s'.mem p.pagetable v = some w → s'.mem (PTE2PA w) = s.mem (PTE2PA w)) := by
  have hok : p.Ok s := ⟨hspace, hsz, fun h => by rw [hregion] at h; cases h⟩
  have hlow := BitVec.le_toInt n
  have hhigh := BitVec.toInt_lt (x := n)
  have hbound : p.sz ≤ 2 ^ 38 - 4096 - 4096 := hsz
  refine (sysSbrk_spec hok (by omega)).mono ?_
  rintro r s' ⟨rfl, hgrow, hshrink⟩
  have hnew : (sbrkTo p.sz n.toInt).2 ≤ TRAPFRAME := sbrkTo_le hsz
  obtain ⟨hrefused, hsame⟩ := sbrkTo_refused (n := n.toInt) hsz
  refine ⟨hrefused, fun hr => ⟨?_, ?_⟩, fun hr => ?_, hgrow, fun hneg => ?_⟩
  · rw [hsame hr]
  · exact hgrow (by have := hrefused.1 hr; omega)
  · have hmoved := sbrkTo_moved hr
    exact ⟨congrArg Prod.fst hmoved, by rw [hmoved]⟩
  · have hd := hshrink hneg
    exact ⟨hd.leaf_between hnew hsz, hd.freed_between hspace.within.space hnew hsz,
      fun v w hw => hd.mem_eq hspace.within.space hw⟩

section Concrete

attribute [local instance] linkedImage

/-- A process that has grown its heap by two pages and touched the second one shrinks it by a page and a
byte: the page that it has touched is gone. -/
theorem sbrk_effect_shrunk : ∃ events k, Run Kernel.Guarded (bootKernel 40) events k ∧
    events.map (fun e => (e.proc, e.op)) = [(0, .sbrk 8192), (0, .store 5000 77)] ∧
    (leaf k.phys.mem (k.proc 0).pagetable 1).isSome = true ∧
    Ensures (sysSbrk (k.proc 0) (-4097)) k.phys fun r s' =>
      r = (8192, { k.proc 0 with sz := 4095 }) ∧ leaf s'.mem (k.proc 0).pagetable 1 = none := by
  obtain ⟨events, k, hrun, hops, -, hsz, hok, hplain, hleaf, -⟩ := exists_touched_heap
  refine ⟨events, k, hrun, hops, hleaf, ?_⟩
  have heffect := sbrk_effect (k.proc 0) k.phys (BitVec.ofInt 32 (-4097)) hok.space hok.size hplain.region
  rw [show (BitVec.ofInt 32 (-4097)).toInt = -4097 by decide, hsz] at heffect
  refine heffect.mono ?_
  rintro ⟨r, p'⟩ s' ⟨hrefused, -, hmoved, -, hshrink⟩
  obtain ⟨rfl, rfl⟩ := hmoved fun h => absurd (hrefused.1 h).1 (by decide)
  refine ⟨rfl, ((hshrink (by decide)).1 1).1 ?_⟩
  change between 4095 8192 1
  exact (between_iff (by decide) (by decide)).2 (by decide)

end Concrete

end Xv6
