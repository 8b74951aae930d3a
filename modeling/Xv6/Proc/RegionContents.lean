import Xv6.Proc.Guarded
import Xv6.Proc.Teardown

/-!
# The contents of the regions of `mapzero`

Every byte of a region that `mapzero` has returned should read as `'A'` until it is written. The page
fault of a user access delivers such a page. The copies of the kernel fill a page of the region that
they touch first with zeros, and a second call of `mapzero` makes the process forget the first region.
Where neither happens to a page that has not been touched, the law holds.
-/

namespace Xv6

open Library Set UserMem Vm

/-- The addresses of the region that an event has returned. -/
def Event.reserves (e : Event) : Set ℕ :=
  match e.op, e.outcome with
  | .mapzero size, .result start =>
    {va | 0 < size.toInt ∧ start ≤ va ∧ va < start + pageCount size.toInt.natAbs * 4096}
  | _, _ => ∅

/-- The addresses that an event may have written. -/
def Event.writes (e : Event) : Set ℕ :=
  match e.op with
  | .store va _ => {va.toNat}
  | .copyout va bytes => {x | va.toNat ≤ x ∧ x < va.toNat + bytes.length}
  | _ => ∅

/-- The addresses of all regions returned so far that have not been written since. -/
def unwritten (events : List Event) : Set ℕ :=
  events.foldl (fun held e => (held ∪ e.reserves) \ e.writes) ∅

theorem unwritten_concat (events : List Event) (e : Event) :
    unwritten (events ++ [e]) = (unwritten events ∪ e.reserves) \ e.writes :=
  List.foldl_append

/-- What an operation must not do to the regions: a `mapzero` starts at a page boundary, fits, leaves
no page of the last region untouched and finds its own pages unmapped; a copy only touches pages of
the region that have been touched before. -/
def Proc.ContentsSafe (p : Proc) (s : Phys) : Op → Prop
  | .mapzero size => 0 < size.toInt → p.sz % 4096 = 0 ∧
      p.sz + pageCount size.toInt.natAbs * 4096 ≤ TRAPFRAME ∧ size.toInt ≤ 2 ^ 31 - 4096 ∧
      (∀ v, p.InRegion (v * 4096) → leaf s.mem p.pagetable v ≠ none) ∧
      ∀ v, p.sz ≤ v * 4096 → v * 4096 < p.sz + pageCount size.toInt.natAbs * 4096 →
        leaf s.mem p.pagetable v = none
  | .copyin va len => p.Materialised s va.toNat len.toNat
  | .copyout va bytes => p.Materialised s va.toNat bytes.length
  | .load _ | .store _ _ => True
  | _ => False

namespace UserMem

variable {V : UserMem} {va x : ℕ}

/-- Writing one byte leaves the others of the page alone. -/
theorem at_writeBytes_ne (page : Page) {off j : ℕ} (byte : UInt8) (h : j ≠ off) :
    Bytes.at (writeBytes page off [byte]) j = page.at j := by
  by_cases hj : j < PGSIZE
  · rw [at_writeBytes page off [byte] hj, List.length_singleton, if_neg (by omega)]
  · rw [Bytes.at, Bytes.at, dif_neg hj, dif_neg hj]

/-- A stored byte is seen at its own address only. -/
theorem load_put_ne (byte : UInt8) (h : x ≠ va) : (V.put va byte).load x = V.load x := by
  rw [load, load, access, access, put]
  by_cases hpage : x / 4096 = va / 4096
  · have hoff : x % 4096 ≠ va % 4096 := by omega
    rw [hpage, Function.update_self]
    cases V (va / 4096) with
    | none => rfl
    | some e =>
      change Option.map _ (if _ then _ else _) = Option.map _ (if _ then _ else _)
      by_cases hperm : (hasFlag e.1 PTE_U && hasFlag e.1 PTE_R) = true
      · rw [if_pos hperm, if_pos hperm, Option.map_some, Option.map_some, at_writeBytes_ne _ _ hoff]
      · rw [if_neg hperm, if_neg hperm]
  · rw [Function.update_of_ne hpage]

/-- A copy to the process is seen in its range only. -/
theorem load_copyout (bytes : List UInt8) (h : x < va ∨ va + bytes.length ≤ x) :
    (V.copyout va bytes).1.load x = V.load x := by
  induction bytes generalizing V va with
  | nil => rfl
  | cons byte bytes ih =>
    rw [List.length_cons] at h
    rw [copyout]
    by_cases hwrite : (V.access va PTE_W).isSome = true
    · rw [if_pos hwrite, ih (by omega), load_put_ne byte (by omega)]
    · rw [if_neg hwrite]

end UserMem

section Contents

variable [KernelImage]

/-- The bytes that have not been written are there, and the process sees `'A'`. -/
structure RegionKept (bytes : Set ℕ) (p : Proc) (s : Phys) : Prop where
  ok : p.Ok s
  mapRo : p.MapRoOk
  aligned : p.RegionAligned
  seen : ∀ va ∈ bytes, (view s p).load va = some regionByte
  present : ∀ va ∈ bytes, p.InRegion va ∨ leaf s.mem p.pagetable (va / 4096) ≠ none

section Step

variable {p p' : Proc} {s s' : Phys} {bytes : Set ℕ} {op : Op} {o : Outcome}

omit [KernelImage] in
/-- A safe `mapzero` fits. -/
theorem Proc.ContentsSafe.fits (h : p.ContentsSafe s op) : op.Fits p := by
  cases op with
  | mapzero size =>
    intro hpos
    obtain ⟨-, hfit, hsize, -⟩ := h hpos
    exact ⟨hfit, .inl hsize⟩
  | _ => trivial

/-- What an operation that keeps the region and the sight of some bytes leaves. -/
theorem RegionKept.of_effect (h : RegionKept bytes p s) (hsafe : p.ContentsSafe s op)
    (he : MemEffect p s op o p' s') (hsame : p.SameMemory p')
    (hseen : ∀ va ∈ bytes, (view s' p).load va = (view s p).load va) : RegionKept bytes p' s' := by
  have hsound := he.sound h.ok h.mapRo hsafe.fits
  refine ⟨hsound.ok, hsound.mapRo, ?_, ?_, ?_⟩
  · rw [Proc.RegionAligned, hsame.vr]
    exact h.aligned
  · intro va hva
    rw [hsame.view_eq, hseen va hva]
    exact h.seen va hva
  · intro va hva
    rw [hsame.inRegion, hsame.pagetable]
    refine (h.present va hva).imp_right fun hleaf => ?_
    obtain ⟨w, hw⟩ := Option.ne_none_iff_exists'.1 hleaf
    rw [he.leaf_kept h.ok hw (.inl hsame.sz.ge)]
    exact Option.some_ne_none w

theorem RegionKept.mono {bytes' : Set ℕ} (h : RegionKept bytes p s) (hsub : bytes' ⊆ bytes) :
    RegionKept bytes' p s :=
  ⟨h.ok, h.mapRo, h.aligned, fun va hva => h.seen va (hsub hva), fun va hva => h.present va (hsub hva)⟩

/-- The law only depends on what the record says about memory. -/
theorem Proc.SameMemory.regionKept (hsame : p.SameMemory p') (hro : p'.MapRoOk)
    (h : RegionKept bytes p s) : RegionKept bytes p' s := by
  refine ⟨hsame.ok h.ok, hro, ?_, ?_, ?_⟩
  · rw [Proc.RegionAligned, hsame.vr]
    exact h.aligned
  · intro va hva
    rw [hsame.view_eq]
    exact h.seen va hva
  · intro va hva
    rw [hsame.inRegion, hsame.pagetable]
    exact h.present va hva

variable {size : BitVec 32}

omit [KernelImage] in
/-- The record after a safe `mapzero`. -/
theorem sysMapzero_safe (hpos : 0 < size.toInt) (hsafe : p.ContentsSafe s (.mapzero size)) :
    (sysMapzero p size.toInt).1 = p.sz ∧
      (sysMapzero p size.toInt).2.pagetable = p.pagetable ∧
      (sysMapzero p size.toInt).2.vr.active = true ∧
      (sysMapzero p size.toInt).2.vr.start = p.sz ∧
      (sysMapzero p size.toInt).2.vr.limit = p.sz + pageCount size.toInt.natAbs * 4096 := by
  obtain ⟨-, hfit, hsize, -⟩ := hsafe hpos
  have hle : p.sz ≤ TRAPFRAME := le_trans (Nat.le_add_right _ _) hfit
  have hpages : pageCount size.toInt.natAbs < 2 ^ 19 := by
    rw [pageCount]
    omega
  have hlimit := limit_mapzero hle hpages.le
  rw [if_pos hpages] at hlimit
  rw [sysMapzero_pos hpos (natAbs_toInt_le size) hfit]
  exact ⟨rfl, rfl, rfl, rfl, hlimit⟩

/-- A safe `mapzero` adds its region. -/
theorem RegionKept.mapzero (h : RegionKept bytes p s)
    (hsafe : p.ContentsSafe s (.mapzero size)) (hpos : 0 < size.toInt) :
    RegionKept (bytes ∪ {va | p.sz ≤ va ∧ va < p.sz + pageCount size.toInt.natAbs * 4096})
      (sysMapzero p size.toInt).2 s := by
  obtain ⟨-, hroot, hactive, hstart, hlimit⟩ := sysMapzero_safe hpos hsafe
  obtain ⟨haligned, hfit, hsize, hold, hnew⟩ := hsafe hpos
  have hsound := memSound_mapzero h.ok h.mapRo hsafe.fits
  generalize (sysMapzero p size.toInt).2 = p' at hroot hactive hstart hlimit hsound ⊢
  have haligned' : p'.RegionAligned := by
    intro _
    rw [hstart, hlimit]
    omega
  have hin : ∀ va, p'.InRegion va ↔
      p.sz ≤ va ∧ va < p.sz + pageCount size.toInt.natAbs * 4096 := by
    intro va
    rw [Proc.InRegion, hactive, hstart, hlimit]
    exact and_iff_right rfl
  -- The pages of the old region have been touched, so nothing changes for them.
  have hmapped : ∀ va ∈ bytes, leaf s.mem p.pagetable (va / 4096) ≠ none := by
    intro va hva
    obtain hregion | hleaf := h.present va hva
    · exact hold _ (h.aligned.inRegion_iff.1 hregion)
    · exact hleaf
  refine ⟨hsound.ok, hsound.mapRo, haligned', ?_, ?_⟩
  · intro va hva
    obtain hva | hva := hva
    · obtain ⟨w, hw⟩ := Option.ne_none_iff_exists'.1 (hmapped va hva)
      have hsame : view s p' (va / 4096) = view s p (va / 4096) := by
        rw [view_of_leaf hw, view_of_leaf (hroot ▸ hw)]
      rw [← h.seen va hva, load, load, access, access, hsame]
    · have hpage : leaf s.mem p'.pagetable (va / 4096) = none := by
        rw [hroot]
        obtain ⟨hlow, hhigh⟩ := hva
        exact hnew _ (by omega) (by omega)
      rw [load, access, view_of_none hpage, promised_inside haligned' ((hin va).2 hva)]
      change some (Bytes.at (filled regionByte) (va % 4096)) = some regionByte
      rw [Bytes.at, dif_pos (Nat.mod_lt va (by decide))]
      rfl
  · intro va hva
    obtain hva | hva := hva
    · right
      rw [hroot]
      exact hmapped va hva
    · exact .inl ((hin va).2 hva)

/-- Every safe operation keeps the law, with the bytes that it adds and without those it writes. -/
theorem RegionKept.step {i : Fin NPROC} (h : RegionKept bytes p s) (hsafe : p.ContentsSafe s op)
    (he : MemEffect p s op o p' s') :
    RegionKept ((bytes ∪ Event.reserves ⟨i, op, o⟩) \ Event.writes ⟨i, op, o⟩) p' s' := by
  cases he with
  | grow | shrink | mapRoFailed | mapRo => exact absurd hsafe id
  | mapzero size =>
    by_cases hpos : 0 < size.toInt
    · apply (h.mapzero hsafe hpos).mono
      rw [(sysMapzero_safe hpos hsafe).1]
      exact sdiff_subset.trans (union_subset_union_right _ fun va hva => hva.2)
    · rw [sysMapzero_nonpos (not_lt.1 hpos)]
      apply h.mono
      refine sdiff_subset.trans (union_subset (fun _ => id) ?_)
      exact fun va hva => absurd hva.1 hpos
  | load va r p' s' outcome =>
    have he := MemEffect.load va r p' s' outcome
    obtain ⟨hview, -⟩ := outcome.visible h.ok h.aligned
    have hsame := (he.access h.ok trivial).1
    apply (h.of_effect hsafe he hsame fun x _ => by rw [hview]).mono
    exact sdiff_subset.trans (union_subset (fun _ => id) (empty_subset _))
  | store va byte r p' s' outcome =>
    have he := MemEffect.store va byte r p' s' outcome
    have hsame := (he.access h.ok trivial).1
    refine (h.mono ?_).of_effect hsafe he hsame ?_
    · exact sdiff_subset.trans (union_subset (fun _ => id) (empty_subset _))
    · intro x hx
      obtain ⟨hdone, hfail⟩ := outcome.visible h.ok h.aligned
      cases r with
      | true => rw [(hdone rfl).1, load_put_ne byte hx.2]
      | false => rw [(hfail rfl).1]
  | copyin va len r s' filled seen =>
    have he := MemEffect.copyin va len r s' filled seen
    have hview : view s' p = view s p :=
      filled.view_eq h.ok.space.within fun v perm page hnone hc => hc.promised hsafe hnone
    apply (h.of_effect hsafe he (Proc.SameMemory.refl p) fun x _ => by rw [hview]).mono
    exact sdiff_subset.trans (union_subset (fun _ => id) (empty_subset _))
  | copyout va src r s' growth seen =>
    have he := MemEffect.copyout va src r s' growth seen
    refine (h.mono ?_).of_effect hsafe he (Proc.SameMemory.refl p) ?_
    · exact sdiff_subset.trans (union_subset (fun _ => id) (empty_subset _))
    · intro x hx
      obtain ⟨n, hn, hview⟩ := (seen hsafe).written
      have hout : ¬ (va.toNat ≤ x ∧ x < va.toNat + src.length) := hx.2
      rw [hview, load_copyout]
      rw [List.length_take]
      omega

end Step

section Run

variable {k₀ k₁ k : Kernel} {events₀ events : List Event} {i : Fin NPROC}

/-- The law after a run of safe operations. -/
theorem Run.regionKept (hok : (k₁.proc i).Ok k₁.phys) (hro : (k₁.proc i).MapRoOk)
    (haligned : (k₁.proc i).RegionAligned) (hrun : Run (Kernel.MemoryMoves i Proc.ContentsSafe) k₁ events k) :
    RegionKept (unwritten events) (k.proc i) k.phys := by
  apply hrun.history (fun events k => RegionKept (unwritten events) (k.proc i) k.phys)
  · exact ⟨hok, hro, haligned, fun _ hva => absurd hva (notMem_empty _), fun _ hva => absurd hva (notMem_empty _)⟩
  · intro events k e k' hk hmove
    obtain ⟨rfl, hop, hsafe, hstep⟩ := hmove
    obtain ⟨p', s', heffect, hafter⟩ := hstep.memEffect hk.ok hop
    obtain ⟨hphys, hsame, -⟩ := hafter.spec
    have hkept := hk.step (i := e.proc) hsafe heffect
    rw [unwritten_concat, hphys]
    refine hsame.regionKept ?_ hkept
    rw [Proc.MapRoOk, hsame.mapRoVa]
    exact hkept.mapRo

/-- After every guarded run and every run of safe operations of one process from there on, a load of the
process from a byte of a region that it was given and has not written finds `'A'`; without memory for
the page the process is killed instead. -/
theorem mapzero_contents (hboot : k₀.Boot) (hbefore : Run Kernel.Guarded k₀ events₀ k₁)
    (hlive : (k₁.proc i).Live) (haligned : (k₁.proc i).RegionAligned)
    (hrun : Run (Kernel.MemoryMoves i Proc.ContentsSafe) k₁ events k)
    (halive : (k.proc i).killed = false) :
    ∀ va ∈ unwritten events, Ensures (userLoad (k.proc i) va) k.phys fun r s' =>
      r.1 = some regionByte ∨ (r.1 = none ∧ s'.exhausted = true) := by
  have hslot := (hboot.invariant.of_run hbefore).layout.slot i hlive
  have hkept := Run.regionKept hslot.ok hslot.mapRo haligned hrun
  intro va hva
  have hseen := hkept.seen va hva
  have hreadable : (k.proc i).InRegion va → ∀ w,
      leaf k.phys.mem (k.proc i).pagetable (va / 4096) = some w →
        (hasFlag w PTE_U && hasFlag w PTE_R) = true := by
    intro _ w hw
    have haccess : (view k.phys (k.proc i)).access va PTE_R =
        if hasFlag w PTE_U && hasFlag w PTE_R then some (k.phys.mem (PTE2PA w)) else none :=
      access_of_leaf (k := 1) (by decide) hw
    by_contra hperm
    rw [if_neg hperm] at haccess
    rw [load, haccess] at hseen
    cases hseen
  refine (userLoad_spec hkept.ok hreadable).mono ?_
  intro r s' houtcome
  obtain ⟨-, hfound, hnone⟩ := houtcome.visible hkept.ok hkept.aligned
  cases hr : r.1 with
  | some b =>
    have hb := hfound b hr
    rw [hseen] at hb
    exact .inl hb.symm
  | none =>
    refine .inr ⟨rfl, ?_⟩
    obtain hex | hunreachable | hblind := hnone hr halive
    · exact hex
    · obtain hin | hleaf := hkept.present va hva
      · exact absurd hin hunreachable.2.1
      · exact absurd hunreachable.1 hleaf
    · exact none_elim hblind hseen

end Run

end Contents

section Concrete

attribute [local instance] linkedImage

/-- An event is determined by its process, its operation and its outcome. -/
theorem events_eq {events : List Event} {ops : List (Fin NPROC × Op)} {outcomes : List Outcome}
    (hops : events.map (fun e => (e.proc, e.op)) = ops) (houtcomes : events.map (fun e => e.outcome) = outcomes) :
    events = List.zipWith (fun q o => ⟨q.1, q.2, o⟩) ops outcomes := by
  subst hops houtcomes
  induction events with
  | nil => rfl
  | cons e rest ih =>
    rw [List.map_cons, List.map_cons, List.zipWith_cons_cons, ← ih]

/-- A copy by the kernel that touches a page of the region first fills it with zeros, which the process
then reads. -/
theorem mapzero_copyin_clears : ∃ events k, (bootKernel 40).Boot ∧
    Run (Kernel.Moves .lazy) (bootKernel 40) events k ∧
    events.map (fun e => (e.proc, e.op)) = [(0, .mapzero 8192), (0, .copyin 4096 1)] ∧
    4096 ∈ unwritten events ∧ (k.proc 0).state = .runnable ∧
    ∃ k', runOp .lazy 0 (.load 4096) k = .ok (.loaded 0, k') := by
  obtain ⟨events, k, hreplay, hcheck⟩ := Kernel.exists_replay .lazy (bootKernel 40)
    [(0, .mapzero 8192), (0, .copyin 4096 1)]
    (fun events k => decide (events.map (fun e => e.outcome) = [.result 0, .copiedIn (some [0])] ∧
        (k.proc 0).state = .runnable) &&
      (runOp .lazy 0 (.load 4096) k).toOption.any fun r : Outcome × Kernel => decide (r.1 = .loaded 0))
    (by decide +kernel)
  obtain ⟨hrun, hops⟩ := Kernel.run_of_replay hreplay
  rw [Bool.and_eq_true, decide_eq_true_eq] at hcheck
  obtain ⟨⟨houtcomes, hstate⟩, hload⟩ := hcheck
  refine ⟨events, k, bootKernel_forty.1, hrun, hops, ?_, hstate, ?_⟩
  · rw [events_eq hops houtcomes]
    have hregion : (0 : ℤ) < (8192 : BitVec 32).toInt ∧ 0 ≤ 4096 ∧
        4096 < 0 + pageCount (8192 : BitVec 32).toInt.natAbs * 4096 := by decide
    exact ⟨.inl ⟨.inr hregion, notMem_empty _⟩, notMem_empty _⟩
  · obtain ⟨⟨o, k'⟩, hres, hload⟩ := exists_ok_of_any hload
    obtain rfl : o = .loaded 0 := of_decide_eq_true hload
    exact ⟨k', hres⟩

/-- The neighbours of a byte that the process has stored still read as `'A'`. -/
theorem mapzero_contents_stored : ∃ events k,
    Run (Kernel.MemoryMoves 0 Proc.ContentsSafe) (bootKernel 40) events k ∧
    events.map (fun e => (e.proc, e.op)) = [(0, .mapzero 8192), (0, .store 4096 66)] ∧
    4097 ∈ unwritten events ∧ Ensures (userLoad (k.proc 0) 4097) k.phys fun r s' =>
      r.1 = some regionByte ∨ (r.1 = none ∧ s'.exhausted = true) := by
  obtain ⟨events, k, hreplay, hcheck⟩ := Kernel.exists_replay .lazy (bootKernel 40)
    [(0, .mapzero 8192), (0, .store 4096 66)]
    (fun events k => decide (events.map (fun e => e.outcome) = [.result 0, .stored] ∧
      (k.proc 0).killed = false)) (by decide +kernel)
  obtain ⟨houtcomes, halive⟩ := of_decide_eq_true hcheck
  obtain ⟨-, hops⟩ := Kernel.run_of_replay hreplay
  obtain ⟨hboot, hinit⟩ := bootKernel_forty
  have hnew : (bootKernel 40).NewProcess 0 := hinit ▸ hboot.newProcess
  have hinactive : ∀ va, ¬ ((bootKernel 40).proc 0).InRegion va := by
    intro va hin
    have hactive := hin.1
    rw [hnew.region] at hactive
    cases hactive
  have hsz : ((bootKernel 40).proc 0).sz = 0 := by decide +kernel
  have hsafe : ((bootKernel 40).proc 0).ContentsSafe (bootKernel 40).phys (.mapzero 8192) := by
    intro _
    rw [hsz]
    refine ⟨rfl, by decide, by decide, fun v hv => absurd hv (hinactive _), ?_⟩
    intro v _ hv
    cases hleaf : leaf (bootKernel 40).phys.mem ((bootKernel 40).proc 0).pagetable v with
    | none => rfl
    | some w =>
      have hsmall : v * 4096 < 0 + pageCount 8192 * 4096 := hv
      have hlow : v < tfVpn := by
        change v < 67108862
        rw [pageCount] at hsmall
        omega
      have hbelow := hnew.below v w hleaf hlow
      rw [hsz] at hbelow
      exact absurd hbelow (Nat.not_lt_zero v)
  obtain ⟨o, k₁, rest, hstep, hrest, heq⟩ := Kernel.replay_cons hreplay
  have hrun : Run (Kernel.MemoryMoves 0 Proc.ContentsSafe) (bootKernel 40) events k := by
    rw [heq]
    refine Run.cons ⟨rfl, trivial, hsafe, hstep⟩ ?_
    apply Kernel.run_of_replay_good
      (fun q => q.1 = 0 ∧ q.2.OnMemory ∧ ∀ p s, Proc.ContentsSafe p s q.2) hrest
    · simp [Op.OnMemory, Proc.ContentsSafe]
    · intro t e u hmove hgood
      exact ⟨hgood.1, hgood.2.1, hgood.2.2 _ _, hmove⟩
  have hmem : 4097 ∈ unwritten events := by
    rw [events_eq hops houtcomes]
    have hregion : (0 : ℤ) < (8192 : BitVec 32).toInt ∧ 0 ≤ 4097 ∧
        4097 < 0 + pageCount (8192 : BitVec 32).toInt.natAbs * 4096 := by decide
    have hother : 4097 ≠ (4096 : BitVec 64).toNat := by decide
    exact ⟨.inl ⟨.inr hregion, notMem_empty _⟩, hother⟩
  have hlive : ((bootKernel 40).proc 0).Live := by decide +kernel
  refine ⟨events, k, hrun, hops, hmem, ?_⟩
  exact mapzero_contents hboot Run.nil hlive (fun hactive => absurd hactive (by rw [hnew.region]; decide))
    hrun halive 4097 hmem

end Concrete

end Xv6
