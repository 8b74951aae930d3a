import Xv6.Proc.Schemes

/-!
# Lazy `sbrk` is invisible

Two kernels run the same operations from the same state, one with lazy and one with eager `sbrk`. Their
processes see the same memory below their sizes after every operation, so all operations have the same
outcomes as long as memory lasts. An access between the size and the end of its page is left out: it
kills the process with lazy allocation and finds the page with eager allocation.
-/

namespace Xv6

open Kernel Library Vm

section Schemes

variable [KernelImage]

/-- Two kernels whose processes are in the same states and see the same memory. -/
structure Kernel.Twin (k e : Kernel) : Prop where
  left : k.Invariant
  right : e.Invariant
  state : ∀ j, (e.proc j).state = (k.proc j).state
  alive : ∀ j, (k.proc j).state = .runnable →
    (k.proc j).killed = false ∧ (e.proc j).killed = false
  twins : ∀ j, (k.proc j).Live → Twins (k.proc j) k.phys (e.proc j) e.phys
  nextpid : e.nextpid = k.nextpid
  initproc : e.initproc = k.initproc

section Others

variable {k k' : Kernel} {i j : Fin NPROC} {p q : Proc} {s s' : Phys}

/-- The memory of a process which is not touched. -/
structure Untouched (p : Proc) (s s' : Phys) : Prop where
  tables : ∀ t ∈ tables s.mem p.pagetable, s'.mem t = s.mem t
  pages : ∀ v w, leaf s.mem p.pagetable v = some w → s'.mem (PTE2PA w) = s.mem (PTE2PA w)

/-- An operation on the memory of one process leaves that of the others alone. -/
theorem Kernel.Layout.untouched_by (h : k.Layout) (hi : (k.proc i).Live) (hj : (k.proc j).Live)
    (hij : j ≠ i) (hshm : (k.proc j).shmVa = 0)
    (hframe : ∀ x, x ∉ resources k.phys (k.proc i).pagetable → s'.mem x = k.phys.mem x) :
    Untouched (k.proc j) k.phys s' := by
  constructor
  · intro t ht
    obtain ⟨hfree, hreach⟩ := h.table_out (i := i) hij hj ht
    exact hframe t fun hres => hres.2.elim (hreach hi) hfree
  · intro v w hw
    obtain ⟨hfree, -⟩ := h.page_out hj hw
    apply hframe
    intro hres
    obtain hreach | hin := hres.2
    · have hmem : PTE2PA w ∈ (k.proc j).reached k.phys := mem_reach_three.2 (.inr ⟨v, w, hw, rfl⟩)
      have hshared := h.apart i j _ hij.symm hi hj hres.1 hreach hmem
      exact ((h.slot j hj).only (hshared ▸ hres.1.ne_zero) v w hw hshared).1 hshm
    · exact hfree hin

/-- Taking pages from the free list leaves every process alone. -/
theorem Kernel.Layout.untouched_of_free (h : k.Layout) (hj : (k.proc j).Live)
    (hframe : ∀ x, x ∉ k.phys.freelist → s'.mem x = k.phys.mem x) : Untouched (k.proc j) k.phys s' where
  tables t ht := hframe t ((h.slot j hj).not_free (reach_mono _ (by decide) _ ht))
  pages v w hw := hframe _ (h.page_out hj hw).1

omit [KernelImage] in
/-- A process sees the same as before if its tables and its pages are untouched. -/
theorem view_congr (hsame : ∀ t ∈ tables s.mem p.pagetable, s'.mem t = s.mem t)
    (hpages : ∀ v w, leaf s.mem p.pagetable v = some w → s'.mem (PTE2PA w) = s.mem (PTE2PA w)) :
    view s' p = view s p := by
  have hleaf := leaf_congr hsame
  funext v
  cases hw : leaf s.mem p.pagetable v with
  | none => rw [view_of_none hw, view_of_none ((hleaf v).trans hw)]
  | some w => rw [view_of_leaf hw, view_of_leaf ((hleaf v).trans hw), hpages v w hw]

/-- A process that is not touched sees the same as before. -/
theorem Untouched.heap (hu : Untouched p s s') (h : p.Heap s) (hsame : p.SameMemory q) (hok : q.Ok s') :
    q.Heap s' ∧ view s' q = view s p := by
  refine ⟨⟨hok, h.plain.of_same hsame ?_⟩, ?_⟩
  · intro v w hw hv
    rw [leaf_congr hu.tables] at hw
    exact h.plain.below v w hw hv
  · rw [hsame.view_eq, view_congr hu.tables hu.pages]

/-- Two processes that are alike and not touched stay alike. -/
theorem Twins.untouched {p' q' : Proc} {t t' : Phys} (h : Twins p s q t) (hu : Untouched p s s')
    (hu' : Untouched q t t') (hsame : p.SameMemory p') (hsame' : q.SameMemory q') (hok : p'.Ok s')
    (hok' : q'.Ok t') : Twins p' s' q' t' := by
  obtain ⟨hheap, hview⟩ := hu.heap h.left hsame hok
  obtain ⟨hheap', hview'⟩ := hu'.heap h.right hsame' hok'
  refine ⟨hheap, hheap', ?_, ?_⟩
  · rw [hsame.sz, hsame'.sz, h.size]
  · rw [hsame.sz, hview, hview']
    exact h.seen

/-- The processes of both kernels are alive together. -/
theorem Kernel.Twin.live {e : Kernel} (h : k.Twin e) : (e.proc j).Live ↔ (k.proc j).Live := by
  rw [Proc.Live, Proc.Live, h.state]

omit [KernelImage] in
/-- The slots after an operation on the memory of one process. -/
theorem Kernel.AfterMem.slots {o : Outcome} (h : k.AfterMem i o p s k') :
    (∀ j, j ≠ i → ∃ parent, k'.proc j = { k.proc j with parent := parent }) ∧
      (o ≠ .gone → k'.proc i = p) ∧ (o = .gone → (k'.proc i).state = .zombie) ∧
      k'.nextpid = k.nextpid ∧ k'.initproc = k.initproc := by
  obtain ⟨hgo, rfl⟩ | ⟨rfl, -, rfl⟩ := h
  · refine ⟨fun j hj => ⟨(k.proc j).parent, ?_⟩, fun _ => ?_, fun hgone => absurd hgone hgo, rfl, rfl⟩
    · exact setProc_proc_of_ne _ hj p
    · exact setProc_proc_self _ i p
  · refine ⟨fun j hj => ?_, fun hne => absurd rfl hne, fun _ => ?_, rfl, rfl⟩
    · obtain ⟨parent, hparent⟩ := reparented_proc (k := { k with phys := s }.setProc i p) (i := i) j
      refine ⟨parent, ?_⟩
      rw [exited, setProc_proc_of_ne _ hj, hparent, setProc_proc_of_ne _ hj]
    · obtain ⟨parent, hself⟩ := exited_self ({ k with phys := s }.setProc i p) i (-1)
      rw [hself]

end Others

section Step

variable {k k' e e' : Kernel} {i : Fin NPROC} {op : Op} {o o' : Outcome} {p q : Proc} {s t : Phys}

/-- An operation of one process in both kernels keeps them alike if the process itself stays alike. -/
theorem Kernel.Twin.of_process (h : k.Twin e) (hi : (k.proc i).Live) (hk : k.AfterMem i o p s k')
    (he : e.AfterMem i o q t e') (hinv : k'.Invariant) (hinv' : e'.Invariant)
    (hstep : SpaceStep (k.proc i).pagetable k.phys s) (hstep' : SpaceStep (e.proc i).pagetable e.phys t)
    (hp : p.state = (k.proc i).state) (hq : q.state = (e.proc i).state)
    (halive : o ≠ .gone → p.killed = false ∧ q.killed = false) (htwins : Twins p s q t) : k'.Twin e' := by
  obtain ⟨hphys, hsame, -, helse, -⟩ := hk.spec
  obtain ⟨hphys', hsame', -, helse', -⟩ := he.spec
  obtain ⟨hothers, hgo, hgone, hpid, hinit⟩ := hk.slots
  obtain ⟨hothers', hgo', hgone', hpid', hinit'⟩ := he.slots
  refine ⟨hinv, hinv', ?_, ?_, ?_, ?_, ?_⟩
  · intro j
    by_cases hji : j = i
    · subst hji
      by_cases ho : o = .gone
      · rw [hgone ho, hgone' ho]
      · rw [hgo ho, hgo' ho, hp, hq, h.state]
    · obtain ⟨_, hj⟩ := hothers j hji
      obtain ⟨_, hj'⟩ := hothers' j hji
      rw [hj, hj']
      exact h.state j
  · intro j hrunnable
    by_cases hji : j = i
    · subst hji
      by_cases ho : o = .gone
      · rw [hgone ho] at hrunnable
        cases hrunnable
      · rw [hgo ho, hgo' ho]
        exact halive ho
    · obtain ⟨_, hj⟩ := hothers j hji
      obtain ⟨_, hj'⟩ := hothers' j hji
      rw [hj] at hrunnable ⊢
      rw [hj']
      exact h.alive j hrunnable
  · intro j hlive
    have hlive' : (e'.proc j).Live ↔ (k'.proc j).Live := by
      by_cases hji : j = i
      · subst hji
        by_cases ho : o = .gone
        · rw [Proc.Live, Proc.Live, hgone ho, hgone' ho]
        · rw [Proc.Live, Proc.Live, hgo ho, hgo' ho, hp, hq, h.state]
      · rw [helse.live j hji, helse'.live j hji, h.live]
    have hok := (hinv.layout.slot j hlive).ok
    have hok' := (hinv'.layout.slot j (hlive'.2 hlive)).ok
    rw [hphys] at hok ⊢
    rw [hphys'] at hok' ⊢
    by_cases hji : j = i
    · subst hji
      have hunmoved : Untouched p s s := ⟨fun _ _ => rfl, fun _ _ _ => rfl⟩
      have hunmoved' : Untouched q t t := ⟨fun _ _ => rfl, fun _ _ _ => rfl⟩
      exact htwins.untouched hunmoved hunmoved' hsame hsame' hok hok'
    · have hj := (helse.live j hji).1 hlive
      have htwin := h.twins j hj
      have hun := h.left.layout.untouched_by hi hj hji htwin.left.plain.unshared hstep.frame
      have hun' := h.right.layout.untouched_by (h.live.2 hi) (h.live.2 hj) hji htwin.right.plain.unshared hstep'.frame
      exact htwin.untouched hun hun' (helse.same j hji) (helse'.same j hji) hok hok'
  · rw [hpid, hpid', h.nextpid]
  · rw [hinit, hinit', h.initproc]

/-- A user access that finds its page has not killed the process. -/
theorem userAccess_alive {va flag : ℕ} (halive : p.killed = false) :
    Allows (userAccess p va flag) s fun r _ => r.1 ≠ none → r.2.killed = false := by
  rw [userAccess, allows_bind, allows_get]
  cases hwTranslate s.mem p.pagetable va flag with
  | some pa => exact (allows_pure _ _ _).2 fun _ => halive
  | none =>
    dsimp only
    rw [allows_bind]
    intro p' s' _
    by_cases hkilled : p'.killed = true
    · rw [if_pos hkilled]
      exact (allows_pure _ _ _).2 fun hne => absurd rfl hne
    · rw [if_neg hkilled, allows_bind, allows_get]
      exact (allows_pure _ _ _).2 fun _ => Bool.eq_false_of_not_eq_true hkilled

/-- A process that goes on after an access has not been killed. -/
theorem runOp_alive (hop : op.IsAccess) (halive : (k.proc i).killed = false) :
    Allows (runOp .lazy i op) k fun o k' => o ≠ .gone → (k'.proc i).killed = false := by
  cases op with
  | load va =>
    rw [runOp, allows_bind, allows_onProc, userLoad, allows_bind]
    refine (userAccess_alive halive).mono ?_
    intro r s' hr
    obtain ⟨pa, p'⟩ := r
    cases pa with
    | none =>
      refine (allows_pure _ _ _).2 ?_
      dsimp only
      rw [allows_bind]
      exact fun _ _ _ => (allows_pure _ _ _).2 fun hne => absurd rfl hne
    | some pa =>
      dsimp only
      rw [allows_bind, allows_get, allows_pure]
      refine (allows_pure _ _ _).2 fun _ => ?_
      rw [setProc_proc_self]
      exact hr (Option.some_ne_none pa)
  | store va byte =>
    rw [runOp, allows_bind, allows_onProc, userStore, allows_bind]
    refine (userAccess_alive halive).mono ?_
    intro r s' hr
    obtain ⟨pa, p'⟩ := r
    cases pa with
    | none =>
      refine (allows_pure _ _ _).2 ?_
      rw [if_neg Bool.false_ne_true, allows_bind]
      exact fun _ _ _ => (allows_pure _ _ _).2 fun hne => absurd rfl hne
    | some pa =>
      dsimp only
      rw [allows_bind, allows_modify, allows_pure, if_pos rfl]
      refine (allows_pure _ _ _).2 fun _ => ?_
      rw [setProc_proc_self]
      exact hr (Option.some_ne_none pa)
  | copyin | copyout =>
    rw [runOp, allows_bind, allows_onProc, allows_bind]
    intro r s' _
    rw [allows_pure]
    refine (allows_pure _ _ _).2 fun _ => ?_
    rw [setProc_proc_self]
    exact halive
  | sbrk | mapzero | mapRo | setshm | fork | exec | exit | wait => exact absurd hop id

/-- An access in both kernels has the same outcome. -/
theorem Kernel.Twin.access (h : k.Twin e) (hop : op.IsAccess) (hheap : (k.proc i).HeapOp k.phys op)
    (hheap' : (e.proc i).HeapOp e.phys op) (hk : k.Step .lazy i op o k') (he : e.Step .lazy i op o' e')
    (hs : k'.phys.exhausted = false)
    (ht : e'.phys.exhausted = false) : o' = o ∧ k'.Twin e' := by
  have hi := hk.live
  have hei := he.live
  have htwins := h.twins i hi
  obtain ⟨hkilled, hkilled'⟩ := h.alive i hk.1
  obtain ⟨hmem, hadmits⟩ : op.OnMemory ∧ ∀ k : Kernel, k.Admits i op := by
    cases op with
    | load | store | copyin | copyout => exact ⟨trivial, fun _ => trivial⟩
    | sbrk | mapzero | mapRo | setshm | fork | exec | exit | wait => exact absurd hop id
  obtain ⟨p', s', heffect, hafter⟩ := hk.memEffect htwins.left.ok hmem
  obtain ⟨q', t', heffect', hafter'⟩ := he.memEffect htwins.right.ok hmem
  have hphys := hafter.spec.1
  have hphys' := hafter'.spec.1
  obtain ⟨rfl, htwins'⟩ := htwins.access hkilled hkilled' hop hheap hheap' heffect heffect' (hphys ▸ hs) (hphys' ▸ ht)
  obtain ⟨hsame, hg⟩ := heffect.access htwins.left.ok hop
  obtain ⟨hsame', hg'⟩ := heffect'.access htwins.right.ok hop
  refine ⟨rfl, h.of_process hi hafter hafter' (h.left.of_memory hmem (hadmits k) hk)
    (h.right.of_memory hmem (hadmits e) he) hg.step hg'.step ?_ ?_ ?_ htwins'⟩
  · exact (heffect.sound htwins.left.ok (h.left.layout.slot i hi).mapRo (hadmits k).fits).handles.state
  · exact (heffect'.sound htwins.right.ok (h.right.layout.slot i hei).mapRo (hadmits e).fits).handles.state
  · intro hne
    have hself := hafter.slots.2.1 hne
    have hself' := hafter'.slots.2.1 hne
    rw [← hself, ← hself']
    exact ⟨runOp_alive hop hkilled _ _ hk.2 hne, runOp_alive hop hkilled' _ _ he.2 hne⟩

/-- The kernel after one of its processes has been resized. -/
theorem Kernel.Invariant.of_resized {n : ℤ} {r : ℕ × Proc} (h : k.Invariant) (hi : (k.proc i).Live)
    (hr : Resized (k.proc i) k.phys n r s) (hplain : (k.proc i).Plain k.phys) :
    ({ k with phys := s }.setProc i r.2).Invariant := by
  have hself : ({ k with phys := s }.setProc i r.2).proc i = r.2 := setProc_proc_self _ i r.2
  have hshm := hplain.unshared
  refine h.of_step hi (elsewhere_setProc k i r.2 s) ?_ rfl rfl hr.step ?_ ?_ ?_ ?_ ?_ ?_
  · rw [hself, hr.result]
    exact hi
  · rw [hself, hr.result]
  · rw [hself, hr.result]
    exact hr.heap.ok
  · rw [hself, hr.result]
    exact (h.layout.slot i hi).mapRo
  · rw [hself, hr.result]
  · exact fun hne => absurd hshm hne
  · exact fun _ hne => absurd hshm hne

/-- `sbrk` in both kernels, each by its own scheme. -/
theorem Kernel.Twin.sbrk {n : BitVec 32} (h : k.Twin e) (hk : k.Step .lazy i (.sbrk n) o k')
    (he : e.Step .eager i (.sbrk n) o' e') (ht : e'.phys.exhausted = false) : o' = o ∧ k'.Twin e' := by
  have hi := hk.live
  have htwins := h.twins i hi
  obtain ⟨hkilled, hkilled'⟩ := h.alive i hk.1
  have hlazy : Allows (runOp .lazy i (.sbrk n)) k fun o k' => ∃ r s,
      Resized (k.proc i) k.phys n.toInt r s ∧ o = .result r.1 ∧ k' = { k with phys := s }.setProc i r.2 := by
    rw [runOp, allows_bind, allows_onProc]
    refine (sysSbrk_resized htwins.left (natAbs_toInt_le n)).allows.mono ?_
    intro r s hr
    exact (allows_pure _ _ _).2 ⟨r, s, hr, rfl, rfl⟩
  have heager : Allows (runOp .eager i (.sbrk n)) e fun o e' => ∃ r t,
      (t.exhausted = true ∨ Resized (e.proc i) e.phys n.toInt r t) ∧ o = .result r.1 ∧
        e' = { e with phys := t }.setProc i r.2 := by
    rw [runOp, allows_bind, allows_onProc]
    refine (sysSbrkEager_resized htwins.right (natAbs_toInt_le n)).allows.mono ?_
    intro r t hr
    exact (allows_pure _ _ _).2 ⟨r, t, hr, rfl, rfl⟩
  obtain ⟨r, s, hr, rfl, rfl⟩ := hlazy o k' hk.2
  obtain ⟨r', t, hr', rfl, rfl⟩ := heager o' e' he.2
  have hr' := hr'.resolve_left fun hex => by
    change t.exhausted = false at ht
    rw [ht] at hex
    cases hex
  obtain ⟨hresult, htwins'⟩ := htwins.resized hr hr'
  refine ⟨by rw [hresult], h.of_process hi (o := .result r.1) (.inl ⟨by simp, rfl⟩)
    (.inl ⟨by simp, rfl⟩) (h.left.of_resized hi hr htwins.left.plain)
    (h.right.of_resized (h.live.2 hi) hr' htwins.right.plain) hr.step hr'.step ?_ ?_ ?_ htwins'⟩
  · rw [hr.result]
  · rw [hr'.result]
  · intro _
    rw [hr.result, hr'.result]
    exact ⟨hkilled, hkilled'⟩

omit [KernelImage] in
/-- Slots in the same states have the same first free one. -/
theorem unusedSlot_congr (hstate : ∀ j, (e.proc j).state = (k.proc j).state) : e.unusedSlot = k.unusedSlot := by
  rw [unusedSlot, unusedSlot]
  congr 1
  funext j
  rw [hstate]

/-- Two kernels in which a child has been made are alike. -/
theorem Kernel.Twin.child {np : Fin NPROC} {tf root tf' root' : ℕ} (h : k.Twin e) (hi : (k.proc i).Live)
    (hnp : k.unusedSlot = some np) (hmem : ChildMemory k i root tf s) (hmem' : ChildMemory e i root' tf' t)
    (hk : k' = k.staged np { childProc (k.proc i) i k.nextpid tf root with state := .runnable } s)
    (he : e' = e.staged np { childProc (e.proc i) i e.nextpid tf' root' with state := .runnable } t)
    (hinv : k'.Invariant) (hinv' : e'.Invariant) : k'.Twin e' := by
  have htwins := h.twins i hi
  have hself := staged_proc_self k np { childProc (k.proc i) i k.nextpid tf root with state := .runnable } s
  have hself' := staged_proc_self e np { childProc (e.proc i) i e.nextpid tf' root' with state := .runnable } t
  rw [← hk] at hself
  rw [← he] at hself'
  have hother : ∀ j, j ≠ np → k'.proc j = k.proc j := by
    intro j hj
    rw [hk]
    exact staged_proc_of_ne k hj _ s
  have hother' : ∀ j, j ≠ np → e'.proc j = e.proc j := by
    intro j hj
    rw [he]
    exact staged_proc_of_ne e hj _ t
  have hphys : k'.phys = s := by
    rw [hk]
    rfl
  have hphys' : e'.phys = t := by
    rw [he]
    rfl
  refine ⟨hinv, hinv', ?_, ?_, ?_, ?_, ?_⟩
  · intro j
    by_cases hj : j = np
    · rw [hj, hself, hself']
    · rw [hother j hj, hother' j hj, h.state]
  · intro j hrunnable
    by_cases hj : j = np
    · rw [hj, hself, hself']
      exact ⟨rfl, rfl⟩
    · rw [hother j hj] at hrunnable ⊢
      rw [hother' j hj]
      exact h.alive j hrunnable
  · intro j hlive
    rw [hphys, hphys']
    by_cases hj : j = np
    · subst hj
      obtain ⟨hheap, hview⟩ := hmem.view_eq h.left.layout htwins.left (q := k'.proc j)
        (by rw [hself]; rfl) (by rw [hself]; rfl) (by rw [hself]; rfl) (by rw [hself]; rfl)
        (by rw [hself]; rfl) (by rw [hself]; rfl) (by rw [hself]; rfl)
      obtain ⟨hheap', hview'⟩ := hmem'.view_eq h.right.layout htwins.right (q := e'.proc j)
        (by rw [hself']; rfl) (by rw [hself']; rfl) (by rw [hself']; rfl) (by rw [hself']; rfl)
        (by rw [hself']; rfl) (by rw [hself']; rfl) (by rw [hself']; rfl)
      have hsz : (k'.proc j).sz = (k.proc i).sz := by
        rw [hself]
        rfl
      have hsz' : (e'.proc j).sz = (e.proc i).sz := by
        rw [hself']
        rfl
      refine ⟨hheap, hheap', ?_, ?_⟩
      · rw [hsz, hsz', htwins.size]
      · intro v hv
        rw [hsz] at hv
        rw [hview v hv, hview' v (htwins.size ▸ hv), htwins.seen v hv]
    · have hjlive : (k.proc j).Live := by
        rw [← hother j hj]
        exact hlive
      have hejlive := h.live.2 hjlive
      have htwin := h.twins j hjlive
      have hok := (hinv.layout.slot j hlive).ok
      have hok' := (hinv'.layout.slot j (by rw [hother' j hj]; exact hejlive)).ok
      rw [hphys, hother j hj] at hok
      rw [hphys', hother' j hj] at hok'
      have hun := h.left.layout.untouched_of_free hjlive hmem.frame
      have hun' := h.right.layout.untouched_of_free hejlive hmem'.frame
      rw [hother j hj, hother' j hj]
      exact htwin.untouched hun hun' (.refl _) (.refl _) hok hok'
  · rw [hk, he]
    change e.nextpid + 1 = k.nextpid + 1
    rw [h.nextpid]
  · rw [hk, he]
    exact h.initproc

/-- `fork` in both kernels. -/
theorem Kernel.Twin.fork (h : k.Twin e) (hk : k.Step .lazy i .fork o k') (he : e.Step .lazy i .fork o' e')
    (hs : k'.phys.exhausted = false) (ht : e'.phys.exhausted = false) : o' = o ∧ k'.Twin e' := by
  have hi := hk.live
  have htwins := h.twins i hi
  have hrule : ∀ k : Kernel, k.Invariant → (k.proc i).Live →
      (k.proc i).usarMemoriaCompartida = false →
      Allows (runOp .lazy i .fork) k fun o k' => ∃ r, o = .result (toUInt64 r) ∧ ForkUnshared k i r k' := by
    intro k hinv hlive husar
    rw [runOp, allows_bind]
    refine (kfork_unshared hinv hlive husar).allows.mono ?_
    intro r k' hr
    exact (allows_pure _ _ _).2 ⟨r, rfl, hr⟩
  obtain ⟨r, rfl, hr⟩ := hrule k h.left hi htwins.left.plain.usar o k' hk.2
  obtain ⟨r', rfl, hr'⟩ := hrule e h.right he.live htwins.right.plain.usar o' e' he.2
  have hslots := unusedSlot_congr h.state
  obtain ⟨rfl, -, hreason⟩ | ⟨np, tf, root, s, rfl, hnp, hmem, heq, hinv⟩ := hr
  · obtain ⟨hnone, rfl⟩ := hreason.resolve_right (by rw [hs]; exact Bool.false_ne_true)
    obtain ⟨rfl, -, hreason'⟩ | ⟨np', _, _, _, -, hnp', -⟩ := hr'
    · obtain ⟨-, rfl⟩ := hreason'.resolve_right (by rw [ht]; exact Bool.false_ne_true)
      exact ⟨rfl, h⟩
    · rw [hslots, hnone] at hnp'
      cases hnp'
  · obtain ⟨rfl, -, hreason'⟩ | ⟨np', tf', root', t, rfl, hnp', hmem', heq', hinv'⟩ := hr'
    · obtain ⟨hnone', -⟩ := hreason'.resolve_right (by rw [ht]; exact Bool.false_ne_true)
      rw [hslots, hnp] at hnone'
      cases hnone'
    · rw [hslots, hnp] at hnp'
      obtain rfl := Option.some.inj hnp'
      refine ⟨by rw [h.nextpid], h.child hi hnp hmem hmem' heq heq' hinv hinv'⟩

/-- Both kernels make a step on the heap: the outcomes are the same, and the kernels stay alike. -/
theorem Kernel.Twin.step (h : k.Twin e) (hheap : (k.proc i).HeapOp k.phys op)
    (hheap' : (e.proc i).HeapOp e.phys op) (hk : k.Step .lazy i op o k') (he : e.Step .eager i op o' e')
    (hs : k'.phys.exhausted = false)
    (ht : e'.phys.exhausted = false) : o' = o ∧ k'.Twin e' := by
  cases op with
  | sbrk n => exact h.sbrk hk he ht
  | fork => exact h.fork hk he hs ht
  | load | store | copyin | copyout =>
    refine h.access ?_ hheap hheap' hk he hs ht
    trivial
  | mapzero | mapRo | setshm | exec | exit | wait => exact absurd hheap id

/-- No operation on the heap stops the kernel, unless it kills the first process. -/
theorem Proc.HeapOp.yields (hop : p.HeapOp s op) (h : k.Invariant) (hi : (k.proc i).Live)
    (hheap : (k.proc i).Heap k.phys) (scheme : Scheme) :
    Yields (runOp scheme i op) k (fun _ _ => True) (fun e => e = .initExiting) := by
  have hregion : ∀ va flag, (k.proc i).InRegion va → ∀ w,
      leaf k.phys.mem (k.proc i).pagetable (va / 4096) = some w → (hasFlag w PTE_U && hasFlag w flag) = true :=
    fun va _ hin => absurd hin (hheap.plain.not_inRegion va)
  cases op with
  | sbrk n =>
    rw [runOp, yields_bind, yields_onProc]
    apply Ensures.yields
    cases scheme with
    | lazy =>
      refine (sysSbrk_resized hheap (natAbs_toInt_le n)).mono ?_
      exact fun _ _ _ => (yields_pure _ _ _ _).2 trivial
    | eager =>
      refine (sysSbrkEager_resized hheap (natAbs_toInt_le n)).mono ?_
      exact fun _ _ _ => (yields_pure _ _ _ _).2 trivial
  | fork =>
    rw [runOp, yields_bind]
    apply Ensures.yields
    refine (kfork_unshared h hi hheap.plain.usar).mono ?_
    exact fun _ _ _ => (yields_pure _ _ _ _).2 trivial
  | load va =>
    rw [runOp, yields_bind, yields_onProc]
    apply Ensures.yields
    refine (userLoad_spec hheap.ok (hregion _ _)).mono ?_
    intro r s' _
    obtain ⟨b, p'⟩ := r
    cases b with
    | none => exact kexit_yields
    | some b => exact (yields_pure _ _ _ _).2 trivial
  | store va byte =>
    rw [runOp, yields_bind, yields_onProc]
    apply Ensures.yields
    refine (userStore_spec hheap.ok (hregion _ _)).mono ?_
    intro r s' _
    obtain ⟨b, p'⟩ := r
    cases b with
    | false =>
      rw [if_neg Bool.false_ne_true]
      exact kexit_yields
    | true =>
      rw [if_pos rfl]
      exact (yields_pure _ _ _ _).2 trivial
  | copyin va len =>
    rw [runOp, yields_bind, yields_onProc, yields_bind]
    apply Ensures.yields
    refine (copyin_spec _ _ _ hheap.ok).mono ?_
    intro r s' _
    rw [yields_pure]
    exact (yields_pure _ _ _ _).2 trivial
  | copyout va bytes =>
    rw [runOp, yields_bind, yields_onProc, yields_bind]
    apply Ensures.yields
    refine (copyout_spec _ _ _ hheap.ok).mono ?_
    intro r s' _
    rw [yields_pure]
    exact (yields_pure _ _ _ _).2 trivial
  | mapzero | mapRo | setshm | exec | exit | wait => exact absurd hop id

end Step

/-- The moves on the heap under a scheme, as long as memory lasts. -/
structure Kernel.HeapMoves (scheme : Scheme) (k : Kernel) (e : Event) (k' : Kernel) : Prop where
  moves : k.Moves scheme e k'
  heap : (k.proc e.proc).HeapOp k.phys e.op
  memory : k'.phys.exhausted = false

/-- A state from which the schemes can be compared: no process uses `map_ro`, `mapzero` or shared
memory, and no process that may run has been killed. -/
structure Kernel.HeapOnly (k : Kernel) : Prop where
  plain : ∀ j, (k.proc j).Live → (k.proc j).Plain k.phys
  alive : ∀ j, (k.proc j).state = .runnable → (k.proc j).killed = false

theorem Kernel.HeapOnly.twin {k : Kernel} (h : k.HeapOnly) (hinv : k.Invariant) : k.Twin k := by
  refine ⟨hinv, hinv, fun _ => rfl, fun j hj => ⟨h.alive j hj, h.alive j hj⟩, ?_, rfl, rfl⟩
  intro j hj
  have hheap : (k.proc j).Heap k.phys := ⟨(hinv.layout.slot j hj).ok, h.plain j hj⟩
  exact ⟨hheap, hheap, rfl, fun _ _ => rfl⟩

/-- The kernel after its start is such a state. -/
theorem Kernel.Boot.heapOnly {k : Kernel} (h : k.Boot) : k.HeapOnly := by
  obtain ⟨k₀, tf, root, hb⟩ := h.booted
  have hnew := h.newProcess
  constructor
  · intro j hj
    by_cases hinit : j = k.initproc
    · subst hinit
      refine ⟨?_, ?_, hnew.mapRo, hnew.region, hnew.below⟩
      · rw [hb.first]
        rfl
      · rw [hb.first]
        rfl
    · rw [hb.others j hinit] at hj
      exact absurd rfl hj
  · intro j hj
    by_cases hinit : j = k.initproc
    · rw [hinit, hb.first]
      rfl
    · rw [hb.others j hinit]
      rfl

/-- It stays one when a process starts another program. -/
theorem Kernel.HeapOnly.of_exec {k k' : Kernel} {i : Fin NPROC} {path : List UInt8} {file : Option ExecFile}
    {argv : List (List UInt8)} {o : Outcome} (h : k.HeapOnly) (hinv : k.Invariant) (hargv : ArgvOk argv)
    (hstep : k.Step .lazy i (.exec path file argv) o k') : k'.HeapOnly := by
  have hlive := hstep.live
  have hok := (hinv.layout.slot i hlive).ok
  have hplain := h.plain i hlive
  have hrun : Allows (runOp .lazy i (.exec path file argv)) k fun _ k' => k'.HeapOnly := by
    rw [runOp, allows_bind, allows_onProc]
    refine (kexec_spec hok hargv).1.mono ?_
    intro r s' hr
    rw [allows_pure]
    -- the process itself, and the pages that are not its own
    obtain ⟨hself, hkilled, hframe⟩ : r.2.Plain s' ∧ r.2.killed = (k.proc i).killed ∧
        ∀ x, x ∉ resources k.phys (k.proc i).pagetable → s'.mem x = k.phys.mem x := by
      obtain ⟨rfl, hfail⟩ | ⟨-, hdone⟩ := hr
      · obtain ⟨hsp, hleaf⟩ := hfail.spaceStep hok
        refine ⟨hplain.of_same (.refl _) fun v w hw => ?_, rfl, hsp.frame⟩
        exact hplain.below v w ((hleaf v).symm.trans hw)
      · refine ⟨hdone.plain hplain, ?_, hdone.frame⟩
        rw [hdone.record]
    refine ⟨fun j hj => ?_, fun j hj => ?_⟩
    · by_cases hji : j = i
      · rw [hji, setProc_proc_self]
        exact hself
      · rw [setProc_proc_of_ne _ hji] at hj ⊢
        have hu := hinv.layout.untouched_by hlive hj hji (h.plain j hj).unshared hframe
        refine (h.plain j hj).of_same (.refl _) fun v w hw => ?_
        exact (h.plain j hj).below v w ((leaf_congr hu.tables v).symm.trans hw)
    · by_cases hji : j = i
      · rw [hji, setProc_proc_self, hkilled]
        exact h.alive i hstep.1
      · rw [setProc_proc_of_ne _ hji] at hj ⊢
        exact h.alive j hj
  exact hrun o k' hstep.2

/-- From every state reached by guarded moves in which no process uses the special mappings, two runs of
the same operations on the heap, one with lazy and one with eager `sbrk`, have the same outcomes as long
as memory lasts under both; and no further operation on the heap stops either kernel, unless it kills
the first process. -/
theorem lazy_sbrk_invisible {k₀ k₁ k e : Kernel} {events₀ events events' : List Event}
    (hboot : k₀.Boot) (hbefore : Run Kernel.Guarded k₀ events₀ k₁) (hheap : k₁.HeapOnly)
    (hlazy : Run (Kernel.HeapMoves .lazy) k₁ events k)
    (heager : Run (Kernel.HeapMoves .eager) k₁ events' e)
    (hops : List.Forall₂ (fun a b => b.proc = a.proc ∧ b.op = a.op) events events') :
    events' = events ∧ ∀ i op, (k.proc i).state = .runnable → (k.proc i).HeapOp k.phys op →
      Yields (runOp .lazy i op) k (fun _ _ => True) (fun e => e = .initExiting) ∧
      Yields (runOp .eager i op) e (fun _ _ => True) (fun e => e = .initExiting) := by
  have htwin := hheap.twin (hboot.invariant.of_run hbefore)
  have hsame : k.Twin e ∧ List.Forall₂ (fun a b => b = a) events events' := by
    refine Run.lockstep Kernel.Twin hops hlazy heager htwin ?_
    intro k e a b k' e' h hk he hab
    obtain ⟨hproc, hop⟩ := hab
    have hb := he.moves
    have hheap' := he.heap
    rw [Kernel.Moves, hproc, hop] at hb
    rw [hproc, hop] at hheap'
    obtain ⟨hout, htwin'⟩ := h.step hk.heap hheap' hk.moves hb hk.memory he.memory
    refine ⟨htwin', ?_⟩
    obtain ⟨i, op, o⟩ := a
    obtain ⟨i', op', o'⟩ := b
    obtain rfl : i' = i := hproc
    obtain rfl : op' = op := hop
    obtain rfl : o' = o := hout
    rfl
  obtain ⟨hend, heq⟩ := hsame
  refine ⟨?_, ?_⟩
  · have hflip : List.Forall₂ (fun a b => a = b) events' events := heq.flip
    rwa [List.forall₂_eq_eq_eq] at hflip
  · intro i op hrun hop
    have hi : (k.proc i).Live := .of_runnable hrun
    have htwins := hend.twins i hi
    exact ⟨hop.yields hend.left hi htwins.left .lazy, hop.yields hend.right (hend.live.2 hi) htwins.right .eager⟩

end Schemes

section Concrete

attribute [local instance] linkedImage

instance Proc.decidableCompared (p : Proc) (s : Phys) (va : ℕ) : Decidable (p.Compared s va) :=
  inferInstanceAs (Decidable (_ ∧ (_ → _) ∨ _))

instance Proc.decidableHeapOp (p : Proc) (s : Phys) (op : Op) : Decidable (p.HeapOp s op) :=
  match op with
  | .sbrk _ | .copyin _ _ | .copyout _ _ | .fork => inferInstanceAs (Decidable True)
  | .load va | .store va _ => inferInstanceAs (Decidable (p.Compared s va.toNat))
  | .mapzero _ | .mapRo _ | .setshm | .exec _ _ _ | .exit _ | .wait _ => inferInstanceAs (Decidable False)

/-- A move passes the check if it is an operation on the heap and memory lasts. -/
def Kernel.heapMove (k : Kernel) (e : Event) (k' : Kernel) : Bool :=
  decide ((k.proc e.proc).HeapOp k.phys e.op ∧ k'.phys.exhausted = false)

/-- A page that a process touches, cuts through, gets back and hands down to its child. -/
def regrownOps (i j : Fin NPROC) : List (Fin NPROC × Op) :=
  [(i, .sbrk 8192), (i, .store 17000 77), (i, .sbrk (-4000)), (i, .sbrk 4000), (i, .fork), (j, .load 17000),
    (j, .load 0)]

/-- A child grows its heap by a part of a page and loads a byte of the rest of the page. -/
def restOps (i j : Fin NPROC) : List (Fin NPROC × Op) := [(i, .fork), (j, .sbrk 100), (j, .load 12488)]

/-- Both lists of operations, with lazy and with eager allocation, in a state. The child that has read
above its size can read below it only with eager allocation. -/
def Kernel.schemesCheck (i j : Fin NPROC) (_ : List Event) (k : Kernel) : Bool :=
  ((k.replayWhen .lazy heapMove (regrownOps i j)).any fun r =>
    decide ((r.1.map fun e => e.outcome).drop 5 = [.loaded 77, .loaded 127])) &&
  (k.replayWhen .eager heapMove (regrownOps i j)).isSome &&
  ((k.replay .lazy (restOps i j)).any fun r => decide (r.2.phys.exhausted = false ∧
    (r.1.map fun e => e.outcome) = [.result 2, .result 12288, .gone] ∧ (r.2.proc j).state = .zombie)) &&
  ((k.replay .eager (restOps i j ++ [(j, .load 12300)])).any fun r => decide (r.2.phys.exhausted = false ∧
    (r.1.map fun e => e.outcome) = [.result 2, .result 12288, .loaded 0, .loaded 0]))

set_option maxRecDepth 100000 in
theorem replay_schemesCheck : (((bootKernel 40).replayWhen .lazy guardedMove [(0, .exec [] (some initProgram) [])]).any
    fun r => Kernel.schemesCheck 0 1 r.1 r.2) = true := by decide +kernel

/-- The state in which the first process has started its program. -/
theorem exists_program : ∃ events k, Run Kernel.Guarded (bootKernel 40) events k ∧
    events.map (fun e => (e.proc, e.op)) = [(0, .exec [] (some initProgram) [])] ∧ k.HeapOnly ∧
    Kernel.schemesCheck 0 1 events k = true := by
  obtain ⟨events, k, hrun, hops, hcheck⟩ := exists_replayGuarded (bootKernel 40)
    [(0, .exec [] (some initProgram) [])] (Kernel.schemesCheck 0 1) replay_schemesCheck
  refine ⟨events, k, hrun, hops, ?_, hcheck⟩
  obtain ⟨e, rfl, he⟩ := List.map_eq_singleton_iff.1 hops
  obtain ⟨t, hfirst, hrest⟩ := hrun.head
  obtain rfl := hrest.eq_of_nil
  obtain ⟨hproc, hop⟩ := Prod.mk.inj he
  have hstep := hfirst.moves
  rw [Kernel.Moves, hproc, hop] at hstep
  exact bootKernel_forty.1.heapOnly.of_exec bootKernel_forty.1.invariant
    ⟨by decide, fun a ha => absurd ha List.not_mem_nil⟩ hstep

/-- A child that has grown its heap by less than a page and loads a byte behind its size, in the same page,
is killed with lazy allocation. With eager allocation it goes on and can read below its size. -/
theorem lazy_sbrk_rest_of_page : ∃ events₀ k₁ events k events' e, (bootKernel 40).Boot ∧
    Run Kernel.Guarded (bootKernel 40) events₀ k₁ ∧ k₁.HeapOnly ∧
    Run (Kernel.Moves .lazy) k₁ events k ∧ Run (Kernel.Moves .eager) k₁ events' e ∧
    events.map (fun e => (e.proc, e.op)) = restOps 0 1 ∧
    events'.map (fun e => (e.proc, e.op)) = restOps 0 1 ++ [(1, .load 12300)] ∧
    k.phys.exhausted = false ∧ e.phys.exhausted = false ∧
    events.map (fun e => e.outcome) = [.result 2, .result 12288, .gone] ∧ (k.proc 1).state = .zombie ∧
    events'.map (fun e => e.outcome) = [.result 2, .result 12288, .loaded 0, .loaded 0] := by
  obtain ⟨events₀, k₁, hrun, -, hheap, hcheck⟩ := exists_program
  simp only [Kernel.schemesCheck, Bool.and_eq_true] at hcheck
  obtain ⟨⟨-, hlazy⟩, heager⟩ := hcheck
  obtain ⟨⟨events, k⟩, hreplay, hcheck⟩ := (Option.any_eq_true _ _).1 hlazy
  obtain ⟨⟨events', e⟩, hreplay', hcheck'⟩ := (Option.any_eq_true _ _).1 heager
  obtain ⟨hmem, hout, hzombie⟩ := of_decide_eq_true hcheck
  obtain ⟨hmem', hout'⟩ := of_decide_eq_true hcheck'
  obtain ⟨hrun₁, hops⟩ := run_of_replay hreplay
  obtain ⟨hrun₂, hops'⟩ := run_of_replay hreplay'
  exact ⟨events₀, k₁, events, k, events', e, bootKernel_forty.1, hrun, hheap, hrun₁, hrun₂, hops, hops', hmem,
    hmem', hout, hzombie, hout'⟩

/-- The child reads the byte of its parent in the page, and the first byte of its program. -/
theorem lazy_sbrk_invisible_regrown : ∃ events₀ k₁ events k e, Run Kernel.Guarded (bootKernel 40) events₀ k₁ ∧
    Run (Kernel.HeapMoves .lazy) k₁ events k ∧ Run (Kernel.HeapMoves .eager) k₁ events e ∧
    events.map (fun e => (e.proc, e.op)) = regrownOps 0 1 ∧
    (events.map fun e => e.outcome).drop 5 = [.loaded 77, .loaded 127] := by
  obtain ⟨events₀, k₁, hbefore, -, hheap, hcheck⟩ := exists_program
  simp only [Kernel.schemesCheck, Bool.and_eq_true] at hcheck
  obtain ⟨⟨⟨hlazy, heager⟩, -⟩, -⟩ := hcheck
  have hpass : ∀ (scheme : Scheme) (t : Kernel) (e : Event) (u : Kernel), Kernel.Moves scheme t e u →
      t.heapMove e u = true → Kernel.HeapMoves scheme t e u := by
    intro scheme t e u hmove hcheck
    obtain ⟨hop, hmem⟩ := of_decide_eq_true hcheck
    exact ⟨hmove, hop, hmem⟩
  obtain ⟨⟨events, k⟩, hreplay, hcheck⟩ := (Option.any_eq_true _ _).1 hlazy
  obtain ⟨⟨events', e⟩, hreplay'⟩ := Option.isSome_iff_exists.1 heager
  obtain ⟨hrun, hops⟩ := run_of_replayWhen hreplay (hpass .lazy)
  obtain ⟨hrun', hops'⟩ := run_of_replayWhen hreplay' (hpass .eager)
  have hsame : List.Forall₂ (fun a b : Event => b.proc = a.proc ∧ b.op = a.op) events events' := by
    have hmap : List.Forall₂ (fun a b => a = b) (events.map fun e => (e.proc, e.op))
        (events'.map fun e => (e.proc, e.op)) := by
      rw [hops, hops', List.forall₂_eq_eq_eq]
    rw [List.forall₂_map_left_iff, List.forall₂_map_right_iff] at hmap
    refine hmap.imp fun a b hab => ?_
    obtain ⟨hproc, hop⟩ := Prod.mk.inj hab
    exact ⟨hproc.symm, hop.symm⟩
  have heq := (lazy_sbrk_invisible bootKernel_forty.1 hbefore hheap hrun hrun' hsame).1
  subst heq
  exact ⟨events₀, k₁, _, k, e, hbefore, hrun, hrun', hops, of_decide_eq_true hcheck⟩

end Concrete

end Xv6
