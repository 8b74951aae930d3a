import Xv6.Proc.Guarded

/-!
# When `crear_memoria_compartida` is all or nothing

The call takes a page and counts its users before it maps the page twice, and never goes back. So it is
all or nothing exactly if there is no page to take, or both mappings succeed and the count is right: the
page above the parent is unmapped, there are pages for the missing tables, and the parent has a share
already if the page is not new.
-/

namespace Xv6

open Library Vm

section Share

variable [KernelImage] {k k' : Kernel} {i np : Fin NPROC}

/-- The permissions of the shared page. -/
def sharedPerm : ℕ := PTE_W ||| PTE_R ||| PTE_U

/-- Both page tables have been extended by the shared page at the same address, and the records say so. -/
structure ShareMapped (k : Kernel) (i np : Fin NPROC) (k' : Kernel) : Prop where
  parent : k'.proc i = (k.proc i).sharing (pageCount (k.proc i).sz * PGSIZE)
  child : k'.proc np = (k.proc np).sharing (pageCount (k.proc i).sz * PGSIZE)
  page : k'.sharedPage ≠ 0 ∧ (k.sharedPage ≠ 0 → k'.sharedPage = k.sharedPage)
  before : ∀ j, j = i ∨ j = np → leaf k.phys.mem (k.proc j).pagetable (pageCount (k.proc i).sz) = none
  leaves : ∀ j, j = i ∨ j = np → ∀ v, leaf k'.phys.mem (k.proc j).pagetable v =
    Function.update (leaf k.phys.mem (k.proc j).pagetable) (pageCount (k.proc i).sz)
      (some (mkPte k'.sharedPage sharedPerm)) v

/-- The users after the call: two more, or one more if the parent has a share already. -/
def Kernel.usersAfter (k : Kernel) (i : Fin NPROC) : ℤ :=
  (if k.sharedPage = 0 then 0 else k.refcount) + if (k.proc i).shmVa = 0 then 2 else 1

/-- Nothing has changed that the call is about. -/
structure ShareUndone (k : Kernel) (i np : Fin NPROC) (k' : Kernel) : Prop where
  records : k'.proc = k.proc
  page : k'.sharedPage = k.sharedPage
  count : k'.refcount = k.refcount
  leaves : ∀ j, j = i ∨ j = np → ∀ v,
    leaf k'.phys.mem (k.proc j).pagetable v = leaf k.phys.mem (k.proc j).pagetable v

/-- What `crear_memoria_compartida` should do. -/
def ShareAtomic (k : Kernel) (i np : Fin NPROC) : Prop :=
  Ensures (crearMemoriaCompartida i np) k fun r k' =>
    (r = 0 ∧ ShareMapped k i np k' ∧ k'.refcount = k.usersAfter i) ∨ (r = -1 ∧ ShareUndone k i np k')

/-- There is a page to share, nothing is in its way, and there are pages for its tables. -/
def Kernel.ShareFits (k : Kernel) (i np : Fin NPROC) : Prop :=
  leaf k.phys.mem (k.proc i).pagetable (pageCount (k.proc i).sz) = none ∧
    (if k.sharedPage = 0 then 1 else 0) + k.shareTables i np ≤ k.phys.freelist.length

/-- The mappings of a page that has been taken succeed exactly if there is room. -/
theorem mapShare_outcome (h : k.Layout) (hpage : k.sharedPage ≠ 0) (hi : (k.proc i).Live)
    (hnp : (k.proc np).Live) (hne : i ≠ np)
    (hchild : ∀ v w, leaf k.phys.mem (k.proc np).pagetable v = some w →
      v < pageCount (k.proc i).sz ∨ v = trampVpn ∨ v = tfVpn) :
    Yields (mapShare i np k.sharedPage) k
      (fun r k' => k'.refcount = k.refcount ∧ k'.sharedPage = k.sharedPage ∧
        ((r = 0 ∧ k.ShareFits i np ∧ ShareMapped k i np k') ∨ (r = -1 ∧ ¬ k.ShareFits i np)))
      (fun _ => ¬ k.ShareFits i np) := by
  have hfits : k.ShareFits i np ↔ leaf k.phys.mem (k.proc i).pagetable (pageCount (k.proc i).sz) = none ∧
      k.shareTables i np ≤ k.phys.freelist.length := by
    rw [Kernel.ShareFits, if_neg hpage, Nat.zero_add]
  rw [hfits]
  refine (mapShare_spec h hpage hi hnp hne).mono ?_ ?_
  · rintro r k' (⟨rfl, hshort, s', rfl⟩ | ⟨rfl, hroom, s₁, s₂, hmapped, rfl⟩)
    · exact ⟨rfl, rfl, .inr ⟨rfl, fun hf => absurd hf.2 (not_le.2 hshort)⟩⟩
    obtain ⟨taken, hg⟩ := hmapped.parent
    obtain ⟨taken', hg'⟩ := hmapped.child
    refine ⟨rfl, rfl, .inl ⟨rfl, ⟨hmapped.before i (.inl rfl), hroom⟩, ?_, ?_, ⟨hpage, fun _ => rfl⟩,
      hmapped.before, ?_⟩⟩
    · rw [Kernel.shared, setProc_proc_of_ne _ hne, setProc_proc_self]
    · rw [Kernel.shared, setProc_proc_self]
    · rintro j (rfl | rfl) v
      · exact (leaf_congr hmapped.kept v).trans (hg.leaf_eq v)
      · refine (hg'.leaf_eq v).trans ?_
        rw [funext (leaf_congr hmapped.same)]
        rfl
  · rintro e ⟨-, j, rfl | rfl, hsome⟩ hf
    · exact hsome hf.1
    · -- nothing is mapped above the memory of the child
      obtain ⟨w, hw⟩ := Option.ne_none_iff_exists'.1 hsome
      have hcount := pageCount_le (h.slot i hi).ok.size
      obtain hlow | htop | htop := hchild _ w hw
      · exact absurd hlow (lt_irrefl _)
      · exact absurd (htop ▸ hcount) (by decide)
      · rw [htop, (h.slot i hi).ok.space.tfLeaf] at hf
        cases hf.1

/-- What `crear_memoria_compartida` does: there was no page to take, both mappings have succeeded, or the
page has been taken in vain. -/
theorem crearMemoriaCompartida_outcome (h : k.Layout) (hi : (k.proc i).Live)
    (hnp : (k.proc np).Live) (hne : i ≠ np)
    (hchild : ∀ v w, leaf k.phys.mem (k.proc np).pagetable v = some w →
      v < pageCount (k.proc i).sz ∨ v = trampVpn ∨ v = tfVpn) :
    Yields (crearMemoriaCompartida i np) k
      (fun r k' => (r = -1 ∧ k.sharedPage = 0 ∧ k.phys.freelist = [] ∧ ShareUndone k i np k') ∨
        (k'.refcount = (if k.sharedPage = 0 then 2 else k.refcount + 1) ∧
          (k'.sharedPage = k.sharedPage → k.sharedPage ≠ 0) ∧ (k.sharedPage = 0 → k.phys.freelist ≠ []) ∧
          ((r = 0 ∧ k.ShareFits i np ∧ ShareMapped k i np k') ∨ (r = -1 ∧ ¬ k.ShareFits i np))))
      (fun _ => ¬ k.ShareFits i np ∧ (k.sharedPage = 0 → k.phys.freelist ≠ [])) := by
  rw [crearMemoriaCompartida_eq, yields_bind]
  by_cases hzero : k.sharedPage = 0
  · apply Ensures.yields
    refine (takeSharedPage_spec hzero).mono ?_
    intro r k₁ hr
    obtain ⟨rfl, hnil, rfl⟩ | ⟨page, s₁, rfl, hcons, hmem, rfl⟩ := hr
    · exact (yields_pure ..).2 (.inl ⟨rfl, hzero, hnil, rfl, rfl, rfl, fun _ _ _ => rfl⟩)
    · obtain ⟨hlayout, hpage, -⟩ := h.take hzero hcons hmem
      have hsame : ∀ j, (k.proc j).Live → ∀ t ∈ tables k.phys.mem (k.proc j).pagetable,
          s₁.mem t = k.phys.mem t := by
        intro j hj t ht
        refine hmem t fun heq => (h.slot j hj).not_free (reach_mono _ (by decide) _ ht) ?_
        rw [heq, hcons]
        exact List.mem_cons_self
      have hne' : k.phys.freelist ≠ [] := hcons ▸ List.cons_ne_nil _ _
      have hfits : Kernel.ShareFits { k with phys := s₁, sharedPage := page, refcount := 2 } i np ↔
          k.ShareFits i np := by
        simp only [Kernel.ShareFits, Kernel.shareTables, if_neg hpage, if_pos hzero,
          leaf_congr (hsame i hi), missing_congr (hsame i hi), missing_congr (hsame np hnp), hcons,
          List.length_cons]
        exact and_congr_right fun _ => by omega
      rw [← hfits]
      refine (mapShare_outcome hlayout hpage hi hnp hne ?_).mono ?_ fun _ he => ⟨he, fun _ => hne'⟩
      · intro v w hw
        exact hchild v w ((leaf_congr (hsame np hnp) v).symm.trans hw)
      · intro r k' hr
        obtain ⟨hcount, hshared, hr⟩ := hr
        refine .inr ⟨by rw [hcount, if_pos hzero], fun heq => ?_, fun _ => hne', ?_⟩
        · rw [← heq, hshared]
          exact hpage
        · refine hr.imp_left ?_
          rintro ⟨h0, hf, hm⟩
          refine ⟨h0, hf, hm.parent, hm.child, ⟨hm.page.1, ?_⟩, ?_, ?_⟩
          · exact fun hne => absurd hzero hne
          · rintro j (rfl | rfl)
            · exact (leaf_congr (hsame j hi) _).symm.trans (hm.before j (.inl rfl))
            · exact (leaf_congr (hsame j hnp) _).symm.trans (hm.before j (.inr rfl))
          · rintro j (rfl | rfl) v
            · exact (hm.leaves j (.inl rfl) v).trans (by rw [funext (leaf_congr (hsame j hi))])
            · exact (hm.leaves j (.inr rfl) v).trans (by rw [funext (leaf_congr (hsame j hnp))])
  · rw [takeSharedPage, yields_bind, yields_get, if_neg hzero, yields_bind, yields_modify, yields_pure]
    have hlayout : Kernel.Layout { k with refcount := k.refcount + 1 } := ⟨h.free, h.unused, h.slot, h.apart, h.page⟩
    refine (mapShare_outcome hlayout hzero hi hnp hne hchild).mono ?_ fun _ he => ⟨he, fun hf => absurd hf hzero⟩
    intro r k' hr
    obtain ⟨hcount, hshared, hr⟩ := hr
    refine .inr ⟨by rw [hcount, if_neg hzero], fun _ => hzero, fun hf => absurd hf hzero, ?_⟩
    refine hr.imp_left ?_
    rintro ⟨h0, hf, hm⟩
    exact ⟨h0, hf, hm.parent, hm.child, hm.page, hm.before, hm.leaves⟩

/-- The kernel at the point where `fork` calls `crear_memoria_compartida`: a copy of the memory of the
parent has been made for the child. -/
structure CopiedChild (k : Kernel) (i np : Fin NPROC) (kc : Kernel) : Prop where
  live : (k.proc i).Live
  slot : k.unusedSlot = some np
  copy : ∃ root tf s, ChildMemory k i root tf s ∧
    kc = k.staged np (childProc (k.proc i) i k.nextpid tf root) s
  invariant : kc.Invariant

/-- The child is a process of its own, and nothing is mapped above its memory. -/
theorem CopiedChild.facts {kc : Kernel} (h : CopiedChild k i np kc) :
    (kc.proc i).Live ∧ (kc.proc np).Live ∧ i ≠ np ∧
      ∀ v w, leaf kc.phys.mem (kc.proc np).pagetable v = some w →
        v < pageCount (kc.proc i).sz ∨ v = trampVpn ∨ v = tfVpn := by
  obtain ⟨root, tf, s, hmem, rfl⟩ := h.copy
  have hne : i ≠ np := fun heq => h.live (heq ▸ unusedSlot_some h.slot)
  rw [staged_proc_self, staged_proc_of_ne k hne]
  exact ⟨h.live, nofun, hne, hmem.only⟩

/-- A parent that could share a page before it made the child still can. -/
theorem CopiedChild.shareFits {kc : Kernel} (h : CopiedChild k i np kc) (hinv : k.Invariant) (hshare : k.CanShare i) :
    kc.sharedPage = 0 ∧ kc.ShareFits i np := by
  obtain ⟨hzero, -, hnone, hroom⟩ := hshare
  obtain ⟨-, -, hne, -⟩ := h.facts
  obtain ⟨root, tf, s, hmem, rfl⟩ := h.copy
  have hlength := hmem.length
  have htables : (k.staged np (childProc (k.proc i) i k.nextpid tf root) s).shareTables i np ≤ 2 + 2 :=
    Nat.add_le_add missing_le missing_le
  refine ⟨hzero, ?_, ?_⟩
  · rw [staged_proc_of_ne k hne]
    exact (hmem.leaf_parent (hinv.layout.slot i h.live) _).trans hnone
  · rw [show (k.staged np (childProc (k.proc i) i k.nextpid tf root) s).sharedPage = 0 from hzero, if_pos rfl]
    change 1 + _ ≤ s.freelist.length
    omega

/-- `crear_memoria_compartida` is all or nothing exactly if there is no page to take, or nothing is in the
way of a page that is new or that the parent shares already. -/
theorem share_atomic_iff {kc : Kernel} (hc : CopiedChild k i np kc) :
    ShareAtomic kc i np ↔ (kc.sharedPage = 0 ∧ kc.phys.freelist = []) ∨
      ((kc.sharedPage = 0 ∨ (kc.proc i).shmVa ≠ 0) ∧ kc.ShareFits i np) := by
  obtain ⟨hi, hnp, hne, honly⟩ := hc.facts
  have hout := crearMemoriaCompartida_outcome hc.invariant.layout hi hnp hne honly
  constructor
  · intro hatomic
    obtain ⟨r, k', hrun, hgood⟩ := hatomic
    obtain ⟨-, hzero, hnil, -⟩ | ⟨hcount, hpage, -, ⟨rfl, hfits, -⟩ | ⟨rfl, -⟩⟩ := hout.1 r k' hrun
    · exact .inl ⟨hzero, hnil⟩
    · refine .inr ⟨?_, hfits⟩
      by_contra hshare
      rw [not_or, not_not] at hshare
      obtain ⟨-, -, husers⟩ | ⟨hr, -⟩ := hgood
      · rw [hcount, Kernel.usersAfter, if_neg hshare.1, if_neg hshare.1, if_pos hshare.2] at husers
        omega
      · cases hr
    · obtain ⟨hr, -⟩ | ⟨-, hundone⟩ := hgood
      · cases hr
      · have hsame := hundone.count
        rw [hcount, if_neg (hpage hundone.page)] at hsame
        omega
  · intro hcond
    refine (hout.ensures fun _ he => ?_).mono ?_
    · obtain ⟨hzero, hnil⟩ | ⟨-, hfits⟩ := hcond
      · exact he.2 hzero hnil
      · exact he.1 hfits
    · intro r k' hr
      obtain ⟨rfl, -, -, hundone⟩ | ⟨hcount, -, hnil, hr⟩ := hr
      · exact .inr ⟨rfl, hundone⟩
      obtain ⟨hzero, hempty⟩ | ⟨hshare, hfits⟩ := hcond
      · exact absurd hempty (hnil hzero)
      obtain ⟨rfl, -, hmapped⟩ | ⟨-, hnot⟩ := hr
      · refine .inl ⟨rfl, hmapped, ?_⟩
        rw [hcount, Kernel.usersAfter]
        by_cases hzero : kc.sharedPage = 0
        · rw [if_pos hzero, if_pos hzero, hc.invariant.layout.no_share hzero i]
          rfl
        · rw [if_neg hzero, if_neg hzero, if_neg (hshare.resolve_left hzero)]
      · exact absurd hfits hnot

/-- `fork` by way of the kernel in which the child has its memory. -/
theorem kfork_copied {Q : ℤ → Kernel → Prop} {R : Panic → Prop} (h : k.Invariant) (hi : (k.proc i).Live)
    (hfail : ∀ k', Q (-1) k') (hchild : ∀ np kc, CopiedChild k i np kc →
      Yields (if (k.proc i).usarMemoriaCompartida then do
          let _ ← crearMemoriaCompartida i np
          modify fun k => k.setProc np { k.proc np with usarMemoriaCompartida := true }
          modify fun k => k.setProc np { k.proc np with state := .runnable }
          pure (k.nextpid : ℤ)
        else do
          modify fun k => k.setProc np { k.proc np with state := .runnable }
          pure (k.nextpid : ℤ)) kc Q R) : Yields (kfork i) k Q R :=
  kfork_rule h hi (fun k' _ _ => hfail k') fun np tf root s hslot hmem hinv =>
    hchild np _ ⟨hi, hslot, ⟨root, tf, s, hmem, rfl⟩, hinv⟩

end Share

section Concrete

attribute [local instance] linkedImage

/-- A process that has asked for shared memory forks its first child. -/
theorem share_atomic_first_fork : ∃ events k np kc, Run Kernel.Guarded (bootKernel 40) events k ∧
    events.map (fun e => (e.proc, e.op)) = startedOps 0 ∧ (k.proc 0).usarMemoriaCompartida = true ∧
    CopiedChild k 0 np kc ∧ ShareAtomic kc 0 np := by
  obtain ⟨events, k, hrun, hops, ⟨hstate, -, -, -, -, husar, hshare⟩, hfork⟩ := exists_started
  have hinv := bootKernel_forty.1.invariant.of_run hrun
  have hlive : (k.proc 0).Live := .of_runnable hstate
  have hyields : Yields (kfork 0) k (fun r _ => r ≠ -1 → ∃ np kc, CopiedChild k 0 np kc ∧ ShareAtomic kc 0 np)
      (fun _ => True) := by
    refine kfork_copied hinv hlive (fun _ h => absurd rfl h) ?_
    intro np kc hc
    have hatomic := (share_atomic_iff hc).2 (.inr ⟨.inl (hc.shareFits hinv hshare).1, (hc.shareFits hinv hshare).2⟩)
    exact ⟨fun _ _ _ _ => ⟨np, kc, hc, hatomic⟩, fun _ _ => trivial⟩
  cases hres : kfork 0 k with
  | error e =>
    rw [hres] at hfork
    cases hfork
  | ok r =>
    rw [hres] at hfork
    obtain ⟨np, kc, hc, hatomic⟩ := hyields.1 r.1 r.2 hres (of_decide_eq_true hfork)
    exact ⟨events, k, np, kc, hrun, hops, husar, hc, hatomic⟩

/-- A page of `map_ro` above the heap is in the way of the shared page, and the kernel panics. -/
theorem share_remap_panics : ∃ events k np kc, (bootKernel 40).Boot ∧
    Run Kernel.Guarded (bootKernel 40) events k ∧
    events.map (fun e => (e.proc, e.op)) = [(0, .sbrk 4096), (0, .mapRo 4096), (0, .setshm)] ∧
    CopiedChild k 0 np kc ∧ ¬ ShareAtomic kc 0 np := by
  obtain ⟨events, k, hrun, hops, hcheck⟩ := Kernel.exists_replayGuarded (bootKernel 40)
    [(0, .sbrk 4096), (0, .mapRo 4096), (0, .setshm)]
    (fun _ k => decide ((k.proc 0).state = .runnable) && (kfork 0 k).toOption.isNone) (by decide +kernel)
  rw [Bool.and_eq_true, decide_eq_true_eq] at hcheck
  obtain ⟨hstate, hpanic⟩ := hcheck
  have hlive : (k.proc 0).Live := .of_runnable hstate
  by_contra hall
  -- if every call returned, `fork` would
  have hatomic : ∀ np kc, CopiedChild k 0 np kc → ShareAtomic kc 0 np := by
    intro np kc hc
    by_contra hnot
    exact hall ⟨events, k, np, kc, bootKernel_forty.1, hrun, hops, hc, hnot⟩
  have hyields : Yields (kfork 0) k (fun _ _ => True) (fun _ => False) := by
    refine kfork_copied (bootKernel_forty.1.invariant.of_run hrun) hlive (fun _ => trivial) ?_
    intro np kc hc
    split_ifs
    · rw [yields_bind]
      exact ((hatomic np kc hc).mono fun _ _ _ => by simp only [yields_bind, yields_modify, yields_pure]).yields _
    · simp only [yields_bind, yields_modify, yields_pure]
  cases hres : kfork 0 k with
  | error e => exact hyields.2 e hres
  | ok r =>
    rw [hres] at hpanic
    cases hpanic

end Concrete

end Xv6
