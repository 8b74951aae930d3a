import Xv6.Vm.UnmapSpec

/-!
# What `freewalk` does

A tree of tables without leaf entries is freed table by table: every one of its tables is put on the
free list once. A leaf entry that is still there makes the kernel panic.
-/

namespace Xv6.Vm

open Function Library List

/-- The permission bits that tell a leaf entry from a pointer to a table. -/
abbrev PTE_RWX : ℕ := PTE_R ||| PTE_W ||| PTE_X

/-- A tree of the given height below a table: unshared, with pointers above its lowest level. -/
structure TableTree (mem : ℕ → Page) (height t : ℕ) : Prop where
  unshared : Unshared (child mem) height t
  pointers : ∀ (path : List ℕ) (u i : ℕ), path.length < height →
    follow (child mem) t path = some u → hasFlag (pteAt mem u i) PTE_V → ¬ hasFlag (pteAt mem u i) PTE_RWX

/-- No link leaves the tree. -/
def NoLeaf (mem : ℕ → Page) (height t : ℕ) : Prop :=
  ∀ path : List ℕ, path.length = height + 1 → follow (child mem) t path = none

section Subtree

variable {mem mem' : ℕ → Page} {height t u i : ℕ}

theorem TableTree.subtree (h : TableTree mem (height + 1) t) (hu : child mem t i = some u) :
    TableTree mem height u where
  unshared := h.unshared.subtree hu
  pointers path x j hlen hpath :=
    h.pointers (i :: path) x j (by simpa using hlen) (by rw [follow_cons, hu]; exact hpath)

theorem NoLeaf.subtree (h : NoLeaf mem (height + 1) t) (hu : child mem t i = some u) : NoLeaf mem height u := by
  intro path hlen
  have hnone := h (i :: path) (by simpa using hlen)
  rwa [follow_cons, hu] at hnone

/-- Agreement of the links on the tables of the tree. -/
theorem child_congr_reach (h : ∀ x ∈ reach (child mem) height t, mem' x = mem x) :
    ∀ x ∈ reach (child mem) height t, ∀ i, child mem' x i = child mem x i := by
  intro x hx i
  rw [child, child, pteAt, pteAt, h x hx]

theorem TableTree.congr (ht : TableTree mem height t)
    (h : ∀ x ∈ reach (child mem) height t, mem' x = mem x) : TableTree mem' height t where
  unshared := ht.unshared.congr (child_congr_reach h)
  pointers path x j hlen hpath := by
    rw [follow_congr (child_congr_reach h) path (by omega)] at hpath
    rw [pteAt, h x ⟨path, by omega, hpath⟩, ← pteAt]
    exact ht.pointers path x j hlen hpath

theorem NoLeaf.congr (hn : NoLeaf mem height t)
    (h : ∀ x ∈ reach (child mem) height t, mem' x = mem x) : NoLeaf mem' height t := by
  intro path hlen
  rw [follow_congr (child_congr_reach h) path (by omega)]
  exact hn path hlen

end Subtree

/-- The pages `freed` have been put on the free list, and nothing outside the set has changed. -/
structure Freed (pages : Set ℕ) (s s' : Phys) (freed : List ℕ) : Prop where
  freelist : s'.freelist = freed ++ s.freelist
  nodup : freed.Nodup
  mem_iff : ∀ x, x ∈ freed ↔ x ∈ pages
  frame : ∀ x, x ∉ pages → s'.mem x = s.mem x
  exhausted : s'.exhausted = s.exhausted

variable [KernelImage] {s' : Phys}

/-- The free list after pages of the allocator that were not free have been added to it. -/
theorem Freed.freeOk {pages : Set ℕ} {s : Phys} {freed : List ℕ} (h : Freed pages s s' freed)
    (hf : FreeOk s.freelist) (hpages : ∀ x ∈ pages, PageAddress x ∧ x ∉ s.freelist) : FreeOk s'.freelist := by
  rw [h.freelist]
  refine ⟨nodup_append.2 ⟨h.nodup, hf.nodup, ?_⟩, ?_⟩
  · intro x hx y hy hxy
    exact (hpages x ((h.mem_iff x).1 hx)).2 (hxy ▸ hy)
  · intro x hx
    obtain hx | hx := mem_append.1 hx
    · exact (hpages x ((h.mem_iff x).1 hx)).1
    · exact hf.valid x hx

section Loop

variable {s : Phys} {height t : ℕ}

/-- The tables below the first `n` entries of a table. -/
def below (mem : ℕ → Page) (height t n : ℕ) : Set ℕ :=
  {x | ∃ i < n, ∃ u, child mem t i = some u ∧ x ∈ reach (child mem) height u}

/-- The state of the loop of `freewalk` before entry `n`. -/
structure LoopState (height t : ℕ) (s : Phys) (n : ℕ) (s' : Phys) : Prop where
  freed : ∃ freed, s'.freelist = freed ++ s.freelist ∧ freed.Nodup ∧
    ∀ x, x ∈ freed ↔ x ∈ below s.mem height t n
  frame : ∀ x, x ≠ t → x ∉ below s.mem height t n → s'.mem x = s.mem x
  entries : ∀ i, n ≤ i → pteAt s'.mem t i = pteAt s.mem t i
  exhausted : s'.exhausted = s.exhausted

omit [KernelImage] in
theorem below_succ (mem : ℕ → Page) (n x : ℕ) :
    x ∈ below mem height t (n + 1) ↔
      x ∈ below mem height t n ∨ ∃ u, child mem t n = some u ∧ x ∈ reach (child mem) height u := by
  constructor
  · rintro ⟨i, hi, u, hu, hx⟩
    by_cases hin : i < n
    · exact .inl ⟨i, hin, u, hu, hx⟩
    · have hi' : i = n := by omega
      exact .inr ⟨u, hi' ▸ hu, hx⟩
  · rintro (⟨i, hi, u, hu, hx⟩ | ⟨u, hu, hx⟩)
    · exact ⟨i, by omega, u, hu, hx⟩
    · exact ⟨n, by omega, u, hu, hx⟩

variable {n : ℕ}

omit [KernelImage] in
/-- An entry that links nothing adds no table. -/
theorem below_succ_of_none {mem : ℕ → Page} (h : child mem t n = none) :
    below mem height t (n + 1) = below mem height t n := by
  ext x
  rw [below_succ]
  constructor
  · rintro (hx | ⟨u, hu, -⟩)
    · exact hx
    · exact none_elim h hu
  · exact .inl

omit [KernelImage] in
/-- The tables below later entries are untouched so far. -/
theorem LoopState.frame_below {i u : ℕ} (h : LoopState height t s n s') (hu : Unshared (child s.mem) (height + 1) t)
    (hni : n ≤ i) (hchild : child s.mem t i = some u) : ∀ x ∈ reach (child s.mem) height u, s'.mem x = s.mem x := by
  intro x hx
  refine h.frame x ?_ ?_
  · rintro rfl
    exact hu.root_not_mem hchild hx
  · rintro ⟨j, hj, v, hv, hxv⟩
    have := hu.disjoint hchild hv hx hxv
    omega

/-- One iteration frees the tree below its entry. -/
theorem freewalkEntry_spec (htree : TableTree s.mem (height + 1) t)
    (hn : n < 512) (hloop : LoopState height t s n s')
    (hfree : ∀ u, child s.mem t n = some u →
      Ensures (freewalk height u) s' fun _ s'' =>
        ∃ freed, Freed (reach (child s.mem) height u) s' s'' freed) :
    Ensures (freewalkEntry (freewalk height) t n) s' fun _ s'' =>
      LoopState height t s (n + 1) s'' := by
  obtain ⟨freed, hlist, hnodup, hmem⟩ := hloop.freed
  have hentry : pteAt s'.mem t n = pteAt s.mem t n := hloop.entries n (le_refl n)
  rw [freewalkEntry, ensures_bind, ensures_readPte]
  dsimp only
  rw [hentry]
  by_cases hv : hasFlag (pteAt s.mem t n) PTE_V = true
  · -- the entry is valid, so it points to a table
    have hrwx := htree.pointers [] t n (by simp) rfl hv
    have hchild : child s.mem t n = some (PTE2PA (pteAt s.mem t n)) := by
      rw [child, linkOf, if_pos hv]
    rw [if_pos (by simp [hv, hrwx]), ensures_bind]
    refine Ensures.mono (hfree _ hchild) ?_
    rintro _ s₁ ⟨freed₁, hfreed⟩
    rw [ensures_writePte]
    have hout : t ∉ reach (child s.mem) height (PTE2PA (pteAt s.mem t n)) := htree.unshared.root_not_mem hchild
    refine ⟨⟨freed₁ ++ freed, ?_, ?_, ?_⟩, ?_, ?_, hfreed.exhausted.trans hloop.exhausted⟩
    · change s₁.freelist = _
      rw [hfreed.freelist, hlist, append_assoc]
    · refine nodup_append.2 ⟨hfreed.nodup, hnodup, ?_⟩
      rintro x hx y hy rfl
      obtain ⟨j, hj, v, hv', hxv⟩ := (hmem x).1 hy
      have := htree.unshared.disjoint hchild hv' ((hfreed.mem_iff x).1 hx) hxv
      omega
    · intro x
      rw [mem_append, hfreed.mem_iff, hmem, below_succ, or_comm]
      refine or_congr_right ⟨fun hx => ⟨_, hchild, hx⟩, ?_⟩
      rintro ⟨u, hu, hx⟩
      rw [hchild] at hu
      exact Option.some.inj hu ▸ hx
    · intro x hxt hx
      rw [below_succ, not_or] at hx
      change setPte s₁.mem t n 0 x = s.mem x
      rw [setPte_of_ne _ _ hxt, hfreed.frame x fun h => hx.2 ⟨_, hchild, h⟩, hloop.frame x hxt hx.1]
    · intro i hi
      change pteAt (setPte s₁.mem t n 0) t i = _
      rw [pteAt_setPte _ hn, if_neg (by omega), pteAt, hfreed.frame t hout, ← pteAt]
      exact hloop.entries i (by omega)
  · have hnone : child s.mem t n = none := by rw [child, linkOf, if_neg hv]
    rw [if_neg (by simp [hv]), if_neg hv, ensures_pure]
    refine ⟨⟨freed, hlist, hnodup, ?_⟩, ?_, fun i hi => hloop.entries i (by omega), hloop.exhausted⟩
    · rw [below_succ_of_none hnone]
      exact hmem
    · rw [below_succ_of_none hnone]
      exact hloop.frame

omit [KernelImage] in
theorem LoopState.init (height t : ℕ) (s : Phys) : LoopState height t s 0 s where
  freed := by
    refine ⟨[], rfl, nodup_nil, fun x => ⟨nofun, ?_⟩⟩
    rintro ⟨i, hi, -⟩
    omega
  frame _ _ _ := rfl
  entries _ _ := rfl
  exhausted := rfl

/-- After the loop the table itself is freed. -/
theorem freed_of_loop (htree : TableTree s.mem (height + 1) t)
    (hvalid : PageAddress t) (hloop : LoopState height t s 512 s') :
    Ensures (kfree t) s' fun _ s'' =>
      ∃ freed, Freed (reach (child s.mem) (height + 1) t) s s'' freed := by
  obtain ⟨freed, hlist, hnodup, hmem⟩ := hloop.freed
  have hbelow : ∀ x, x ∈ below s.mem height t 512 ↔
      ∃ i u, child s.mem t i = some u ∧ x ∈ reach (child s.mem) height u := by
    intro x
    constructor
    · rintro ⟨i, -, u, hu, hx⟩
      exact ⟨i, u, hu, hx⟩
    · rintro ⟨i, u, hu, hx⟩
      refine ⟨i, ?_, u, hu, hx⟩
      by_contra hge
      exact none_elim (child_of_le s.mem t (by omega)) hu
  refine kfree_spec hvalid ⟨t :: freed, ?_, ?_, ?_, ?_, hloop.exhausted⟩
  · change t :: s'.freelist = _
    rw [hlist, cons_append]
  · refine nodup_cons.2 ⟨?_, hnodup⟩
    rw [hmem, hbelow]
    rintro ⟨i, u, hu, hx⟩
    exact htree.unshared.root_not_mem hu hx
  · intro x
    rw [mem_cons, hmem, hbelow, mem_reach_succ]
  · intro x hx
    rw [mem_reach_succ, not_or] at hx
    change update s'.mem t (filled 1) x = s.mem x
    rw [update_of_ne hx.1]
    exact hloop.frame x hx.1 fun h => hx.2 ((hbelow x).1 h)

end Loop

/-- A tree without leaves is freed, every table once. -/
theorem freewalk_spec (height t : ℕ) (s : Phys) (htree : TableTree s.mem height t)
    (hno : NoLeaf s.mem height t) (hvalid : ∀ x ∈ reach (child s.mem) height t, PageAddress x) :
    Ensures (freewalk height t) s fun _ s' =>
      ∃ freed, Freed (reach (child s.mem) height t) s s' freed := by
  induction height generalizing t s with
  | zero =>
    -- all entries are invalid
    have hentry : ∀ i, hasFlag (pteAt s.mem t i) PTE_V = false := by
      intro i
      have hnone := hno [i] rfl
      rw [follow_cons, child, linkOf] at hnone
      by_contra hv
      rw [if_pos (by simpa using hv)] at hnone
      cases hnone
    have hreach : reach (child s.mem) 0 t = {t} := by
      ext x
      constructor
      · rintro ⟨path, hlen, hx⟩
        rw [length_eq_zero_iff.1 (by omega : path.length = 0)] at hx
        exact (Option.some.inj hx).symm
      · rintro rfl
        exact root_mem_reach _ 0 x
    rw [freewalk, ensures_bind]
    refine Ensures.mono (ensures_forM_range _ (fun _ s' => s' = s) 512 s rfl ?_) ?_
    · rintro i - s' rfl
      rw [freewalkEntry, ensures_bind, ensures_readPte]
      simp [hentry i]
    · rintro _ s' rfl
      refine kfree_spec (hvalid t (root_mem_reach _ 0 t)) ⟨[t], rfl, by simp, ?_, ?_, rfl⟩
      · intro x
        rw [hreach, mem_singleton]
        rfl
      · intro x hx
        rw [hreach] at hx
        exact update_of_ne hx _ _
  | succ height ih =>
    rw [freewalk, ensures_bind]
    refine Ensures.mono (ensures_forM_range _ (LoopState height t s) 512 s (LoopState.init height t s) ?_) ?_
    · intro i hi s' hloop
      refine freewalkEntry_spec htree hi hloop ?_
      intro u hu
      have hsame := hloop.frame_below htree.unshared (le_refl i) hu
      have hreach : reach (child s'.mem) height u = reach (child s.mem) height u :=
        reach_congr (child_congr_reach hsame)
      rw [← hreach]
      refine ih u s' ((htree.subtree hu).congr hsame) ((hno.subtree hu).congr hsame) ?_
      intro x hx
      rw [hreach] at hx
      exact hvalid x (mem_reach_succ.2 (.inr ⟨i, u, hu, hx⟩))
    · intro _ s' hloop
      exact freed_of_loop htree (hvalid t (root_mem_reach _ _ t)) hloop

/-- The entries at the lowest level of a tree carry permissions when they are valid. -/
def LeafPerm (mem : ℕ → Page) (height t : ℕ) : Prop :=
  ∀ (path : List ℕ) (u i : ℕ), path.length = height → follow (child mem) t path = some u →
    hasFlag (pteAt mem u i) PTE_V → hasFlag (pteAt mem u i) PTE_RWX

omit [KernelImage] in
theorem LeafPerm.subtree {mem : ℕ → Page} {height t u i : ℕ} (h : LeafPerm mem (height + 1) t)
    (hu : child mem t i = some u) : LeafPerm mem height u := by
  intro path v j hlen hpath
  exact h (i :: path) v j (by simpa using hlen) (by rw [follow_cons, hu]; exact hpath)

omit [KernelImage] in
theorem LeafPerm.congr {mem mem' : ℕ → Page} {height t : ℕ} (hp : LeafPerm mem height t)
    (h : ∀ x ∈ reach (child mem) height t, mem' x = mem x) : LeafPerm mem' height t := by
  intro path u i hlen hpath
  rw [follow_congr (child_congr_reach h) path (by omega)] at hpath
  rw [pteAt, h u ⟨path, by omega, hpath⟩, ← pteAt]
  exact hp path u i hlen hpath

/-- A tree that still has a leaf cannot be freed. -/
theorem freewalk_leaf (height t : ℕ) (s : Phys) (htree : TableTree s.mem height t) (hperm : LeafPerm s.mem height t)
    (hleaf : ¬ NoLeaf s.mem height t) (hvalid : ∀ x ∈ reach (child s.mem) height t, PageAddress x) :
    freewalk height t s = .error .freewalkLeaf := by
  classical
  induction height generalizing t s with
  | zero =>
    -- the first valid entry stops the loop
    have hex : ∃ i, hasFlag (pteAt s.mem t i) PTE_V = true := by
      by_contra hall
      refine hleaf fun path hlen => ?_
      obtain ⟨i, rfl⟩ := length_eq_one_iff.1 hlen
      rw [follow_cons, child, linkOf, if_neg fun h => hall ⟨i, h⟩]
      rfl
    have hv := Nat.find_spec hex
    have hi : Nat.find hex < 512 := by
      by_contra hge
      rw [pteAt_of_le s.mem t (by omega)] at hv
      cases hv
    have hbefore : (List.range (Nat.find hex)).forM
        (freewalkEntry (fun _ => panic .freewalkDepth) t) s = .ok (⟨⟩, s) := by
      obtain ⟨a, s', hrun, rfl⟩ := ensures_forM_range
        (freewalkEntry (fun _ => panic .freewalkDepth) t) (fun _ s' => s' = s) (Nat.find hex) s rfl (by
          rintro i hlt s' rfl
          have hinv : hasFlag (pteAt s'.mem t i) PTE_V = false := by
            simpa using Nat.find_min hex hlt
          rw [freewalkEntry, ensures_bind, ensures_readPte]
          simp [hinv])
      exact hrun
    have hstop : freewalkEntry (fun _ => panic .freewalkDepth) t (Nat.find hex) s =
        .error .freewalkLeaf := by
      have hrwx := hperm [] t (Nat.find hex) rfl rfl hv
      rw [freewalkEntry, bind_run]
      change (if _ then _ else if _ then _ else _ : VmM Unit) s = _
      rw [if_neg (by simp [hv, hrwx]), if_pos hv]
      rfl
    rw [freewalk]
    exact bind_error (forM_range_error hi hbefore hstop)
  | succ height ih =>
    -- the first entry above a leaf stops the loop
    have hex : ∃ i u, child s.mem t i = some u ∧ ¬ NoLeaf s.mem height u := by
      by_contra hall
      refine hleaf fun path hlen => ?_
      cases path with
      | nil => simp at hlen
      | cons i path =>
        rw [follow_cons]
        cases hu : child s.mem t i with
        | none => rfl
        | some u =>
          by_contra hsome
          exact hall ⟨i, u, hu, fun hno => hsome (hno path (by simpa using hlen))⟩
    obtain ⟨u, hu, hleaf'⟩ := Nat.find_spec hex
    have hi : Nat.find hex < 512 := by
      by_contra hge
      exact none_elim (child_of_le s.mem t (by omega)) hu
    have hvalid' : ∀ i v, child s.mem t i = some v →
        ∀ x ∈ reach (child s.mem) height v, PageAddress x :=
      fun i v hv x hx => hvalid x (mem_reach_succ.2 (.inr ⟨i, v, hv, hx⟩))
    obtain ⟨a, s₁, hbefore, hloop⟩ := ensures_forM_range (freewalkEntry (freewalk height) t)
      (LoopState height t s) (Nat.find hex) s (LoopState.init height t s) (by
        intro i hlt s' hloop
        refine freewalkEntry_spec htree (by omega) hloop ?_
        intro v hv
        have hsame := hloop.frame_below htree.unshared (le_refl i) hv
        have hno : NoLeaf s.mem height v := by
          by_contra hno
          exact Nat.find_min hex hlt ⟨v, hv, hno⟩
        rw [← reach_congr (child_congr_reach hsame)]
        refine freewalk_spec height v s' ((htree.subtree hv).congr hsame) (hno.congr hsame) ?_
        intro x hx
        rw [reach_congr (child_congr_reach hsame)] at hx
        exact hvalid' i v hv x hx)
    have hsame := hloop.frame_below htree.unshared (le_refl _) hu
    have hback : ∀ x ∈ reach (child s₁.mem) height u, s.mem x = s₁.mem x := by
      intro x hx
      rw [reach_congr (child_congr_reach hsame)] at hx
      exact (hsame x hx).symm
    have hstop := ih u s₁ ((htree.subtree hu).congr hsame) ((hperm.subtree hu).congr hsame)
      (fun hno => hleaf' (hno.congr hback)) (by
        intro x hx
        rw [reach_congr (child_congr_reach hsame)] at hx
        exact hvalid' _ u hu x hx)
    have hentry : freewalkEntry (freewalk height) t (Nat.find hex) s₁ = .error .freewalkLeaf := by
      have hv : hasFlag (pteAt s.mem t (Nat.find hex)) PTE_V = true := by
        by_contra hv
        rw [child, linkOf, if_neg hv] at hu
        cases hu
      have hrwx := htree.pointers [] t (Nat.find hex) (by simp) rfl hv
      rw [child, linkOf, if_pos hv] at hu
      rw [freewalkEntry, bind_run]
      change (if _ then _ else if _ then _ else _ : VmM Unit) s₁ = _
      rw [hloop.entries _ (le_refl _), if_pos (by simp [hv, hrwx]), Option.some.inj hu]
      exact bind_error hstop
    rw [freewalk]
    exact bind_error (forM_range_error hi hbefore hentry)

end Xv6.Vm
