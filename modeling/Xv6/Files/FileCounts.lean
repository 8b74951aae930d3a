import Mathlib.Algebra.BigOperators.Fin
import Mathlib.Algebra.BigOperators.Group.Finset.Sigma
import Xv6.Files.Balance
import Xv6.Library.Runs

/-!
# Reference counts of open files

Every run keeps the books, so that in a state where no process is inside a system call the count of a file is
the number of descriptors for it, the flags of a pipe say which of its ends are files, and pages that were
allocated for pipes and are no pipes any more have been freed once each.
-/

namespace Xv6.Files

open Finset Function Library
variable {P : Type} [Fintype P] [DecidableEq P] {k : Prog P} {p : P}

namespace Inv

variable {s t : State P} {c : P → Account P} {l : Event} {prog : Prog P}

/-- A process goes on with another program and the same account. -/
theorem next (h : Inv s c) (hp : s.proc p = .kernel prog)
    (hsafe : Safe k (c p) (s.ofile p)) : ∃ c', Inv (s.next p k) c' :=
  ⟨update c p (c p), h.pass rfl (by rw [hp]; exact nofun) nofun (fun _ _ => rfl) rfl rfl hsafe
    (.refl _) (fun _ hf => hf) rfl rfl⟩

/-- A process changes one of its descriptors. -/
theorem setFd (h : Inv s c) {fd : Fin NOFILE} {f : Option (Fin NFILE)} (hp : s.proc p = .kernel prog)
    (hsafe : Safe k (c p) (update (s.ofile p) fd f)) : ∃ c', Inv ((s.setFd p fd f).next p k) c' := by
  have hofile : ((s.setFd p fd f).next p k).ofile p = update (s.ofile p) fd f := update_self ..
  refine ⟨update c p (c p), h.pass rfl (by rw [hp]; exact nofun) nofun
    (fun q hq => update_of_ne hq ..) rfl rfl ?_ (.refl _) (fun _ hf => hf) rfl rfl⟩
  rw [hofile]
  exact hsafe

/-- Every step keeps the books in order. -/
theorem step (h : Inv s c) (hstep : Step s l t) : ∃ c', Inv t c' := by
  cases hstep with
  | @call p prog hp hprog =>
    have hgood := h.good p
    rw [hp] at hgood
    obtain ⟨hchild, hfresh, htotal⟩ := hgood
    exact ⟨update c p (.ofFiles (s.ofile p)), h.pass rfl (by rw [hp]; exact nofun) nofun (fun _ _ => rfl)
      rfl rfl (safe_syscall hprog (s.ofile p)) htotal.symm nofun hchild.symm rfl⟩
  | @reap p hp =>
    have hgood := h.good p
    rw [hp] at hgood
    exact ⟨update c p (c p), h.pass rfl (by rw [hp]; exact nofun) nofun (fun _ _ => rfl) rfl rfl hgood
      (.refl _) (fun _ hf => hf) rfl rfl⟩
  | @ret p hp =>
    obtain ⟨hchild, htotal⟩ := h.safe hp
    exact ⟨update c p { c p with fresh := [] }, h.pass rfl (by rw [hp]; exact nofun) nofun (fun _ _ => rfl)
      rfl rfl ⟨hchild, rfl, htotal⟩ (.refl _) nofun rfl rfl⟩
  | @retire p hp =>
    obtain ⟨hchild, htotal, hown⟩ := h.safe hp
    refine ⟨update c p (.ofFiles (s.ofile p)), h.pass rfl (by rw [hp]; exact nofun) nofun (fun _ _ => rfl)
      rfl rfl ⟨rfl, hown⟩ ?_ nofun hchild.symm rfl⟩
    rw [htotal]
    exact List.Perm.of_eq (slots_eq_nil hown)
  | left hp => exact h.next hp (h.safe hp).1
  | right hp => exact h.next hp (h.safe hp).2
  | filealloc hp hf => exact ⟨_, h.filealloc hp hf⟩
  | noFile hp hf => exact h.next hp (h.safe hp).1
  | filedup hp href => exact ⟨_, h.filedup hp⟩
  | filedupPanic hp href =>
    have hpos : 0 < (s.file _).ref := h.supply_pos (h.safe hp).1
    omega
  | fileclose hp href =>
    obtain ⟨rest, hrest, hsafe⟩ := h.safe hp
    exact ⟨_, h.fileclose hp hrest hsafe href⟩
  | lastClose hp href =>
    obtain ⟨rest, hrest, hsafe⟩ := h.safe hp
    exact ⟨_, h.lastClose hp hrest hsafe href⟩
  | fileclosePanic hp href =>
    obtain ⟨rest, hrest, hsafe⟩ := h.safe hp
    have hpos : 0 < (s.file _).ref := h.supply_pos (hrest.mem_iff.2 List.mem_cons_self)
    omega
  | pipeclose hp hpipe =>
    obtain ⟨rest, hrest, hsafe⟩ := h.safe hp
    obtain ⟨cp, hinv⟩ := h.pipeclose hp hpipe hrest hsafe
    exact ⟨_, hinv⟩
  | pipeclosePanic hp hpipe =>
    obtain ⟨rest, hrest, hsafe⟩ := h.safe hp
    obtain ⟨pipe, hsome, -⟩ := h.isOpen_of_mem (hrest.mem_iff.2 List.mem_cons_self)
    exact none_elim hpipe hsome
  | kfree hp hpipe =>
    obtain ⟨rest, hrest, hsafe⟩ := h.safe hp
    exact ⟨_, h.kfree hp hrest hsafe⟩
  | kfreePanic hp hpipe =>
    obtain ⟨rest, hrest, hsafe⟩ := h.safe hp
    have hsome := h.closed_of_mem (hrest.mem_iff.2 List.mem_cons_self)
    exact none_elim hpipe hsome
  | iput hp =>
    have hsafe := h.safe hp
    exact h.next hp hsafe
  | kalloc hp hpipe => exact ⟨_, h.kalloc hp hpipe⟩
  | noPage hp => exact h.next hp (h.safe hp).1
  | setFile hp =>
    obtain ⟨hfresh, href, ends, rest, hends, htotal, hsafe⟩ := h.safe hp
    exact ⟨_, h.setFile hp hfresh href hends htotal hsafe⟩
  | fdalloc hp hfd =>
    have hsafe := h.safe hp
    rw [Safe, hfd] at hsafe
    exact h.setFd hp hsafe
  | noFd hp hfd =>
    have hsafe := h.safe hp
    rw [Safe, hfd] at hsafe
    exact h.next hp hsafe
  | readFd hp =>
    have hsafe := h.safe hp
    exact h.next hp hsafe
  | clearFd hp =>
    have hsafe := h.safe hp
    exact h.setFd hp hsafe
  | allocproc hp hnp => exact h.allocproc hp hnp
  | noProc hp => exact h.next hp (h.safe hp).2.1
  | freeproc hp => exact h.freeproc hp
  | storeFd hp => exact h.storeFd hp
  | run hp => exact h.run hp

end Inv

/-- The books at the start. -/
theorem inv_init (initproc : P) : Inv (init initproc) fun _ => .ofFiles fun _ => none := by
  have hslots : slots (fun _ => none) = [] := slots_eq_nil fun _ => rfl
  refine ⟨fun r => ?_, fun _ _ => rfl, fun _ _ hf => absurd hf List.not_mem_nil, fun p => ?_, ⟨fun _ => List.nodup_nil,
    fun _ _ hmem => absurd hmem List.not_mem_nil, fun _ _ _ hmem => absurd hmem List.not_mem_nil, fun np hused => ?_⟩,
    fun _ _ _ => nofun, rfl⟩
  · have hsupply : supply (init initproc) r = 0 := by cases r <;> rfl
    rw [hsupply]
    apply sum_eq_zero
    rintro (p | f) _
    · change (slots fun _ => none).count r = 0
      rw [hslots, List.count_nil]
    · exact List.count_nil
  · change Good (update (fun _ => Proc.unused) initproc .user p) _ _
    by_cases hp : p = initproc
    · rw [hp, update_self]
      exact ⟨rfl, rfl, .refl _⟩
    · rw [update_of_ne hp]
      exact ⟨rfl, fun _ => rfl⟩
  · change update (fun _ => Proc.unused) initproc .user np = .used at hused
    by_cases hnp : np = initproc
    · rw [hnp, update_self] at hused
      cases hused
    · rw [update_of_ne hnp] at hused
      cases hused

/-- One for a page that is a pipe. -/
def live (s : State P) (pi : ℕ) : ℕ := if (s.pipe pi).isSome then 1 else 0

variable {pi : ℕ}

omit [Fintype P] in
theorem live_setPipe {s : State P} {pi' : ℕ} {pipe : Option Pipe} :
    live ((s.setPipe pi pipe).next p k) pi' = if pi' = pi then (if pipe.isSome then 1 else 0) else live s pi' := by
  rw [live]
  change (if (update s.pipe pi pipe pi').isSome then 1 else 0) = _
  by_cases hpi : pi' = pi
  · rw [if_pos hpi, hpi, update_self]
  · rw [if_neg hpi, update_of_ne hpi]
    rfl

/-- A step allocates a page that is no pipe, frees one that is a pipe, or does neither. -/
theorem Inv.live_step {s t : State P} {c : P → Account P} {l : Event} (h : Inv s c) (hstep : Step s l t) (pi : ℕ) :
    [l].count (.kalloc pi) + live s pi = [l].count (.kfree pi) + live t pi := by
  have hkalloc : [Event.other].count (.kalloc pi) = 0 := by simp
  have hkfree : [Event.other].count (.kfree pi) = 0 := by simp
  cases hstep with
  | @kalloc p pi' k hp hpipe =>
    have hzero : live s pi' = 0 := by rw [live, hpipe]; rfl
    rw [live_setPipe]
    by_cases hpi : pi = pi'
    · subst hpi
      rw [if_pos rfl, hzero]
      simp
    · rw [if_neg hpi]
      simp [Ne.symm hpi]
  | @kfree p pi' k hp hpipe =>
    have hone : live s pi' = 1 := if_pos hpipe
    rw [live_setPipe]
    by_cases hpi : pi = pi'
    · subst hpi
      rw [if_pos rfl, hone]
      simp
    · rw [if_neg hpi]
      simp [Ne.symm hpi]
  | kfreePanic hp hpipe =>
    obtain ⟨rest, hrest, hsafe⟩ := h.safe hp
    have hsome := h.closed_of_mem (hrest.mem_iff.2 List.mem_cons_self)
    exact none_elim hpipe hsome
  | @pipeclose p pi' w k pipe hp hpipe =>
    rw [hkalloc, hkfree, live_setPipe]
    by_cases hpi : pi = pi'
    · rw [if_pos hpi, hpi, live, hpipe]
      rfl
    · rw [if_neg hpi]
  | call | reap | ret | retire | left | right | filealloc | noFile | filedup | filedupPanic | fileclose | lastClose
  | fileclosePanic | pipeclosePanic | iput | noPage | setFile | fdalloc | noFd | readFd | clearFd | allocproc
  | noProc | freeproc | storeFd | run =>
    rw [hkalloc, hkfree]
    rfl

/-- After every run the books are in order, and a page was allocated for a pipe once more than it was freed
if it is one, and as often otherwise. -/
theorem reachable_inv {initproc : P} {labels : List Event} {s : State P}
    (hrun : Run Step (init initproc) labels s) :
    (∃ c, Inv s c) ∧ ∀ pi, labels.count (.kalloc pi) = labels.count (.kfree pi) + live s pi := by
  apply hrun.history (fun labels s =>
    (∃ c, Inv s c) ∧ ∀ pi, labels.count (.kalloc pi) = labels.count (.kfree pi) + live s pi)
  · exact ⟨⟨_, inv_init initproc⟩, fun _ => rfl⟩
  · rintro labels s l t ⟨⟨c, hinv⟩, hpages⟩ hstep
    refine ⟨hinv.step hstep, fun pi => ?_⟩
    have hlive := hinv.live_step hstep pi
    rw [List.count_append, List.count_append, hpages pi]
    omega

/-- No process is in the middle of a system call. -/
def Quiescent (s : State P) : Prop := ∀ p prog, s.proc p ≠ .kernel prog

/-- A file is an end of a pipe. -/
def IsEnd (s : State P) (f : Fin NFILE) (pi : ℕ) (writable : Bool) : Prop :=
  0 < (s.file f).ref ∧ (s.file f).type = .pipe ∧ (s.file f).pipe = pi ∧ (s.file f).writable = writable

section Counts

variable {s : State P} {c : P → Account P}

/-- A descriptor table holds a file as often as descriptors are for it. -/
theorem count_slots (own : Descriptors) (f : Fin NFILE) :
    (slots own).count (.file f) = ∑ fd, if own fd = some f then 1 else 0 := by
  have hlist : ∀ fds : List (Fin NOFILE), (fds.filterMap fun fd => (own fd).map Res.file).count (.file f) =
      (fds.map fun fd => if own fd = some f then 1 else 0).sum := by
    intro fds
    induction fds with
    | nil => rfl
    | cons fd fds ih =>
      rw [List.map_cons, List.sum_cons, ← ih]
      cases hfd : own fd with
      | none =>
        rw [List.filterMap_cons_none (by rw [hfd]; rfl), if_neg nofun, Nat.zero_add]
      | some g =>
        rw [List.filterMap_cons_some (by rw [hfd]; rfl), List.count_cons, Nat.add_comm]
        simp
  rw [slots, hlist, Fin.sum_univ_def]

theorem mem_ends {file : File} {writable : Bool} :
    .pipeEnd pi writable ∈ file.ends ↔ file.type = .pipe ∧ file.pipe = pi ∧ file.writable = writable := by
  rw [File.ends]
  by_cases htype : file.type = .pipe
  · rw [if_pos htype, List.mem_singleton, Res.pipeEnd.injEq]
    exact ⟨fun h => ⟨htype, h.1.symm, h.2.symm⟩, fun h => ⟨h.2.1.symm, h.2.2.symm⟩⟩
  · rw [if_neg htype]
    exact iff_of_false List.not_mem_nil fun h => htype h.1

omit [DecidableEq P] in
/-- Outside of system calls, processes answer for their descriptors. -/
theorem Inv.total_perm (h : Inv s c) (hq : Quiescent s) (p : P) : (c p).total.Perm (slots (s.ofile p)) := by
  have hgood := h.good p
  cases hp : s.proc p with
  | unused | zombie =>
    rw [hp] at hgood
    rw [hgood.1]
    exact .refl _
  | user | used =>
    rw [hp] at hgood
    exact hgood.2.2
  | kernel prog => exact absurd hp (hq p prog)

omit [DecidableEq P] in
/-- What is held by files and by processes makes up the supply. -/
theorem Inv.supply_eq (h : Inv s c) (hq : Quiescent s) (r : Res) :
    supply s r = ∑ p, (slots (s.ofile p)).count r + ∑ f, (s.file f).ends.count r := by
  rw [← h.balanced r, Fintype.sum_sum_type]
  congr 1
  apply sum_congr rfl
  intro p _
  exact (h.total_perm hq p).count_eq r

/-- Only files are in descriptors, so that ends of pipes are with files, and pages are with nobody. -/
theorem count_slots_of_ne {r : Res} (hr : ∀ f, r ≠ .file f) (own : Descriptors) : (slots own).count r = 0 := by
  apply List.count_eq_zero.2
  intro hmem
  obtain ⟨f, heq⟩ := of_mem_slots hmem
  exact hr f heq

theorem count_ends_page (file : File) (pi : ℕ) : file.ends.count (.page pi) = 0 := by
  rw [List.count_eq_zero, File.ends]
  by_cases htype : file.type = .pipe
  · rw [if_pos htype]
    simp
  · rw [if_neg htype]
    exact List.not_mem_nil

omit [DecidableEq P] in
/-- The count of a file is the number of descriptors for it. -/
theorem Inv.ref_eq (h : Inv s c) (hq : Quiescent s) (f : Fin NFILE) :
    (s.file f).ref = (univ.filter fun x : P × Fin NOFILE => s.ofile x.1 x.2 = some f).card := by
  have hsum : supply s (.file f) = _ := h.supply_eq hq (.file f)
  have hends : ∑ g, (s.file g).ends.count (.file f) = 0 := sum_eq_zero fun g _ => Inv.count_ends (s.file g) f
  rw [hends, Nat.add_zero] at hsum
  rw [card_filter, Fintype.sum_prod_type]
  refine hsum.trans (sum_congr rfl fun p _ => ?_)
  exact count_slots (s.ofile p) f

omit [DecidableEq P] in
/-- A pipe has an end open exactly if a file is that end. -/
theorem Inv.isOpen_iff (h : Inv s c) (hq : Quiescent s) (pi : ℕ) (writable : Bool) :
    (∃ pipe, s.pipe pi = some pipe ∧ pipe.isOpen writable = true) ↔ ∃ f, IsEnd s f pi writable := by
  have hsum := h.supply_eq hq (.pipeEnd pi writable)
  have hslots : ∑ p, (slots (s.ofile p)).count (.pipeEnd pi writable) = 0 :=
    sum_eq_zero fun p _ => count_slots_of_ne (fun f heq => by cases heq) (s.ofile p)
  rw [hslots, Nat.zero_add] at hsum
  constructor
  · rintro ⟨pipe, hpipe, hopen⟩
    have hone : supply s (.pipeEnd pi writable) = 1 := by
      rw [supply, hpipe, endsOpen_some, if_pos hopen]
    obtain ⟨f, -, hf⟩ := exists_ne_zero_of_sum_ne_zero (hsum ▸ hone ▸ Nat.one_ne_zero)
    obtain ⟨htype, hend⟩ := mem_ends.1 (List.count_pos_iff.1 (Nat.pos_of_ne_zero hf))
    refine ⟨f, Nat.pos_of_ne_zero fun hzero => ?_, htype, hend⟩
    rw [h.typed f hzero] at htype
    cases htype
  · rintro ⟨f, -, hend⟩
    have hmem : .pipeEnd pi writable ∈ holding s c (.inr f) := mem_ends.2 hend
    have hpos : 0 < endsOpen (s.pipe pi) writable := h.balanced.pos hmem
    exact isOpen_of_pos hpos

omit [DecidableEq P] in
/-- Outside of system calls, no page waits to be freed. -/
theorem Inv.open_of_live (h : Inv s c) (hq : Quiescent s) {pipe : Pipe} (hpipe : s.pipe pi = some pipe) :
    ∃ writable, pipe.isOpen writable = true := by
  have hsum := h.supply_eq hq (.page pi)
  have hslots : ∑ p, (slots (s.ofile p)).count (.page pi) = 0 :=
    sum_eq_zero fun p _ => count_slots_of_ne (fun f heq => by cases heq) (s.ofile p)
  have hends : ∑ f, (s.file f).ends.count (.page pi) = 0 := sum_eq_zero fun f _ => count_ends_page (s.file f) pi
  rw [hslots, hends] at hsum
  by_contra hclosed
  have hboth : ∀ writable, pipe.isOpen writable = false := fun writable =>
    Bool.eq_false_of_not_eq_true fun hopen => hclosed ⟨writable, hopen⟩
  have hone : supply s (.page pi) = 1 := by
    rw [supply, hpipe, pageDue, Option.any_some]
    have hread : pipe.readopen = false := hboth false
    have hwrite : pipe.writeopen = false := hboth true
    rw [hread, hwrite]
    rfl
  rw [hone] at hsum
  cases hsum

end Counts

/-- What holds when no process is in the middle of a system call. -/
structure Counted (s : State P) : Prop where
  /-- The count of a file is the number of descriptors for it, and none has a file without references. -/
  ref : ∀ f, (s.file f).ref = (Finset.univ.filter fun x : P × Fin NOFILE => s.ofile x.1 x.2 = some f).card
  closed : ∀ f, (s.file f).ref = 0 → ∀ p fd, s.ofile p fd ≠ some f
  /-- The flags of a pipe say which of its ends are files. -/
  readopen : ∀ pi pipe, s.pipe pi = some pipe → (pipe.readopen = true ↔ ∃ f, IsEnd s f pi false)
  writeopen : ∀ pi pipe, s.pipe pi = some pipe → (pipe.writeopen = true ↔ ∃ f, IsEnd s f pi true)
  /-- A page is a pipe exactly as long as a file is one of its ends. -/
  live : ∀ pi, (s.pipe pi).isSome ↔ ∃ f writable, IsEnd s f pi writable

/-- Every run of the system calls keeps the reference counts. A page is freed when both ends of its pipe are
closed, and as often as it was allocated; a page that is a pipe was allocated once more. -/
theorem files_counted {initproc : P} {labels : List Event} {s : State P}
    (hrun : Run Step (init initproc) labels s) :
    (Quiescent s → Counted s) ∧
    (∀ pi t, Step s (.kfree pi) t →
      s.pipe pi = some ⟨false, false⟩ ∧ (∀ f writable, ¬ IsEnd s f pi writable) ∧ t.pipe pi = none) ∧
    (∀ pi, labels.count (.kalloc pi) = labels.count (.kfree pi) + live s pi) ∧
    s.panic = none := by
  obtain ⟨⟨c, hinv⟩, hpages⟩ := reachable_inv hrun
  refine ⟨fun hq => ⟨hinv.ref_eq hq, fun f hzero p fd hfd => ?_, fun pi pipe hpipe => ?_, fun pi pipe hpipe => ?_,
    fun pi => ⟨fun hlive => ?_, ?_⟩⟩, fun pi t hstep => ?_, hpages, hinv.noPanic⟩
  · have hcard := hinv.ref_eq hq f
    rw [hzero] at hcard
    have hempty := card_eq_zero.1 hcard.symm
    exact eq_empty_iff_forall_notMem.1 hempty (p, fd) (mem_filter.2 ⟨mem_univ _, hfd⟩)
  · rw [← hinv.isOpen_iff hq, hpipe]
    exact ⟨fun hopen => ⟨pipe, rfl, hopen⟩, fun ⟨pipe', heq, hopen⟩ => Option.some.inj heq ▸ hopen⟩
  · rw [← hinv.isOpen_iff hq, hpipe]
    exact ⟨fun hopen => ⟨pipe, rfl, hopen⟩, fun ⟨pipe', heq, hopen⟩ => Option.some.inj heq ▸ hopen⟩
  · obtain ⟨pipe, hpipe⟩ := Option.isSome_iff_exists.1 hlive
    obtain ⟨writable, hopen⟩ := hinv.open_of_live hq hpipe
    obtain ⟨f, hend⟩ := (hinv.isOpen_iff hq pi writable).1 ⟨pipe, hpipe, hopen⟩
    exact ⟨f, writable, hend⟩
  · rintro ⟨f, writable, hend⟩
    obtain ⟨pipe, hpipe, -⟩ := (hinv.isOpen_iff hq pi writable).2 ⟨f, hend⟩
    exact Option.isSome_iff_exists.2 ⟨pipe, hpipe⟩
  · have hclosed : ∀ {p : P} {k : Prog P}, s.proc p = .kernel (.kfree pi k) → s.pipe pi = some ⟨false, false⟩ := by
      intro p k hp
      obtain ⟨rest, hrest, -⟩ := hinv.safe hp
      exact hinv.closed_of_mem (hrest.mem_iff.2 List.mem_cons_self)
    have hend : s.pipe pi = some ⟨false, false⟩ → ∀ f writable, ¬ IsEnd s f pi writable := by
      rintro hpipe f writable ⟨-, hend⟩
      have hmem : .pipeEnd pi writable ∈ holding s c (.inr f) := mem_ends.2 hend
      have hpos : 0 < endsOpen (s.pipe pi) writable := hinv.balanced.pos hmem
      rw [hpipe] at hpos
      cases writable <;> exact absurd hpos (Nat.lt_irrefl 0)
    cases hstep with
    | kfree hp hpipe => exact ⟨hclosed hp, hend (hclosed hp), update_self ..⟩
    | kfreePanic hp hpipe =>
      have hsome := hclosed hp
      exact none_elim hpipe hsome

/-- The first process makes a pipe and closes its end for writing. -/
theorem files_counted_pipe : ∃ (labels : List Event) (s : State Unit),
    Run Step (init ()) labels s ∧ s.ofile () 0 = some 0 ∧ s.pipe 0 = some ⟨true, false⟩ ∧ Counted s := by
  have halloc := (((Run.nil : Run Step (init ()) [] _).snoc (.call (p := ()) rfl .pipe)).snoc
    (.filealloc (p := ()) (f := 0) rfl (by decide))).snoc (.filealloc (p := ()) (f := 1) rfl (by decide))
  have hpipe := ((halloc.snoc (@Step.kalloc _ _ _ () 0 _ rfl rfl)).snoc (.setFile (p := ()) (f := 0) rfl)).snoc
    (.setFile (p := ()) (f := 1) rfl)
  have hfds := (hpipe.snoc (@Step.fdalloc _ _ _ () 0 0 _ rfl (by decide))).snoc
    (@Step.fdalloc _ _ _ () 1 1 _ rfl (by decide))
  have hret := (hfds.snoc (.left (p := ()) rfl)).snoc (.ret (p := ()) rfl)
  have hclose := (((hret.snoc (.call (p := ()) rfl (.close 1))).snoc (.readFd (p := ()) rfl)).snoc
    (.clearFd (p := ()) rfl)).snoc (.lastClose (p := ()) (f := 1) rfl rfl)
  have hclosed := (hclose.snoc (@Step.pipeclose _ _ _ () 0 _ _ _ rfl rfl)).snoc (.ret (p := ()) rfl)
  refine ⟨_, _, hclosed, rfl, rfl, (files_counted hclosed).1 fun p prog => ?_⟩
  exact nofun

end Xv6.Files
