import Mathlib.Data.Set.Basic
import Xv6.Library.Circle
import Xv6.Library.Runs
import Xv6.Vm.WalkSpec

/-!
# The page allocator

`kalloc.c`, with the free list threaded through the free pages themselves. What `kalloc` and `kfree` do under
their lock is one step. `kfree` fills the page before it takes the lock and `kalloc` after it has released it,
so these are writes to a page that a caller has, as callers may make them at any time. A call that nobody
interrupts does what it does with the list of free pages over which page tables are modelled.
-/

namespace Xv6.Vm

open Function KernelImage Library List

/-- Memory and `kmem.freelist`; zero is the null pointer. -/
structure Kmem where
  mem : ℕ → Page
  freelist : ℕ

namespace Kmem

/-- `r->next`. -/
def next (s : Kmem) (r : ℕ) : ℕ := (s.mem r).getWord 8 0

/-- A page is overwritten. -/
def store (s : Kmem) (pa : ℕ) (page : Page) : Kmem := { s with mem := update s.mem pa page }

/-- What `kfree` does under the lock. -/
def push (s : Kmem) (r : ℕ) : Kmem where
  mem := update s.mem r ((s.mem r).setWord 8 0 s.freelist)
  freelist := r

/-- What `kalloc` does under the lock. -/
def pop (s : Kmem) : Kmem := if s.freelist ≠ 0 then { s with freelist := s.next s.freelist } else s

/-- `kalloc`. -/
def kalloc (s : Kmem) : ℕ × Kmem :=
  (s.freelist, if s.freelist ≠ 0 then s.pop.store s.freelist (filled 5) else s)

variable [KernelImage]

/-- `kfree`, without a result if it panics. -/
def kfree (s : Kmem) (pa : ℕ) : Option Kmem :=
  if pa % PGSIZE ≠ 0 ∨ pa < kend ∨ PHYSTOP ≤ pa then none
  else some ((s.store pa (filled 1)).push pa)

/-- The addresses over which the loop of `freerange` goes. -/
def rangePages (start stop : ℕ) : List ℕ :=
  (List.range ((stop - PGROUNDUP start) / PGSIZE)).map fun i => PGROUNDUP start + i * PGSIZE

/-- `freerange`. -/
def freerange (s : Kmem) (start stop : ℕ) : Option Kmem := (rangePages start stop).foldlM kfree s

/-- `kinit`. -/
def kinit (mem : ℕ → Page) : Option Kmem := freerange ⟨mem, 0⟩ kend PHYSTOP

end Kmem

/-- The allocator, with the pages that callers have. -/
structure Allocator where
  kmem : Kmem
  used : Set ℕ

/-- What happens in a step. -/
inductive AllocEvent
  | kalloc (r : ℕ)
  | kfree (pa : ℕ)
  | write (pa : ℕ)

/-- The steps of the callers: only pages that they have are freed and written. -/
inductive Allocator.Step : Allocator → AllocEvent → Allocator → Prop
  | kalloc (s : Allocator) : Step s (.kalloc s.kmem.freelist)
      ⟨s.kmem.pop, s.used ∪ {r | r = s.kmem.freelist ∧ r ≠ 0}⟩
  | kfree (s : Allocator) (pa : ℕ) (h : pa ∈ s.used) : Step s (.kfree pa) ⟨s.kmem.push pa, s.used \ {pa}⟩
  | write (s : Allocator) (pa : ℕ) (page : Page) (h : pa ∈ s.used) :
      Step s (.write pa) ⟨s.kmem.store pa page, s.used⟩

section Threaded

variable [KernelImage] {s : Kmem} {l : List ℕ} {pa : ℕ}

/-- The free list goes through the pages of a list, each of them once. -/
structure Threaded (s : Kmem) (l : List ℕ) : Prop where
  head : s.freelist = l.headD 0
  chain : Chain s.next l 0
  nodup : l.Nodup
  pages : ∀ pa ∈ l, PageAddress pa

/-- Pages that are not free can be written. -/
theorem Threaded.store (h : Threaded s l) (hpa : pa ∉ l) (page : Page) : Threaded (s.store pa page) l where
  head := h.head
  chain := h.chain.congr fun r hr => by
    have hne : r ≠ pa := fun heq => hpa (heq ▸ hr)
    simp only [Kmem.next, Kmem.store, update_of_ne hne]
  nodup := h.nodup
  pages := h.pages

/-- A page goes in front of the list. -/
theorem Threaded.push (h : Threaded s l) (hpage : PageAddress pa) (hpa : pa ∉ l) :
    Threaded (s.push pa) (pa :: l) := by
  have hfirst : s.freelist < 256 ^ 8 := by
    rw [h.head]
    cases l with
    | nil => decide
    | cons r l => exact (h.pages r mem_cons_self).2.2.trans (by decide)
  refine ⟨rfl, ⟨?_, (h.store hpa _).chain⟩, nodup_cons.2 ⟨hpa, h.nodup⟩, ?_⟩
  · simp only [Kmem.next, Kmem.push, update_self]
    rw [getWord_setWord_same _ _ (by decide), Nat.mod_eq_of_lt hfirst, h.head]
  · intro r hr
    obtain rfl | hr := mem_cons.1 hr
    · exact hpage
    · exact h.pages r hr

/-- The first page leaves the list. -/
theorem Threaded.pop {r : ℕ} (h : Threaded s (r :: l)) : s.freelist = r ∧ r ≠ 0 ∧ r ∉ l ∧ Threaded s.pop l := by
  have hhead : s.freelist = r := h.head
  have hr := (h.pages r mem_cons_self).ne_zero
  obtain ⟨hnot, hnodup⟩ := nodup_cons.1 h.nodup
  have hpop : s.pop = { s with freelist := s.next r } := by
    rw [Kmem.pop, if_pos (hhead ▸ hr), hhead]
  refine ⟨hhead, hr, hnot, ?_⟩
  rw [hpop]
  exact ⟨h.chain.1, h.chain.2.congr fun _ _ => by simp only [Kmem.next], hnodup,
    fun x hx => h.pages x (mem_cons_of_mem r hx)⟩

/-- `kfree` does not panic at a page. -/
theorem kfree_eq (hpage : PageAddress pa) : s.kfree pa = some ((s.store pa (filled 1)).push pa) := by
  have hcheck : ¬ (pa % PGSIZE ≠ 0 ∨ pa < kend ∨ PHYSTOP ≤ pa) := by
    rintro (halign | hlow | hhigh)
    · exact halign hpage.1
    · exact absurd hpage.2.1 (not_le.2 hlow)
    · exact absurd hpage.2.2 (not_lt.2 hhigh)
  exact if_neg hcheck

theorem Threaded.kfree (h : Threaded s l) (hpage : PageAddress pa) (hpa : pa ∉ l) :
    ∃ s', s.kfree pa = some s' ∧ Threaded s' (pa :: l) :=
  ⟨_, kfree_eq hpage, (h.store hpa _).push hpage hpa⟩

/-- The memory of callers is the one of the model whose free pages are a list, and the list is the same. -/
structure Kmem.Refines (s : Kmem) (phys : Phys) : Prop where
  threaded : Threaded s phys.freelist
  mem : ∀ pa, pa ∉ phys.freelist → s.mem pa = phys.mem pa

/-- A call of `kalloc` takes the first page of the list. -/
theorem Kmem.Refines.kalloc {phys : Phys} (h : s.Refines phys) :
    Ensures Vm.kalloc phys fun r phys' => s.kalloc.1 = r.getD 0 ∧ s.kalloc.2.Refines phys' := by
  refine kalloc_spec (fun hnil => ?_) fun r rest hcons => ?_
  · have hzero : s.freelist = 0 := h.threaded.head.trans (by rw [hnil]; rfl)
    rw [Kmem.kalloc, if_neg (not_not.2 hzero)]
    exact ⟨hzero, h.threaded, h.mem⟩
  · obtain ⟨hhead, hne, hnot, hpop⟩ := (hcons ▸ h.threaded).pop
    rw [Kmem.kalloc, if_pos (hhead ▸ hne), hhead]
    refine ⟨rfl, hpop.store hnot _, fun pa hpa => ?_⟩
    have hmem : s.pop.mem = s.mem := by
      rw [Kmem.pop]
      split <;> rfl
    by_cases hr : pa = r
    · simp [Kmem.store, hr]
    · simpa [Kmem.store, hr, hmem] using h.mem pa (by simp [hcons, hr, hpa])

/-- A call of `kfree` puts a page in front of the list. -/
theorem Kmem.Refines.kfree {phys : Phys} (h : s.Refines phys) (hpage : PageAddress pa) (hpa : pa ∉ phys.freelist) :
    Ensures (Vm.kfree pa) phys fun _ phys' => ∃ s', s.kfree pa = some s' ∧ s'.Refines phys' := by
  refine kfree_spec hpage ⟨_, kfree_eq hpage, (h.threaded.store hpa _).push hpage hpa, fun x hx => ?_⟩
  obtain ⟨hne, hx⟩ := not_or.1 (fun hor => hx (mem_cons.2 hor))
  simpa [Kmem.push, Kmem.store, Phys.free, hne] using h.mem x hx

/-- The loop of `freerange` goes over all pages of the allocator. -/
theorem mem_rangePages : pa ∈ Kmem.rangePages kend PHYSTOP ↔ PageAddress pa := by
  have hend := kend_le_phystop
  change _ ≤ 0x88000000 at hend
  have hround : PGROUNDUP kend = (kend + 4095) / 4096 * 4096 := by
    rw [PGROUNDUP, Nat.mod_eq_of_lt]
    · rfl
    · change _ + 4096 - 1 < 2 ^ 64
      omega
  rw [Kmem.rangePages, mem_map, hround, PageAddress]
  change (∃ i, i ∈ List.range ((0x88000000 - _) / 4096) ∧ _ + i * 4096 = pa) ↔ pa % 4096 = 0 ∧ _ ∧ pa < 0x88000000
  simp only [mem_range]
  constructor
  · rintro ⟨i, hi, rfl⟩
    omega
  · intro h
    exact ⟨(pa - (kend + 4095) / 4096 * 4096) / 4096, by omega, by omega⟩

/-- After `kinit` all pages are free. -/
theorem threaded_kinit (mem : ℕ → Page) :
    ∃ s, Kmem.kinit mem = some s ∧ Threaded s (Kmem.rangePages kend PHYSTOP).reverse := by
  have hloop : ∀ (todo l : List ℕ) (s : Kmem), Threaded s l → (∀ pa ∈ todo, PageAddress pa) →
      (todo ++ l).Nodup → ∃ s', todo.foldlM Kmem.kfree s = some s' ∧ Threaded s' (todo.reverse ++ l) := by
    intro todo
    induction todo with
    | nil => exact fun l s h _ _ => ⟨s, rfl, h⟩
    | cons pa todo ih =>
      intro l s h hpages hnodup
      rw [cons_append, nodup_cons, mem_append, not_or] at hnodup
      obtain ⟨hnot, hnodup⟩ := hnodup
      obtain ⟨s₁, hfree, h₁⟩ := h.kfree (hpages pa mem_cons_self) hnot.2
      obtain ⟨s', hrest, h'⟩ := ih (pa :: l) s₁ h₁ (fun x hx => hpages x (mem_cons_of_mem pa hx))
        (nodup_middle.2 (nodup_cons.2 ⟨by simp [hnot], hnodup⟩))
      refine ⟨s', ?_, by simpa using h'⟩
      rw [foldlM_cons, hfree]
      exact hrest
  have hnodup : (Kmem.rangePages kend PHYSTOP).Nodup := by
    refine List.Nodup.map (fun i j hij => ?_) nodup_range
    change _ + i * 4096 = _ + j * 4096 at hij
    omega
  have hempty : Threaded ⟨mem, 0⟩ [] := ⟨rfl, trivial, nodup_nil, fun _ h => absurd h not_mem_nil⟩
  simpa [Kmem.kinit, Kmem.freerange] using hloop _ [] _ hempty (fun pa => mem_rangePages.1) (by simpa using hnodup)

end Threaded

section Runs

variable [KernelImage] {mem : ℕ → Page} {kmem : Kmem} {events : List AllocEvent} {t : Allocator}

/-- Every page is free or with a caller. -/
structure Allocator.Inv (s : Allocator) (l : List ℕ) : Prop extends Threaded s.kmem l where
  apart : ∀ pa ∈ l, pa ∉ s.used
  all : ∀ pa, PageAddress pa ↔ pa ∈ l ∨ pa ∈ s.used

/-- A step keeps the free list in order. -/
theorem Allocator.Inv.step {s : Allocator} {l : List ℕ} {e : AllocEvent} (h : s.Inv l) (hstep : s.Step e t) :
    ∃ l', t.Inv l' := by
  cases hstep with
  | kalloc =>
    cases l with
    | nil =>
      have hzero : s.kmem.freelist = 0 := h.head
      have hnone : {r | r = s.kmem.freelist ∧ r ≠ 0} = (∅ : Set ℕ) := by
        ext r
        simp [hzero]
      rw [hnone, Set.union_empty, Kmem.pop, if_neg (not_not.2 hzero)]
      exact ⟨[], h⟩
    | cons r l =>
      obtain ⟨hhead, hne, hnot, hpop⟩ := h.toThreaded.pop
      have hone : {x | x = s.kmem.freelist ∧ x ≠ 0} = ({r} : Set ℕ) := by
        ext x
        simp only [hhead, Set.mem_ofPred_eq, Set.mem_singleton_iff, and_iff_left_iff_imp]
        exact fun hx => hx ▸ hne
      rw [hone]
      refine ⟨l, hpop, fun pa hpa hused => ?_, fun pa => ?_⟩
      · obtain hused | rfl := hused
        · exact h.apart pa (mem_cons_of_mem r hpa) hused
        · exact hnot hpa
      · rw [h.all, mem_cons, Set.mem_union, Set.mem_singleton_iff]
        tauto
  | kfree pa hused =>
    have hfree : pa ∉ l := fun hpa => h.apart pa hpa hused
    refine ⟨pa :: l, h.push ((h.all pa).2 (.inr hused)) hfree, fun x hx hxu => ?_, fun x => ?_⟩
    · obtain rfl | hx := mem_cons.1 hx
      · exact hxu.2 rfl
      · exact h.apart x hx hxu.1
    · rw [h.all, mem_cons, Set.mem_sdiff, Set.mem_singleton_iff]
      by_cases hx : x = pa
      · simp [hx, hused]
      · simp [hx]
  | write pa page hused => exact ⟨l, h.store (fun hpa => h.apart pa hpa hused) page, h.apart, h.all⟩

/-- The steps of a call of `kalloc` that returns `r`. -/
def kallocCall (r : ℕ) : List AllocEvent := .kalloc r :: if r ≠ 0 then [.write r] else []

/-- The steps of a call of `kfree`. -/
def kfreeCall (pa : ℕ) : List AllocEvent := [.write pa, .kfree pa]

omit [KernelImage] in
/-- A call of `kalloc` is a run. -/
theorem Allocator.run_kalloc (s : Allocator) : Run Allocator.Step s (kallocCall s.kmem.kalloc.1)
    ⟨s.kmem.kalloc.2, s.used ∪ {r | r = s.kmem.kalloc.1 ∧ r ≠ 0}⟩ := by
  have hpop := Run.nil.snoc (Allocator.Step.kalloc s)
  have hfirst : s.kmem.kalloc.1 = s.kmem.freelist := rfl
  by_cases hzero : s.kmem.freelist = 0
  · have hsame : s.kmem.kalloc.2 = s.kmem.pop := by
      rw [Kmem.kalloc, Kmem.pop, if_neg (not_not.2 hzero), if_neg (not_not.2 hzero)]
    rw [hsame, hfirst, kallocCall, if_neg (not_not.2 hzero)]
    exact hpop
  · have hsame : s.kmem.kalloc.2 = s.kmem.pop.store s.kmem.freelist (filled 5) := if_pos hzero
    rw [hsame, hfirst, kallocCall, if_pos hzero]
    exact hpop.snoc (.write _ _ _ (.inr ⟨rfl, hzero⟩))

/-- A call of `kfree` for a page that a caller has is a run. -/
theorem Allocator.run_kfree {s : Allocator} {pa : ℕ} (hused : pa ∈ s.used) (hpage : PageAddress pa) :
    ∃ kmem, s.kmem.kfree pa = some kmem ∧ Run Allocator.Step s (kfreeCall pa) ⟨kmem, s.used \ {pa}⟩ := by
  have hfill := Run.nil.snoc (Allocator.Step.write s pa (filled 1) hused)
  exact ⟨_, kfree_eq hpage, hfill.snoc (.kfree ⟨s.kmem.store pa (filled 1), s.used⟩ pa hused)⟩

/-- Whatever callers do, the free list is a list of the pages that they do not have. A call of `kalloc` is a run
of the steps that gives the caller a page that nobody has, and none only if there is none; a call of `kfree` does
not panic and is a run of the steps that takes the page from the caller. -/
theorem allocator_run (hinit : Kmem.kinit mem = some kmem) (hrun : Run Allocator.Step ⟨kmem, ∅⟩ events t) :
    ∃ l, Chain t.kmem.next l 0 ∧ t.kmem.freelist = l.headD 0 ∧ l.Nodup ∧
      (∀ pa ∈ l, pa % PGSIZE = 0 ∧ KernelImage.kend ≤ pa ∧ pa < PHYSTOP) ∧ (∀ pa ∈ l, pa ∉ t.used) ∧
      (∀ pa, pa ∈ Kmem.rangePages KernelImage.kend PHYSTOP ↔ pa ∈ l ∨ pa ∈ t.used) ∧
      (t.kmem.kalloc.1 = 0 ↔ ∀ pa ∈ Kmem.rangePages KernelImage.kend PHYSTOP, pa ∈ t.used) ∧
      (t.kmem.kalloc.1 ≠ 0 → t.kmem.kalloc.1 ∉ t.used) ∧
      Run Allocator.Step t (kallocCall t.kmem.kalloc.1)
        ⟨t.kmem.kalloc.2, t.used ∪ {r | r = t.kmem.kalloc.1 ∧ r ≠ 0}⟩ ∧
      ∀ pa ∈ t.used, ∃ kmem, t.kmem.kfree pa = some kmem ∧
        Run Allocator.Step t (kfreeCall pa) ⟨kmem, t.used \ {pa}⟩ := by
  have hstart : ∃ l, Allocator.Inv ⟨kmem, ∅⟩ l := by
    obtain ⟨s, hs, hthreaded⟩ := threaded_kinit mem
    obtain rfl := Option.some.inj (hinit.symm.trans hs)
    exact ⟨_, hthreaded, fun _ _ => id, fun pa => by simp [← mem_rangePages]⟩
  obtain ⟨l, h⟩ := hrun.invariant (fun s => ∃ l, s.Inv l) hstart fun _ _ _ ⟨_, h⟩ hstep => h.step hstep
  refine ⟨l, h.chain, h.head, h.nodup, h.pages, h.apart, fun pa => mem_rangePages.trans (h.all pa), ?_, ?_,
    t.run_kalloc, fun pa hpa => Allocator.run_kfree hpa ((h.all pa).2 (.inr hpa))⟩
  · rw [Kmem.kalloc, h.head]
    constructor
    · intro hzero pa hpa
      cases l with
      | nil => exact ((h.all pa).1 (mem_rangePages.1 hpa)).resolve_left not_mem_nil
      | cons r l => exact absurd hzero (h.pages r mem_cons_self).ne_zero
    · intro hall
      cases l with
      | nil => rfl
      | cons r l =>
        have hr := hall r (mem_rangePages.2 (h.pages r mem_cons_self))
        exact absurd hr (h.apart r mem_cons_self)
  · rw [Kmem.kalloc, h.head]
    cases l with
    | nil => exact fun hne => absurd rfl hne
    | cons r l => exact fun _ => h.apart r mem_cons_self

end Runs

section Concrete

attribute [local instance] linkedImage

/-- A run in which a page is allocated, written and freed. -/
theorem allocator_run_one : ∃ kmem r t, Kmem.kinit (fun _ => filled 0) = some kmem ∧ r ≠ 0 ∧
    Run Allocator.Step ⟨kmem, ∅⟩ [.kalloc r, .write r, .write r, .kfree r] t ∧
    ∃ l, Chain t.kmem.next l 0 ∧ l.Nodup ∧ ∀ pa, pa ∈ Kmem.rangePages kend PHYSTOP ↔ pa ∈ l := by
  obtain ⟨kmem, hinit, hthreaded⟩ := threaded_kinit fun _ => filled 0
  have hne : kmem.freelist ≠ 0 := by
    have hmem : 0x87FFF000 ∈ (Kmem.rangePages kend PHYSTOP).reverse :=
      List.mem_reverse.2 (mem_rangePages.2 (by decide))
    obtain ⟨r, l, hl⟩ := List.exists_cons_of_ne_nil (List.ne_nil_of_mem hmem)
    obtain ⟨hhead, hr, -⟩ := (hl ▸ hthreaded).pop
    rwa [hhead]
  let used : Set ℕ := ∅ ∪ {r | r = kmem.freelist ∧ r ≠ 0}
  have hused : kmem.freelist ∈ used := .inr ⟨rfl, hne⟩
  have hcall : Run Allocator.Step ⟨kmem, ∅⟩ [.kalloc kmem.freelist, .write kmem.freelist]
      ⟨kmem.kalloc.2, used⟩ := by
    have hcall := Allocator.run_kalloc ⟨kmem, ∅⟩
    rwa [kallocCall, if_pos (show (Allocator.mk kmem ∅).kmem.kalloc.1 ≠ 0 from hne)] at hcall
  have hrun := (hcall.snoc (.write ⟨_, used⟩ _ (filled 7) hused)).snoc (.kfree ⟨_, used⟩ _ hused)
  obtain ⟨l, hchain, -, hnodup, -, -, hall, -⟩ := allocator_run hinit hrun
  refine ⟨kmem, _, _, hinit, hne, hrun, l, hchain, hnodup, fun pa => (hall pa).trans (or_iff_left ?_)⟩
  rintro ⟨hnone | hpa, hnot⟩
  · exact hnone
  · exact hnot hpa.1

end Concrete

end Xv6.Vm
