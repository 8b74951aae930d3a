import Mathlib.Data.List.Forall2
import Mathlib.Logic.Relation
import Xv6.Library.Clash

/-!
# Runs of a labelled transition system

A run is a sequence of steps with the labels of the steps. What every step preserves holds in every
state that a run reaches; the property may also speak about the labels seen so far. Two systems which
move together stay related if every pair of steps keeps them so.
-/

namespace Xv6.Library

open List

variable {S L : Type*}

/-- The runs from a state, with their labels in order and the state that they reach. -/
inductive Run (step : S → L → S → Prop) (s : S) : List L → S → Prop
  | nil : Run step s [] s
  | snoc {labels : List L} {t u : S} {l : L} (run : Run step s labels t) (last : step t l u) :
      Run step s (labels ++ [l]) u

variable {step : S → L → S → Prop} {s t : S} {labels : List L}

/-- A run may be read from its first step on. -/
theorem Run.cons {u : S} {l : L} (first : step s l t) (hrun : Run step t labels u) :
    Run step s (l :: labels) u := by
  induction hrun with
  | nil => exact Run.nil.snoc first
  | snoc run last ih => exact ih.snoc last

/-- Two runs in a row are a run. -/
theorem Run.append {u : S} {labels' : List L} (hrun : Run step s labels t) (hrun' : Run step t labels' u) :
    Run step s (labels ++ labels') u := by
  induction hrun' with
  | nil => simpa using hrun
  | snoc run last ih =>
    rw [← append_assoc]
    exact ih.snoc last

/-- A property of states and histories that every step preserves holds along every run. -/
theorem Run.history (inv : List L → S → Prop) (hrun : Run step s labels t) (hinit : inv [] s)
    (hstep : ∀ ls t l u, inv ls t → step t l u → inv (ls ++ [l]) u) : inv labels t := by
  induction hrun with
  | nil => exact hinit
  | snoc run last ih => exact hstep _ _ _ _ ih last

/-- A property of states that every step preserves holds in every state that a run reaches. -/
theorem Run.invariant (inv : S → Prop) (hrun : Run step s labels t) (hinit : inv s)
    (hstep : ∀ t l u, inv t → step t l u → inv u) : inv t := by
  induction hrun with
  | nil => exact hinit
  | snoc run last ih => exact hstep _ _ _ ih last

/-- A run whose labels are all good is a run of every system that has the steps with good labels. -/
theorem Run.restrict {step' : S → L → S → Prop} (good : L → Prop) (hrun : Run step s labels t)
    (hgood : ∀ l ∈ labels, good l) (h : ∀ t l u, step t l u → good l → step' t l u) : Run step' s labels t := by
  induction hrun with
  | nil => exact Run.nil
  | snoc run last ih =>
    have hinit := ih fun l hl => hgood l (mem_append_left _ hl)
    exact hinit.snoc (h _ _ _ last (hgood _ (mem_append_right _ mem_cons_self)))

/-- What an executable semantics computes is reached by a run, if what it computes for one action is reached
by a step. -/
theorem Run.of_foldlM {A : Type*} {exec : S → A → Option S} {s : S}
    (hstep : ∀ s a t, exec s a = some t → ∃ l, step s l t) {actions : List A}
    (h : actions.foldlM exec s = some t) : ∃ labels, Run step s labels t := by
  induction actions generalizing s with
  | nil =>
    cases h
    exact ⟨[], Run.nil⟩
  | cons a rest ih =>
    rw [foldlM_cons] at h
    obtain ⟨u, hu, hrest⟩ := Option.bind_eq_some_iff.1 h
    obtain ⟨l, hl⟩ := hstep s a u hu
    obtain ⟨labels, hrun⟩ := ih hrest
    exact ⟨l :: labels, hrun.cons hl⟩

/-- The same for steps without labels. -/
theorem reflTransGen_of_foldlM {A : Type*} {exec : S → A → Option S} {r : S → S → Prop} {s : S}
    (hstep : ∀ s a t, exec s a = some t → r s t) {actions : List A}
    (h : actions.foldlM exec s = some t) : Relation.ReflTransGen r s t := by
  induction actions generalizing s with
  | nil =>
    cases h
    exact .refl
  | cons a rest ih =>
    rw [foldlM_cons] at h
    obtain ⟨u, hu, hrest⟩ := Option.bind_eq_some_iff.1 h
    exact .head (hstep s a u hu) (ih hrest)

/-- A run without labels has not moved. -/
theorem Run.eq_of_nil {s t : S} (hrun : Run step s [] t) : t = s := by
  generalize hls : ([] : List L) = ls at hrun
  cases hrun with
  | nil => rfl
  | snoc => exact absurd hls.symm (concat_ne_nil _ _)

/-- The first step of a run. -/
theorem Run.head {s u : S} {labels : List L} {l : L} (hrun : Run step s (l :: labels) u) :
    ∃ t, step s l t ∧ Run step t labels u := by
  generalize hls : l :: labels = ls at hrun
  induction hrun generalizing labels with
  | nil => cases hls
  | @snoc ls t u l' run last ih =>
    cases ls with
    | nil =>
      rw [nil_append] at hls
      obtain ⟨rfl, rfl⟩ := List.cons.inj hls
      rw [run.eq_of_nil] at last
      exact ⟨_, last, Run.nil⟩
    | cons a rest =>
      rw [cons_append] at hls
      obtain ⟨rfl, rfl⟩ := List.cons.inj hls
      obtain ⟨v, hfirst, hrest⟩ := ih rfl
      exact ⟨v, hfirst, hrest.snoc last⟩

/-- Two systems that move together, on labels which agree, stay related. -/
theorem Run.lockstep {T M : Type*} {step' : T → M → T → Prop} (rel : S → T → Prop)
    {agree same : L → M → Prop} {labels : List L} {labels' : List M}
    (hagree : List.Forall₂ agree labels labels') {s s' : S} {t t' : T}
    (hrun : Run step s labels s') (hrun' : Run step' t labels' t') (hinit : rel s t)
    (hstep : ∀ a b l m a' b', rel a b → step a l a' → step' b m b' → agree l m →
      rel a' b' ∧ same l m) : rel s' t' ∧ List.Forall₂ same labels labels' := by
  induction hagree generalizing s t with
  | nil =>
    rw [hrun.eq_of_nil, hrun'.eq_of_nil]
    exact ⟨hinit, .nil⟩
  | @cons l m ls ms hlm hrest ih =>
    obtain ⟨a, ha, hrun⟩ := hrun.head
    obtain ⟨b, hb, hrun'⟩ := hrun'.head
    obtain ⟨hrel, hsame⟩ := hstep s t l m a b hinit ha hb hlm
    obtain ⟨hend, hall⟩ := ih hrun hrun' hrel
    exact ⟨hend, .cons hsame hall⟩
end Xv6.Library
