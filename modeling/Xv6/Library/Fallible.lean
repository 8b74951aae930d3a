import Xv6.Library.Clash

/-!
# Computations that may stop with an error

A fallible computation passes a state along and either returns a value with the new state or stops
with an error. `Ensures x s Q` says that `x`, started in `s`, returns and that its result meets `Q`;
`Allows x s Q` says so of the runs that return; `Yields x s Q R` says in addition what holds of the
errors. The rules below compute them through sequencing, so that a program is verified by rewriting,
with one specification for each function that it calls.
-/

namespace Xv6.Library

open List

variable {E S α β : Type}

/-- A computation over the states `S` which may stop with an error of type `E`. -/
abbrev Fallible (E S α : Type) := StateT S (Except E) α

/-- Whether a run stops with a given error can be computed. -/
instance decidableEqError [DecidableEq E] (r : Except E α) (e : E) : Decidable (r = .error e) :=
  match r with
  | .ok _ => isFalse nofun
  | .error e' => decidable_of_iff (e' = e) ⟨congrArg _, Except.error.inj⟩

/-- The computation returns from this state and its result satisfies the postcondition. -/
def Ensures (x : Fallible E S α) (s : S) (Q : α → S → Prop) : Prop :=
  ∃ a s', x s = .ok (a, s') ∧ Q a s'

variable {x : Fallible E S α} {Q P : α → S → Prop} {s : S}

/-- A stronger postcondition may be replaced by a weaker one. -/
theorem Ensures.mono (h : Ensures x s P) (hPQ : ∀ a s', P a s' → Q a s') : Ensures x s Q := by
  obtain ⟨a, s', hx, hP⟩ := h
  exact ⟨a, s', hx, hPQ a s' hP⟩

/-- Two postconditions of one run hold of the same result. -/
theorem Ensures.and (hP : Ensures x s P) (hQ : Ensures x s Q) : Ensures x s fun a s' => P a s' ∧ Q a s' := by
  obtain ⟨a, s', hx, ha⟩ := hP
  obtain ⟨b, t', hy, hb⟩ := hQ
  have heq : (a, s') = (b, t') := Except.ok.inj (hx.symm.trans hy)
  obtain ⟨rfl, rfl⟩ := Prod.mk.inj heq
  exact ⟨a, s', hx, ha, hb⟩

/-- The postcondition holds of the result of every run that returned. -/
theorem Ensures.of_run {s' : S} {a : α} (h : Ensures x s Q) (hx : x s = .ok (a, s')) : Q a s' := by
  obtain ⟨b, t', hy, hQ⟩ := h
  have heq : (b, t') = (a, s') := Except.ok.inj (hy.symm.trans hx)
  obtain ⟨rfl, rfl⟩ := Prod.mk.inj heq
  exact hQ

/-- A result that passes a check is one. -/
theorem exists_ok_of_any {r : Except E α} {check : α → Bool} (h : r.toOption.any check = true) :
    ∃ a, r = .ok a ∧ check a = true := by
  cases r with
  | error e => cases h
  | ok a => exact ⟨a, rfl, h⟩

@[simp] theorem ensures_pure (a : α) (s : S) (Q : α → S → Prop) :
    Ensures (pure a : Fallible E S α) s Q ↔ Q a s := by
  constructor
  · rintro ⟨b, s', h, hQ⟩
    have heq : (a, s) = (b, s') := Except.ok.inj h
    obtain ⟨rfl, rfl⟩ := Prod.mk.inj heq
    exact hQ
  · intro hQ
    exact ⟨a, s, rfl, hQ⟩

/-- Running a sequence is running its head and then its tail from the state the head returned. -/
theorem bind_run (x : Fallible E S α) (f : α → Fallible E S β) (s : S) :
    (x >>= f) s = (x s).bind fun r => f r.1 r.2 := by
  change (x s >>= fun r => f r.1 r.2) = _
  rfl

variable {f : α → Fallible E S β}

/-- A sequence returns exactly when its head returns and its tail then does. -/
theorem bind_ok_iff {s' : S} {b : β} :
    (x >>= f) s = .ok (b, s') ↔ ∃ a t, x s = .ok (a, t) ∧ f a t = .ok (b, s') := by
  rw [bind_run]
  cases hx : x s with
  | error e => simp [Except.bind]
  | ok r =>
    obtain ⟨a, t⟩ := r
    simp [Except.bind]

variable {e : E}

/-- A sequence stops where its head stops. -/
theorem bind_error (h : x s = .error e) : (x >>= f) s = .error e := by
  rw [bind_run, h]
  rfl

@[simp] theorem ensures_bind (x : Fallible E S α) (f : α → Fallible E S β) (s : S) (Q : β → S → Prop) :
    Ensures (x >>= f) s Q ↔ Ensures x s fun a t => Ensures (f a) t Q := by
  constructor
  · rintro ⟨b, s', h, hQ⟩
    obtain ⟨a, t, hx, hf⟩ := bind_ok_iff.1 h
    exact ⟨a, t, hx, b, s', hf, hQ⟩
  · rintro ⟨a, t, hx, b, s', hf, hQ⟩
    exact ⟨b, s', bind_ok_iff.2 ⟨a, t, hx, hf⟩, hQ⟩

@[simp] theorem ensures_map (f : α → β) (x : Fallible E S α) (s : S) (Q : β → S → Prop) :
    Ensures (f <$> x) s Q ↔ Ensures x s fun a t => Q (f a) t := by
  rw [map_eq_pure_bind, ensures_bind]
  simp only [ensures_pure]

@[simp] theorem ensures_get (s : S) (Q : S → S → Prop) : Ensures (get : Fallible E S S) s Q ↔ Q s s :=
  ensures_pure s s Q

@[simp] theorem ensures_set (t s : S) (Q : PUnit → S → Prop) : Ensures (set t : Fallible E S PUnit) s Q ↔ Q ⟨⟩ t :=
  ensures_pure PUnit.unit t Q

@[simp] theorem ensures_modify (f : S → S) (s : S) (Q : PUnit → S → Prop) :
    Ensures (modify f : Fallible E S PUnit) s Q ↔ Q ⟨⟩ (f s) :=
  ensures_pure PUnit.unit (f s) Q

/-- If the computation returns from this state, its result satisfies the postcondition. -/
def Allows (x : Fallible E S α) (s : S) (Q : α → S → Prop) : Prop :=
  ∀ a s', x s = .ok (a, s') → Q a s'

theorem Ensures.allows (h : Ensures x s Q) : Allows x s Q := fun _ _ hx => h.of_run hx

/-- What holds if a computation returns holds of the result of one that does. -/
theorem Ensures.and_allows (hP : Ensures x s P) (hQ : Allows x s Q) : Ensures x s fun a s' => P a s' ∧ Q a s' := by
  obtain ⟨a, s', hx, ha⟩ := hP
  exact ⟨a, s', hx, ha, hQ a s' hx⟩

theorem Allows.mono (h : Allows x s P) (hPQ : ∀ a s', P a s' → Q a s') : Allows x s Q :=
  fun a s' hx => hPQ a s' (h a s' hx)

/-- A computation that stops with an error allows every postcondition. -/
theorem allows_of_error (h : x s = .error e) (Q : α → S → Prop) : Allows x s Q := by
  intro a s' hx
  rw [h] at hx
  cases hx

@[simp] theorem allows_pure (a : α) (s : S) (Q : α → S → Prop) : Allows (pure a : Fallible E S α) s Q ↔ Q a s :=
  ⟨fun h => h a s rfl, fun h => ((ensures_pure a s Q).2 h).allows⟩

@[simp] theorem allows_bind (x : Fallible E S α) (f : α → Fallible E S β) (s : S) (Q : β → S → Prop) :
    Allows (x >>= f) s Q ↔ Allows x s fun a t => Allows (f a) t Q := by
  constructor
  · intro h a t hx b s' hf
    exact h b s' (bind_ok_iff.2 ⟨a, t, hx, hf⟩)
  · intro h b s' hb
    obtain ⟨a, t, hx, hf⟩ := bind_ok_iff.1 hb
    exact h a t hx b s' hf

@[simp] theorem allows_get (s : S) (Q : S → S → Prop) : Allows (get : Fallible E S S) s Q ↔ Q s s := allows_pure s s Q

@[simp] theorem allows_modify (f : S → S) (s : S) (Q : PUnit → S → Prop) :
    Allows (modify f : Fallible E S PUnit) s Q ↔ Q ⟨⟩ (f s) :=
  allows_pure PUnit.unit (f s) Q

@[simp] theorem allows_throw (e : E) (s : S) (Q : α → S → Prop) : Allows (throw e : Fallible E S α) s Q :=
  allows_of_error (x := (throw e : Fallible E S α)) rfl Q

/-- The result satisfies the postcondition if the computation returns, and its error satisfies `R`
otherwise. -/
def Yields (x : Fallible E S α) (s : S) (Q : α → S → Prop) (R : E → Prop) : Prop :=
  Allows x s Q ∧ ∀ e, x s = .error e → R e

theorem Ensures.yields (h : Ensures x s Q) (R : E → Prop) : Yields x s Q R := by
  refine ⟨h.allows, fun e he => ?_⟩
  obtain ⟨a, s', hx, -⟩ := h
  rw [hx] at he
  cases he

variable {R : E → Prop}

theorem Yields.mono {R' : E → Prop}
    (h : Yields x s P R) (hPQ : ∀ a s', P a s' → Q a s') (hR : ∀ e, R e → R' e) : Yields x s Q R' :=
  ⟨h.1.mono hPQ, fun e he => hR e (h.2 e he)⟩

/-- A computation that has no error to stop with returns. -/
theorem Yields.ensures (h : Yields x s Q R) (hR : ∀ e, ¬ R e) : Ensures x s Q := by
  cases hx : x s with
  | error e => exact absurd (h.2 e hx) (hR e)
  | ok r => exact ⟨r.1, r.2, hx, h.1 r.1 r.2 hx⟩

theorem yields_of_error (hx : x s = .error e) (hR : R e) : Yields x s Q R := by
  refine ⟨allows_of_error hx Q, fun e' he' => ?_⟩
  rw [hx] at he'
  rwa [← Except.error.inj he']

@[simp] theorem yields_pure (a : α) (s : S) (Q : α → S → Prop) (R : E → Prop) :
    Yields (pure a : Fallible E S α) s Q R ↔ Q a s :=
  ⟨fun h => (allows_pure a s Q).1 h.1, fun h => ((ensures_pure a s Q).2 h).yields R⟩

@[simp] theorem yields_bind (x : Fallible E S α) (f : α → Fallible E S β) (s : S)
    (Q : β → S → Prop) (R : E → Prop) :
    Yields (x >>= f) s Q R ↔ Yields x s (fun a t => Yields (f a) t Q R) R := by
  constructor
  · intro h
    refine ⟨fun a t hx => ⟨(allows_bind x f s Q).1 h.1 a t hx, fun e he => h.2 e ?_⟩,
      fun e he => h.2 e (bind_error he)⟩
    rw [bind_run, hx]
    exact he
  · intro h
    refine ⟨(allows_bind x f s Q).2 (h.1.mono fun _ _ hf => hf.1), fun e he => ?_⟩
    rw [bind_run] at he
    cases hx : x s with
    | error e' =>
      rw [hx] at he
      obtain rfl : e' = e := Except.error.inj he
      exact h.2 e' hx
    | ok r =>
      rw [hx] at he
      exact (h.1 r.1 r.2 hx).2 e he

@[simp] theorem yields_get (s : S) (Q : S → S → Prop) (R : E → Prop) :
    Yields (get : Fallible E S S) s Q R ↔ Q s s :=
  yields_pure s s Q R

@[simp] theorem yields_modify (f : S → S) (s : S) (Q : PUnit → S → Prop) (R : E → Prop) :
    Yields (modify f : Fallible E S PUnit) s Q R ↔ Q ⟨⟩ (f s) :=
  yields_pure PUnit.unit (f s) Q R

/-- The invariant rule for a counted loop: what each iteration carries from one index to the next
holds in the end. -/
theorem ensures_forM_range (body : ℕ → Fallible E S PUnit) (inv : ℕ → S → Prop) (n : ℕ) (s : S) (hinit : inv 0 s)
    (hstep : ∀ i < n, ∀ t, inv i t → Ensures (body i) t fun _ t' => inv (i + 1) t') :
    Ensures ((List.range n).forM body) s fun _ s' => inv n s' := by
  induction n with
  | zero => exact (ensures_pure _ _ _).2 hinit
  | succ n ih =>
    rw [range_succ, forM_eq_forM, forM_append, ensures_bind]
    refine Ensures.mono (ih fun i hi => hstep i (Nat.lt_succ_of_lt hi)) ?_
    intro _ t ht
    rw [forM_cons, forM_nil, ensures_bind]
    refine Ensures.mono (hstep n (Nat.lt_succ_self n) t ht) ?_
    intro _ t' ht'
    exact (ensures_pure _ _ _).2 ht'

/-- A counted loop stops with the error of the first iteration that does not return. -/
theorem forM_range_error {body : ℕ → Fallible E S PUnit} {n i : ℕ} {t : S} (hi : i < n)
    (hbefore : (List.range i).forM body s = .ok (⟨⟩, t)) (herror : body i t = .error e) :
    (List.range n).forM body s = .error e := by
  obtain ⟨m, rfl⟩ := Nat.exists_eq_add_of_lt hi
  have hsplit : List.range (i + m + 1) =
      List.range i ++ i :: (List.range m).map fun j => i + 1 + j := by
    rw [show i + m + 1 = i + (m + 1) by omega, range_add, range_succ_eq_map]
    simp [Function.comp_def, Nat.add_comm, Nat.add_left_comm]
  rw [forM_eq_forM] at hbefore ⊢
  rw [hsplit, forM_append, bind_run, hbefore]
  change (forM (i :: _) body) t = _
  rw [forM_cons, bind_run, herror]
  rfl

/-- A conditional is verified branch by branch. -/
theorem ensures_ite (c : Prop) [Decidable c] (x y : Fallible E S α) (s : S) (Q : α → S → Prop) :
    Ensures (if c then x else y) s Q ↔ (c → Ensures x s Q) ∧ (¬ c → Ensures y s Q) := by
  by_cases hc : c <;> simp [hc]

end Xv6.Library
