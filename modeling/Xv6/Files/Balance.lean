import Xv6.Files.Accounts

/-!
# The books of the file table

In every state that the system reaches, the accounts of the processes, together with the ends of pipes that
the files answer for, add up to what the reference counts and the flags of the pipes say. Each process runs a
program that is safe with its account, so that no step uses a file or a pipe that is not there.
-/

namespace Xv6.Files

open Function Library List Res
variable {P : Type}

/-- Who answers for what: processes by their accounts, files for the ends of pipes. -/
def holding (s : State P) (c : P → Account P) : P ⊕ Fin NFILE → List Res
  | .inl p => (c p).total
  | .inr f => (s.file f).ends

/-- One for an end of a pipe that is open. -/
def endsOpen (pipe : Option Pipe) (writable : Bool) : ℕ := if pipe.any (·.isOpen writable) then 1 else 0

/-- One for a page that is to be freed, as both ends of the pipe are closed. -/
def pageDue (pipe : Option Pipe) : ℕ := if pipe.any (fun pi => !pi.readopen && !pi.writeopen) then 1 else 0

/-- What has to be answered for. -/
def supply (s : State P) : Res → ℕ
  | .file f => (s.file f).ref
  | .pipeEnd pi writable => endsOpen (s.pipe pi) writable
  | .page pi => pageDue (s.pipe pi)

/-- The process that a process is making, if any. -/
def making (c : P → Account P) (p : P) : List P := ((c p).child.map Prod.fst).toList

variable {own : Descriptors}

theorem making_of_child {c : P → Account P} {p np : P} (h : (c p).child = some (np, own)) : making c p = [np] := by
  rw [making, h]
  rfl

theorem mem_making {c : P → Account P} {p np : P} (h : (c p).child = some (np, own)) : np ∈ making c p := by
  rw [making_of_child h]
  exact mem_cons_self

theorem making_of_none {c : P → Account P} {p : P} (h : (c p).child = none) : making c p = [] := by
  rw [making, h]
  rfl

/-- What holds of a slot of the process table, with its account. -/
def Good : Proc P → Account P → Descriptors → Prop
  | .unused, c, own | .zombie, c, own => c = .ofFiles own ∧ ∀ fd, own fd = none
  | .user, c, own | .used, c, own => c.child = none ∧ c.fresh = [] ∧ c.total.Perm (slots own)
  | .kernel prog, c, own => Safe prog c own

/-- The books are in order. -/
structure Inv [Fintype P] (s : State P) (c : P → Account P) : Prop where
  balanced : Balanced (holding s c) (supply s)
  typed : ∀ f, (s.file f).ref = 0 → (s.file f).type = .none
  fresh : ∀ p, ∀ f ∈ (c p).fresh, (s.file f).ref = 1 ∧ (s.file f).type = .none ∧ .file f ∈ (c p).total
  good : ∀ p, Good (s.proc p) (c p) (s.ofile p)
  children : Allotted (making c) fun np => s.proc np = .used
  files : ∀ p np own, (c p).child = some (np, own) → s.ofile np = own
  noPanic : s.panic = none

variable {writable : Bool}

section Supply

variable [DecidableEq P] {s : State P} {f : Fin NFILE} {file : File} {pi : ℕ} {pipe : Option Pipe}

omit [DecidableEq P] in
theorem supply_setFile (r : Res) : supply (s.setFile f file) r = if r = .file f then file.ref else supply s r := by
  cases r with
  | file g =>
    change (update s.file f file g).ref = _
    by_cases hg : g = f
    · rw [hg, update_self, if_pos rfl]
    · rw [update_of_ne hg, if_neg fun heq => hg (Res.file.inj heq)]
      rfl
  | pipeEnd | page =>
    rw [if_neg nofun]
    rfl

theorem ends_of_type (h : file.type = .none) : file.ends = [] := by
  rw [File.ends, h]
  rfl

theorem freeFile_some {files : Fin NFILE → File} (h : freeFile files = some f) : (files f).ref = 0 := by
  have hfound := List.find?_some h
  exact of_decide_eq_true hfound

theorem endsOpen_some (pipe : Pipe) (writable : Bool) :
    endsOpen (some pipe) writable = if pipe.isOpen writable then 1 else 0 := rfl

theorem isOpen_of_pos {pipe : Option Pipe} (h : 0 < endsOpen pipe writable) :
    ∃ pi, pipe = some pi ∧ pi.isOpen writable = true := by
  cases pipe with
  | none => exact absurd h (Nat.lt_irrefl 0)
  | some pi =>
    refine ⟨pi, rfl, ?_⟩
    by_contra hclosed
    rw [endsOpen_some, if_neg hclosed] at h
    exact Nat.lt_irrefl 0 h

theorem Pipe.isOpen_close (pipe : Pipe) (writable w : Bool) :
    (pipe.close writable).isOpen w = if w = writable then false else pipe.isOpen w := by
  cases writable <;> cases w <;> rfl

/-- The page of a pipe with an open end is in use. -/
theorem pageDue_of_isOpen {pipe : Pipe} (h : pipe.isOpen writable = true) : pageDue (some pipe) = 0 := by
  obtain ⟨readopen, writeopen⟩ := pipe
  cases writable with
  | false =>
    cases h
    rfl
  | true =>
    cases h
    cases readopen <;> rfl

end Supply

namespace Inv

variable [Fintype P] [DecidableEq P] {s t : State P} {c : P → Account P} {p q : P} {cp : Account P}
  {proc : Proc P}

section

variable (h : Inv s c)

include h

omit [DecidableEq P] in
/-- A process answers only for what is there. -/
theorem supply_pos {r : Res} (hr : r ∈ (c p).total) : 0 < supply s r := by
  have hmem : r ∈ holding s c (.inl p) := hr
  exact h.balanced.pos hmem

/-- A fresh file is known to one process. -/
theorem fresh_unique {f : Fin NFILE} (hfresh : f ∈ (c q).fresh) (hp : .file f ∈ (c p).total) : q = p := by
  obtain ⟨href, -, htotal⟩ := h.fresh q f hfresh
  have hone : supply s (.file f) ≤ 1 := href.le
  have hmem : .file f ∈ holding s c (.inl q) := htotal
  have hmem' : .file f ∈ holding s c (.inl p) := hp
  exact Sum.inl.inj (h.balanced.unique hone hmem hmem')

omit [DecidableEq P] in
/-- A process that is being made does nothing. -/
theorem child_ne {np : P} (hchild : (c q).child = some (np, own)) (hp : s.proc p ≠ .used) : np ≠ p := by
  intro heq
  apply hp
  rw [← heq]
  exact h.children.inUse q np (mem_making hchild)

/-- A step of one process, with its new account. -/
theorem move (hproc : t.proc = update s.proc p proc) (hp : s.proc p ≠ .used) (hproc' : proc ≠ .used)
    (hofile : ∀ q, q ≠ p → t.ofile q = s.ofile q) (hbalanced : Balanced (holding t (update c p cp)) (supply t))
    (htyped : ∀ f, (t.file f).ref = 0 → (t.file f).type = .none)
    (hfresh : ∀ f ∈ cp.fresh, (t.file f).ref = 1 ∧ (t.file f).type = .none ∧ .file f ∈ cp.total)
    (hothers : ∀ q, q ≠ p → ∀ f ∈ (c q).fresh, t.file f = s.file f) (hgood : Good proc cp (t.ofile p))
    (hchild : cp.child = (c p).child) (hpanic : t.panic = s.panic) : Inv t (update c p cp) where
  balanced := hbalanced
  typed := htyped
  fresh q f hf := by
    by_cases heq : q = p
    · subst heq
      rw [update_self] at hf ⊢
      exact hfresh f hf
    · rw [update_of_ne heq] at hf ⊢
      rw [hothers q heq f hf]
      exact h.fresh q f hf
  good q := by
    rw [hproc]
    by_cases heq : q = p
    · subst heq
      rw [update_self, update_self]
      exact hgood
    · rw [update_of_ne heq, update_of_ne heq, hofile q heq]
      exact h.good q
  children := by
    have hsame : making (update c p cp) = making c := by
      funext q
      rw [making, making]
      by_cases heq : q = p
      · rw [heq, update_self, hchild]
      · rw [update_of_ne heq]
    rw [hsame]
    apply h.children.congr
    intro np
    rw [hproc]
    by_cases heq : np = p
    · rw [heq, update_self]
      exact iff_of_false hproc' hp
    · rw [update_of_ne heq]
  files q np own hq := by
    have hold : (c q).child = some (np, own) := by
      by_cases heq : q = p
      · rw [heq, update_self, hchild] at hq
        rw [heq]
        exact hq
      · rw [update_of_ne heq] at hq
        exact hq
    rw [hofile np (h.child_ne hold hp)]
    exact h.files q np own hold
  noPanic := hpanic.trans h.noPanic

/-- The books balance if one process trades with the supply. -/
theorem balanced_trade (hends : ∀ f, (t.file f).ends = (s.file f).ends)
    (hcount : ∀ r, cp.total.count r + supply s r = (c p).total.count r + supply t r) :
    Balanced (holding t (update c p cp)) (supply t) := by
  apply h.balanced.trade (.inl p)
  · rintro (q | f) hne
    · have hq : q ≠ p := fun heq => hne (heq ▸ rfl)
      exact congrArg Account.total (update_of_ne hq ..)
    · exact hends f
  · intro r
    rw [show holding t (update c p cp) (.inl p) = cp.total from
      congrArg Account.total (update_self ..)]
    exact hcount r

/-- The books balance if one process trades with a file and the supply. -/
theorem balanced_exchange {f : Fin NFILE} (hends : ∀ g, g ≠ f → (t.file g).ends = (s.file g).ends)
    (hcount : ∀ r, cp.total.count r + (t.file f).ends.count r + supply s r =
      (c p).total.count r + (s.file f).ends.count r + supply t r) :
    Balanced (holding t (update c p cp)) (supply t) := by
  apply h.balanced.exchange (i := .inl p) (j := .inr f) nofun
  · rintro (q | g) hne hne'
    · have hq : q ≠ p := fun heq => hne (heq ▸ rfl)
      exact congrArg Account.total (update_of_ne hq ..)
    · have hg : g ≠ f := fun heq => hne' (heq ▸ rfl)
      exact hends g hg
  · intro r
    rw [show holding t (update c p cp) (.inl p) = cp.total from
      congrArg Account.total (update_self ..)]
    exact hcount r

/-- A process goes on with its account. -/
theorem pass (hproc : t.proc = update s.proc p proc) (hp : s.proc p ≠ .used)
    (hproc' : proc ≠ .used) (hofile : ∀ q, q ≠ p → t.ofile q = s.ofile q) (hfile : t.file = s.file)
    (hpipe : t.pipe = s.pipe) (hgood : Good proc cp (t.ofile p)) (htotal : cp.total.Perm (c p).total)
    (hfresh : ∀ f ∈ cp.fresh, f ∈ (c p).fresh) (hchild : cp.child = (c p).child) (hpanic : t.panic = s.panic) :
    Inv t (update c p cp) := by
  have hsupply : supply t = supply s := by
    funext r
    cases r <;> simp only [supply, hfile, hpipe]
  apply h.move hproc hp hproc' hofile _ (hfile ▸ h.typed) _ (fun _ _ _ _ => by rw [hfile]) hgood hchild hpanic
  · apply h.balanced_trade fun f => by rw [hfile]
    intro r
    rw [htotal.count_eq, hsupply]
  · intro f hf
    obtain ⟨href, htype, htotal'⟩ := h.fresh p f (hfresh f hf)
    rw [hfile]
    exact ⟨href, htype, htotal.mem_iff.2 htotal'⟩

omit [DecidableEq P] in
/-- The program of a process is safe. -/
theorem safe {prog : Prog P} (hp : s.proc p = .kernel prog) : Safe prog (c p) (s.ofile p) := by
  have hgood := h.good p
  rw [hp] at hgood
  exact hgood

end

variable {rest : List Res}

section FileSteps

variable {f : Fin NFILE} {file : File} {prog k : Prog P}

theorem count_ends (file : File) (f : Fin NFILE) : file.ends.count (.file f) = 0 := by
  rw [count_eq_zero, File.ends]
  by_cases htype : file.type = .pipe
  · rw [if_pos htype]
    simp
  · rw [if_neg htype]
    exact not_mem_nil

/-- A process goes on after a change of one file. -/
theorem fileStep (h : Inv s c) (hp : s.proc p = .kernel prog) (hgood : Safe k cp (s.ofile p))
    (href : cp.total.count (.file f) + (s.file f).ref = (c p).total.count (.file f) + file.ref)
    (hcount : ∀ r, r ≠ .file f →
      cp.total.count r + file.ends.count r = (c p).total.count r + (s.file f).ends.count r)
    (htyped : file.ref = 0 → file.type = .none)
    (hnew : f ∈ cp.fresh → file.ref = 1 ∧ file.type = .none ∧ .file f ∈ cp.total)
    (hold : ∀ g ∈ cp.fresh, g ≠ f → g ∈ (c p).fresh ∧ .file g ∈ cp.total)
    (hothers : ∀ q, q ≠ p → f ∉ (c q).fresh) (hchild : cp.child = (c p).child) :
    Inv ((s.setFile f file).next p k) (update c p cp) := by
  have hself : ((s.setFile f file).next p k).file f = file := update_self ..
  have hother : ∀ g, g ≠ f → ((s.setFile f file).next p k).file g = s.file g := fun g hg => update_of_ne hg ..
  have hsupply : ∀ r, supply ((s.setFile f file).next p k) r = if r = .file f then file.ref else supply s r :=
    supply_setFile
  refine h.move rfl (by rw [hp]; exact nofun) nofun (fun _ _ => rfl) ?_ ?_ ?_ ?_ hgood hchild rfl
  · refine h.balanced_exchange (fun g hg => congrArg File.ends (hother g hg)) fun r => ?_
    rw [hself, hsupply]
    by_cases hr : r = .file f
    · subst hr
      rw [if_pos rfl, count_ends, count_ends]
      exact href
    · rw [if_neg hr, hcount r hr]
  · intro g
    by_cases hg : g = f
    · rw [hg, hself]
      exact htyped
    · rw [hother g hg]
      exact h.typed g
  · intro g hfresh
    by_cases hg : g = f
    · rw [hg, hself]
      exact hnew (hg ▸ hfresh)
    · rw [hother g hg]
      obtain ⟨hmem, htotal⟩ := hold g hfresh hg
      obtain ⟨hone, htype, -⟩ := h.fresh p g hmem
      exact ⟨hone, htype, htotal⟩
  · intro q hq g hg
    have hne : g ≠ f := fun heq => hothers q hq (heq ▸ hg)
    exact hother g hne

/-- A file without references gets one. -/
theorem filealloc (h : Inv s c) {k : Option (Fin NFILE) → Prog P} (hp : s.proc p = .kernel (.filealloc k))
    (hf : freeFile s.file = some f) : Inv ((s.setFile f { s.file f with ref := 1 }).next p (k (some f)))
      (update c p { c p with total := .file f :: (c p).total, fresh := f :: (c p).fresh }) := by
  have hzero := freeFile_some hf
  have hfresh : ∀ q, f ∉ (c q).fresh := by
    intro q hmem
    have hone := (h.fresh q f hmem).1
    omega
  refine h.fileStep hp ((h.safe hp).2 f (hfresh p)) ?_ (fun r hr => ?_) nofun (fun _ => ?_) (fun g hg hne => ?_)
    (fun q _ => hfresh q) rfl
  · change (file f :: (c p).total).count (.file f) + _ = _ + 1
    rw [count_cons_self, hzero]
  · change (file f :: (c p).total).count r + _ = _
    rw [count_cons_of_ne hr.symm]
    rfl
  · exact ⟨rfl, h.typed f hzero, mem_cons_self⟩
  · obtain hmem := mem_of_ne_of_mem hne hg
    exact ⟨hmem, mem_cons_of_mem _ (h.fresh p g hmem).2.2⟩

/-- A file gets one more reference. -/
theorem filedup (h : Inv s c) (hp : s.proc p = .kernel (.filedup f k)) :
    Inv ((s.setFile f { s.file f with ref := (s.file f).ref + 1 }).next p k)
      (update c p { c p with total := .file f :: (c p).total, fresh := [] }) := by
  obtain ⟨hmem, hsafe⟩ := h.safe hp
  refine h.fileStep hp hsafe ?_ (fun r hr => ?_) nofun nofun nofun (fun q hq hfresh => ?_) rfl
  · change (file f :: (c p).total).count (.file f) + _ = _ + ((s.file f).ref + 1)
    rw [count_cons_self]
    omega
  · change (file f :: (c p).total).count r + _ = _
    rw [count_cons_of_ne hr.symm]
    rfl
  · exact hq (h.fresh_unique hfresh hmem)

/-- A file loses one of several references. -/
theorem fileclose (h : Inv s c) (hp : s.proc p = .kernel (.fileclose f k))
    (hrest : (c p).total.Perm (.file f :: rest)) (hsafe : Safe k { c p with total := rest, fresh := [] } (s.ofile p))
    (href : 1 < (s.file f).ref) :
    Inv ((s.setFile f { s.file f with ref := (s.file f).ref - 1 }).next p k)
      (update c p { c p with total := rest, fresh := [] }) := by
  have hmem : file f ∈ (c p).total := hrest.mem_iff.2 mem_cons_self
  refine h.fileStep hp hsafe ?_ (fun r hr => ?_) (fun hzero => ?_) nofun nofun (fun q hq hfresh => ?_) rfl
  · change rest.count (.file f) + _ = (c p).total.count (.file f) + ((s.file f).ref - 1)
    rw [hrest.count_eq, count_cons_self]
    omega
  · change rest.count r + _ = (c p).total.count r + _
    rw [hrest.count_eq, count_cons_of_ne hr.symm]
    rfl
  · change (s.file f).ref - 1 = 0 at hzero
    omega
  · exact hq (h.fresh_unique hfresh hmem)

/-- The last reference to a file goes, and the process answers for what the file did. -/
theorem lastClose (h : Inv s c) (hp : s.proc p = .kernel (.fileclose f k))
    (hrest : (c p).total.Perm (.file f :: rest)) (hsafe : Safe k { c p with total := rest, fresh := [] } (s.ofile p))
    (href : (s.file f).ref = 1) :
    Inv ((s.setFile f { s.file f with ref := 0, type := .none }).next p ((s.file f).closing k))
      (update c p { c p with total := (s.file f).ends ++ rest, fresh := [] }) := by
  have hmem : file f ∈ (c p).total := hrest.mem_iff.2 mem_cons_self
  have hclosing : Safe ((s.file f).closing k) { c p with total := (s.file f).ends ++ rest, fresh := [] }
      (s.ofile p) := by
    rw [File.closing, File.ends]
    cases (s.file f).type with
    | pipe => exact ⟨rest, .refl _, hsafe⟩
    | none | inode | device => exact hsafe
  refine h.fileStep hp hclosing ?_ (fun r hr => ?_) (fun _ => rfl) nofun nofun (fun q hq hfresh => ?_) rfl
  · change ((s.file f).ends ++ rest).count (.file f) + _ = (c p).total.count (.file f) + 0
    rw [hrest.count_eq, count_cons_self, count_append, count_ends, href, Nat.zero_add]
  · change ((s.file f).ends ++ rest).count r + 0 = (c p).total.count r + _
    rw [hrest.count_eq, count_cons_of_ne hr.symm, count_append]
    omega
  · exact hq (h.fresh_unique hfresh hmem)

/-- A file that nobody else knows is set up. -/
theorem setFile (h : Inv s c) {fields : File → File} {ends : List Res}
    (hp : s.proc p = .kernel (.setFile f fields k)) (hfresh : f ∈ (c p).fresh)
    (href : ∀ file, (fields file).ref = file.ref) (hends : ∀ file, (fields file).ends = ends)
    (htotal : (c p).total.Perm (ends ++ rest))
    (hsafe : Safe k { c p with total := rest, fresh := (c p).fresh.filter (· ≠ f) } (s.ofile p)) :
    Inv ((s.setFile f (fields (s.file f))).next p k)
      (update c p { c p with total := rest, fresh := (c p).fresh.filter (· ≠ f) }) := by
  obtain ⟨hone, htype, hmem⟩ := h.fresh p f hfresh
  have hfiles : ∀ g, ends.count (.file g) = 0 := by
    intro g
    rw [← hends (s.file f)]
    exact count_ends _ g
  refine h.fileStep hp hsafe ?_ (fun r hr => ?_) (fun hzero => ?_) (fun hself => ?_) (fun g hg hne => ?_)
    (fun q hq hother => ?_) rfl
  · change rest.count (.file f) + _ = (c p).total.count (.file f) + _
    rw [href, htotal.count_eq, count_append, hfiles]
    omega
  · change rest.count r + _ = (c p).total.count r + _
    rw [hends, htotal.count_eq, count_append, ends_of_type htype, count_nil]
    omega
  · rw [href, hone] at hzero
    cases hzero
  · exact absurd rfl (of_decide_eq_true (mem_filter.1 hself).2)
  · have hold := (mem_filter.1 hg).1
    refine ⟨hold, ?_⟩
    have hin := htotal.mem_iff.1 (h.fresh p g hold).2.2
    cases mem_append.1 hin with
    | inl hleft => exact absurd (hfiles g) (count_pos_iff.2 hleft).ne'
    | inr hright => exact hright
  · exact hq (h.fresh_unique hother hmem)

end FileSteps

section PipeSteps

variable {pi : ℕ} {pipe : Option Pipe} {prog k : Prog P}

/-- A process goes on after a change of one page. -/
theorem pipeStep (h : Inv s c) (hp : s.proc p = .kernel prog) (hgood : Safe k cp (s.ofile p))
    (hend : ∀ writable, cp.total.count (.pipeEnd pi writable) + endsOpen (s.pipe pi) writable =
      (c p).total.count (.pipeEnd pi writable) + endsOpen pipe writable)
    (hpage : cp.total.count (.page pi) + pageDue (s.pipe pi) = (c p).total.count (.page pi) + pageDue pipe)
    (hcount : ∀ r, (∀ writable, r ≠ .pipeEnd pi writable) → r ≠ .page pi →
      cp.total.count r = (c p).total.count r)
    (hfresh : ∀ f ∈ cp.fresh, f ∈ (c p).fresh ∧ .file f ∈ cp.total) (hchild : cp.child = (c p).child) :
    Inv ((s.setPipe pi pipe).next p k) (update c p cp) := by
  have hself : ((s.setPipe pi pipe).next p k).pipe pi = pipe := update_self ..
  have hother : ∀ pi', pi' ≠ pi → ((s.setPipe pi pipe).next p k).pipe pi' = s.pipe pi' :=
    fun pi' hne => update_of_ne hne ..
  refine h.move rfl (by rw [hp]; exact nofun) nofun (fun _ _ => rfl) ?_ h.typed ?_
    (fun _ _ _ _ => rfl) hgood hchild rfl
  · refine h.balanced_trade (fun _ => rfl) fun r => ?_
    cases r with
    | file f =>
      rw [hcount (.file f) (fun _ => nofun) nofun]
      rfl
    | pipeEnd pi' writable =>
      rw [supply, supply]
      by_cases hpi : pi' = pi
      · rw [hpi, hself]
        exact hend writable
      · rw [hother pi' hpi, hcount _ (fun _ heq => hpi (pipeEnd.inj heq).1) nofun]
    | page pi' =>
      rw [supply, supply]
      by_cases hpi : pi' = pi
      · rw [hpi, hself]
        exact hpage
      · have hne : page pi' ≠ .page pi := fun heq => hpi (page.inj heq)
        rw [hother pi' hpi, hcount (.page pi') (fun _ => nofun) hne]
  · intro f hf
    obtain ⟨hold, htotal⟩ := hfresh f hf
    obtain ⟨hone, htype, -⟩ := h.fresh p f hold
    exact ⟨hone, htype, htotal⟩

/-- A page becomes a pipe. -/
theorem kalloc (h : Inv s c) {k : Option ℕ → Prog P} (hp : s.proc p = .kernel (.kalloc k))
    (hpipe : s.pipe pi = none) :
    Inv ((s.setPipe pi (some ⟨true, true⟩)).next p (k (some pi)))
      (update c p { c p with total := .pipeEnd pi false :: .pipeEnd pi true :: (c p).total }) := by
  refine h.pipeStep hp ((h.safe hp).2 pi) (fun writable => ?_) ?_ (fun r hend hpage => ?_) (fun f hf => ⟨hf, ?_⟩) rfl
  · change (pipeEnd pi false :: pipeEnd pi true :: (c p).total).count _ + _ = _
    rw [hpipe]
    cases writable with
    | false => rw [count_cons_self, count_cons_of_ne (by simp)]; rfl
    | true => rw [count_cons_of_ne (by simp), count_cons_self]; rfl
  · change (pipeEnd pi false :: pipeEnd pi true :: (c p).total).count _ + _ = _
    rw [hpipe, count_cons_of_ne (by simp), count_cons_of_ne (by simp)]
    rfl
  · change (pipeEnd pi false :: pipeEnd pi true :: (c p).total).count r = _
    rw [count_cons_of_ne (hend false).symm, count_cons_of_ne (hend true).symm]
  · exact mem_cons_of_mem _ (mem_cons_of_mem _ (h.fresh p f hf).2.2)

omit [DecidableEq P] in
/-- A process that answers for an end has a pipe whose end is open. -/
theorem isOpen_of_mem (h : Inv s c) (hmem : .pipeEnd pi writable ∈ (c p).total) :
    ∃ pipe, s.pipe pi = some pipe ∧ pipe.isOpen writable = true := by
  have hpos : 0 < endsOpen (s.pipe pi) writable := h.supply_pos hmem
  exact isOpen_of_pos hpos

omit [DecidableEq P] in
/-- A process that answers for a page has a pipe with both ends closed. -/
theorem closed_of_mem (h : Inv s c) (hmem : .page pi ∈ (c p).total) : s.pipe pi = some ⟨false, false⟩ := by
  have hpos : 0 < pageDue (s.pipe pi) := h.supply_pos hmem
  cases hpipe : s.pipe pi with
  | none =>
    rw [hpipe] at hpos
    exact absurd hpos (Nat.lt_irrefl 0)
  | some pipe =>
    rw [hpipe] at hpos
    obtain ⟨_ | _, _ | _⟩ := pipe
    · rfl
    all_goals exact absurd hpos (Nat.lt_irrefl 0)

/-- An end of a pipe is closed. If it was the last one, the process answers for the page. -/
theorem pipeclose (h : Inv s c) {pipe : Pipe} (hp : s.proc p = .kernel (.pipeclose pi writable k))
    (hpipe : s.pipe pi = some pipe) (hrest : (c p).total.Perm (.pipeEnd pi writable :: rest))
    (hsafe : Safe k { c p with total := rest, fresh := [] } (s.ofile p)) :
    ∃ cp, Inv ((s.setPipe pi (some (pipe.close writable))).next p ((pipe.close writable).closing pi k))
      (update c p cp) := by
  have hmem : .pipeEnd pi writable ∈ (c p).total := hrest.mem_iff.2 mem_cons_self
  have hopen : pipe.isOpen writable = true := by
    obtain ⟨pipe', hpipe', hopen⟩ := h.isOpen_of_mem hmem
    rw [hpipe] at hpipe'
    cases hpipe'
    exact hopen
  have hend : ∀ w, rest.count (.pipeEnd pi w) + endsOpen (s.pipe pi) w =
      (c p).total.count (.pipeEnd pi w) + endsOpen (some (pipe.close writable)) w := by
    intro w
    rw [hpipe, endsOpen_some, endsOpen_some, hrest.count_eq, Pipe.isOpen_close]
    by_cases hw : w = writable
    · rw [hw, count_cons_self, if_pos hopen, if_pos rfl]
      rfl
    · rw [if_neg hw, count_cons_of_ne fun heq => hw (pipeEnd.inj heq).2.symm]
  have hcount : ∀ r, (∀ w, r ≠ .pipeEnd pi w) → rest.count r = (c p).total.count r := by
    intro r hr
    rw [hrest.count_eq, count_cons_of_ne (hr writable).symm]
  have hpage : rest.count (.page pi) = (c p).total.count (.page pi) := hcount _ fun _ => nofun
  have hdue : pageDue (s.pipe pi) = 0 := by
    rw [hpipe]
    exact pageDue_of_isOpen hopen
  by_cases hboth : (pipe.close writable).readopen = false ∧ (pipe.close writable).writeopen = false
  · refine ⟨{ c p with total := .page pi :: rest, fresh := [] }, ?_⟩
    rw [Pipe.closing, if_pos hboth]
    refine h.pipeStep hp ⟨rest, .refl _, hsafe⟩ (fun w => ?_) ?_ (fun r hr hr' => ?_) nofun rfl
    · change (page pi :: rest).count _ + _ = _
      rw [count_cons_of_ne (by simp)]
      exact hend w
    · change (page pi :: rest).count _ + _ = _
      have hnew : pageDue (some (pipe.close writable)) = 1 := by
        rw [pageDue, Option.any_some, hboth.1, hboth.2]
        rfl
      rw [count_cons_self, hpage, hdue, hnew]
    · change (page pi :: rest).count r = _
      rw [count_cons_of_ne hr'.symm]
      exact hcount r hr
  · refine ⟨{ c p with total := rest, fresh := [] }, ?_⟩
    rw [Pipe.closing, if_neg hboth]
    refine h.pipeStep hp hsafe hend ?_ (fun r hr _ => hcount r hr) nofun rfl
    have hnew : pageDue (some (pipe.close writable)) = 0 := by
      rw [pageDue, Option.any_some, if_neg]
      intro hclosed
      apply hboth
      rw [Bool.and_eq_true, Bool.not_eq_true', Bool.not_eq_true'] at hclosed
      exact hclosed
    rw [hdue, hnew]
    exact hpage

/-- The page of a pipe is freed. -/
theorem kfree (h : Inv s c) (hp : s.proc p = .kernel (.kfree pi k)) (hrest : (c p).total.Perm (.page pi :: rest))
    (hsafe : Safe k { c p with total := rest, fresh := [] } (s.ofile p)) :
    Inv ((s.setPipe pi none).next p k) (update c p { c p with total := rest, fresh := [] }) := by
  have hmem : .page pi ∈ (c p).total := hrest.mem_iff.2 mem_cons_self
  have hpipe := h.closed_of_mem hmem
  refine h.pipeStep hp hsafe (fun w => ?_) ?_ (fun r _ hr => ?_) nofun rfl
  · change rest.count _ + _ = _
    rw [hpipe, hrest.count_eq, count_cons_of_ne (by simp)]
    cases w <;> rfl
  · change rest.count _ + _ = _
    rw [hpipe, hrest.count_eq, count_cons_self]
    rfl
  · change rest.count r = _
    rw [hrest.count_eq, count_cons_of_ne hr.symm]

end PipeSteps

section ProcSteps

variable {np : P} {cnp : Account P} {k : Prog P}

omit [Fintype P] in
theorem making_update (hnp : cnp.child = (c np).child) :
    making (update (update c np cnp) p cp) =
      update (making c) p (cp.child.map Prod.fst).toList := by
  funext q
  rw [making]
  by_cases hq : q = p
  · rw [hq, update_self, update_self]
  · rw [update_of_ne hq, update_of_ne hq, making]
    by_cases hqnp : q = np
    · rw [hqnp, update_self, hnp]
    · rw [update_of_ne hqnp]

/-- A step of a process that makes another one, with the accounts of both. -/
theorem pair (h : Inv s c) (hne : np ≠ p)
    (hproc : t.proc = update (update s.proc np proc) p (.kernel k))
    (hofile : ∀ q, q ≠ np → t.ofile q = s.ofile q) (hfile : t.file = s.file) (hpipe : t.pipe = s.pipe)
    (htotal : ∀ r, cp.total.count r + cnp.total.count r = (c p).total.count r + (c np).total.count r)
    (hfresh : cp.fresh = []) (hfreshNp : cnp.fresh = []) (hgood : Safe k cp (s.ofile p))
    (hgoodNp : Good proc cnp (t.ofile np)) (hnp : cnp.child = none)
    (hchildren : Allotted (making (update (update c np cnp) p cp))
      fun q => t.proc q = .used)
    (hown : ∀ q own, cp.child = some (q, own) → t.ofile q = own)
    (hothers : ∀ q, q ≠ p → ∀ own, (c q).child ≠ some (np, own)) (hpanic : t.panic = s.panic) :
    Inv t (update (update c np cnp) p cp) where
  balanced := by
    have hsupply : supply t = supply s := by
      funext r
      cases r <;> simp only [supply, hfile, hpipe]
    have hself : update (update c np cnp) p cp p = cp := update_self ..
    have hnpself : update (update c np cnp) p cp np = cnp := by
      rw [update_of_ne hne, update_self]
    refine h.balanced.exchange (fun heq => hne (Sum.inl.inj heq).symm : Sum.inl p ≠ Sum.inl np) ?_ fun r => ?_
    · rintro (q | f) hq hqnp
      · have hq : q ≠ p := fun heq => hq (heq ▸ rfl)
        have hqnp : q ≠ np := fun heq => hqnp (heq ▸ rfl)
        rw [holding, holding, update_of_ne hq, update_of_ne hqnp]
      · rw [holding, holding, hfile]
    · rw [holding, holding, holding, holding, hself, hnpself, hsupply, htotal r]
  typed := hfile ▸ h.typed
  fresh q f hf := by
    by_cases hq : q = p
    · rw [hq, update_self, hfresh] at hf
      exact absurd hf not_mem_nil
    · rw [update_of_ne hq] at hf ⊢
      by_cases hqnp : q = np
      · rw [hqnp, update_self, hfreshNp] at hf
        exact absurd hf not_mem_nil
      · rw [update_of_ne hqnp] at hf ⊢
        rw [hfile]
        exact h.fresh q f hf
  good q := by
    rw [hproc]
    by_cases hq : q = p
    · rw [hq, update_self, update_self, hofile p hne.symm]
      exact hgood
    · rw [update_of_ne hq, update_of_ne hq]
      by_cases hqnp : q = np
      · rw [hqnp, update_self, update_self]
        exact hgoodNp
      · rw [update_of_ne hqnp, update_of_ne hqnp, hofile q hqnp]
        exact h.good q
  children := hchildren
  files q x own hx := by
    by_cases hq : q = p
    · rw [hq, update_self] at hx
      exact hown x own hx
    · rw [update_of_ne hq] at hx
      by_cases hqnp : q = np
      · rw [hqnp, update_self, hnp] at hx
        cases hx
      · rw [update_of_ne hqnp] at hx
        have hxnp : x ≠ np := by
          rintro rfl
          exact hothers q hq own hx
        rw [hofile x hxnp]
        exact h.files q x own hx
  noPanic := hpanic.trans h.noPanic

omit [DecidableEq P] in
/-- The process that is being made is with its parent only. -/
theorem child_unique (h : Inv s c) (hp : (c p).child = some (np, own)) (hq : q ≠ p)
    (own' : Descriptors) : (c q).child ≠ some (np, own') := by
  intro hchild
  exact hq (h.children.apart q p np (mem_making hchild) (mem_making hp))

omit [DecidableEq P] in
/-- The account of a process that is being made. -/
theorem good_child (h : Inv s c) (hp : (c p).child = some (np, own)) :
    s.proc np = .used ∧ (c np).child = none ∧ (c np).fresh = [] ∧ (c np).total.Perm (slots own) := by
  have hused := h.children.inUse p np (mem_making hp)
  have hgood := h.good np
  rw [hused, h.files p np own hp] at hgood
  exact ⟨hused, hgood⟩

omit [Fintype P] in
/-- The slots in use after a step of a process that makes another one. -/
theorem used_iff {prog : Prog P} (hp : s.proc p = .kernel prog) (hne : np ≠ p)
    (hproc : t.proc = update (update s.proc np proc) p (.kernel k)) (q : P) :
    t.proc q = .used ↔ if q = np then proc = .used else s.proc q = .used := by
  rw [hproc]
  by_cases hq : q = p
  · rw [hq, update_self, if_neg hne.symm, hp]
    exact iff_of_false nofun nofun
  · rw [update_of_ne hq]
    by_cases hqnp : q = np
    · rw [hqnp, update_self, if_pos rfl]
    · rw [update_of_ne hqnp, if_neg hqnp]

/-- A slot of the process table is taken. -/
theorem allocproc (h : Inv s c) {k : Option P → Prog P} (hp : s.proc p = .kernel (.allocproc k))
    (hnp : s.proc np = .unused) : ∃ c', Inv ((s.setProc np .used).next p (k (some np))) c' := by
  have hne : np ≠ p := by
    rintro rfl
    rw [hp] at hnp
    cases hnp
  obtain ⟨hnone, -, hsafe⟩ := h.safe hp
  have hgood := h.good np
  rw [hnp] at hgood
  obtain ⟨haccount, hown⟩ := hgood
  have hunused : ¬ s.proc np = .used := by
    rw [hnp]
    exact nofun
  have hchild : (c np).child = none := by
    rw [haccount]
    rfl
  refine ⟨update (update c np (c np)) p ⟨(c p).total, [], some (np, fun _ => none)⟩,
    h.pair hne rfl (fun _ _ => rfl) rfl rfl (fun _ => rfl) rfl (by rw [haccount]; rfl)
    (hsafe np) ?_ hchild ?_ ?_ ?_ rfl⟩
  · rw [haccount]
    exact ⟨rfl, rfl, .refl _⟩
  · rw [making_update rfl]
    refine (h.children.give (making_of_none hnone) (nodup_singleton np) fun q hq => ?_).congr fun q => ?_
    · rw [mem_singleton.1 hq]
      exact hunused
    · rw [used_iff hp hne rfl, mem_singleton]
      by_cases hq : q = np
      · rw [if_pos hq]
        exact iff_of_true rfl (.inr hq)
      · rw [if_neg hq, or_iff_left hq]
  · rintro q own' heq
    cases heq
    funext fd
    exact hown fd
  · intro q _ own' hq
    exact hunused (h.children.inUse q np (mem_making hq))

/-- The slots in use after the process that was being made has gone. -/
theorem children_back (h : Inv s c) {prog : Prog P} (hp : s.proc p = .kernel prog)
    (hchild : (c p).child = some (np, own)) (hne : np ≠ p) (hnp : cnp.child = none) (hcp : cp.child = none)
    (hproc : t.proc = update (update s.proc np proc) p (.kernel k)) (hproc' : proc ≠ .used) :
    Allotted (making (update (update c np cnp) p cp)) fun q => t.proc q = .used := by
  rw [making_update (hnp.trans (h.good_child hchild).2.1.symm), hcp]
  refine h.children.back.congr fun q => ?_
  rw [used_iff hp hne hproc, making_of_child hchild, mem_singleton]
  by_cases hq : q = np
  · rw [if_pos hq]
    exact iff_of_false hproc' fun hand => hand.2 hq
  · rw [if_neg hq, and_iff_left hq]

/-- A process that could not be made is given up. -/
theorem freeproc (h : Inv s c) (hp : s.proc p = .kernel (.freeproc np k)) :
    ∃ c', Inv ((s.setProc np .unused).next p k) c' := by
  obtain ⟨files, hchild, hfiles, hsafe⟩ := h.safe hp
  obtain ⟨hused, hnone, hfresh, htotal⟩ := h.good_child hchild
  have hne : np ≠ p := h.child_ne hchild (by rw [hp]; exact nofun)
  have hown : ∀ fd, s.ofile np fd = none := by
    rw [h.files p np files hchild]
    exact hfiles
  refine ⟨update (update c np (.ofFiles (s.ofile np))) p ⟨(c p).total, [], none⟩,
    h.pair hne rfl (fun _ _ => rfl) rfl rfl (fun r => ?_) rfl rfl hsafe ⟨rfl, hown⟩ rfl
    (h.children_back hp hchild hne rfl rfl rfl nofun) nofun (fun q hq own' => h.child_unique hchild hq own') rfl⟩
  rw [htotal.count_eq, h.files p np files hchild]
  rfl

/-- A new process starts to run. -/
theorem run (h : Inv s c) (hp : s.proc p = .kernel (.run np k)) : ∃ c', Inv ((s.setProc np .user).next p k) c' := by
  obtain ⟨files, hchild, hsafe⟩ := h.safe hp
  obtain ⟨hused, hnone, hfresh, htotal⟩ := h.good_child hchild
  have hne : np ≠ p := h.child_ne hchild (by rw [hp]; exact nofun)
  refine ⟨update (update c np (c np)) p ⟨(c p).total, [], none⟩, h.pair hne rfl
    (fun _ _ => rfl) rfl rfl (fun r => rfl) rfl hfresh hsafe ⟨hnone, hfresh, ?_⟩ hnone
    (h.children_back hp hchild hne hnone rfl rfl nofun) nofun (fun q hq own' => h.child_unique hchild hq own') rfl⟩
  rw [← h.files p np files hchild] at htotal
  exact htotal

/-- A new process gets a file. -/
theorem storeFd (h : Inv s c) {fd : Fin NOFILE} {f : Fin NFILE} (hp : s.proc p = .kernel (.storeFd np fd f k)) :
    ∃ c', Inv ((s.setFd np fd (some f)).next p k) c' := by
  obtain ⟨files, rest, hchild, hfd, hrest, hsafe⟩ := h.safe hp
  obtain ⟨hused, hnone, hfresh, htotal⟩ := h.good_child hchild
  have hne : np ≠ p := h.child_ne hchild (by rw [hp]; exact nofun)
  have hfiles := h.files p np files hchild
  have hofile : ((s.setFd np fd (some f)).next p k).ofile np = update files fd (some f) := by
    rw [← hfiles]
    exact update_self ..
  have hproc : ((s.setFd np fd (some f)).next p k).proc =
      update (update s.proc np .used) p (.kernel k) := by
    rw [← hused, update_eq_self]
    rfl
  refine ⟨update (update c np ⟨.file f :: (c np).total, [], none⟩) p
    ⟨rest, [], some (np, update files fd (some f))⟩,
    h.pair hne hproc (fun q hq => update_of_ne hq ..) rfl rfl (fun r => ?_) rfl rfl ?_ ⟨rfl, rfl, ?_⟩ rfl ?_ ?_
    (fun q hq own' => h.child_unique hchild hq own') rfl⟩
  · change rest.count r + (file f :: (c np).total).count r = _
    rw [hrest.count_eq, count_cons, count_cons]
    omega
  · exact hsafe
  · rw [hofile]
    exact (htotal.cons _).trans (slots_store hfd f).symm
  · rw [making_update hnone.symm]
    have hsame : update (making c) p [np] = making c := by
      rw [← making_of_child hchild, update_eq_self]
    change Allotted (update (making c) p [np]) _
    rw [hsame]
    refine h.children.congr fun q => ?_
    rw [used_iff hp hne hproc]
    by_cases hq : q = np
    · rw [if_pos hq, hq]
      exact iff_of_true rfl hused
    · rw [if_neg hq]
  · intro q own' heq
    cases heq
    exact hofile

end ProcSteps

end Inv

end Xv6.Files
