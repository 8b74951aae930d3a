import Xv6.Files.Code
import Xv6.Library.Allotment
import Xv6.Library.References

/-!
# Accounts of a process

A process answers for references to files, for ends of pipes and for pages of pipes. In user space these are
the files in `ofile`. A program is safe with an account if it uses and drops only what is in the account, and
comes back to user space with an account that fits `ofile`. All system calls are safe.
-/

namespace Xv6.Files

open Function List

/-- What a process can answer for. -/
inductive Res
  | file (f : Fin NFILE)
  | pipeEnd (pi : ℕ) (writable : Bool)
  | page (pi : ℕ)
deriving DecidableEq

/-- The ends of pipes that a file answers for. -/
def File.ends (file : File) : List Res :=
  if file.type = .pipe then [.pipeEnd file.pipe file.writable] else []

/-- The references in the descriptors of a process. -/
def slots (own : Descriptors) : List Res := (List.finRange NOFILE).filterMap fun fd => (own fd).map .file

/-- The account of a process: what it answers for, files that it alone knows and that have no type yet, and
the process that it is making, with the descriptors of that process. -/
structure Account (P : Type) where
  total : List Res
  fresh : List (Fin NFILE)
  child : Option (P × Descriptors)

/-- The account of a process in user space. -/
def Account.ofFiles {P : Type} (own : Descriptors) : Account P := ⟨slots own, [], none⟩

section Slots

variable {own : Descriptors} {fd : Fin NOFILE} {f : Fin NFILE}

/-- One more entry in a list of optional entries. -/
theorem filterMap_update_perm {ι α : Type*} [DecidableEq ι] {l : List ι} {g : ι → Option α} {i : ι} {x : α}
    (hnodup : l.Nodup) (hi : i ∈ l) (hg : g i = none) :
    (l.filterMap (update g i (some x))).Perm (x :: l.filterMap g) := by
  obtain ⟨l₁, l₂, rfl⟩ := append_of_mem hi
  obtain ⟨-, hnodup₂, hdisjoint⟩ := nodup_append.1 hnodup
  have hother : ∀ l' : List ι, i ∉ l' → l'.filterMap (update g i (some x)) = l'.filterMap g := by
    intro l' hnot
    apply filterMap_congr
    intro j hj
    have hne : j ≠ i := fun heq => hnot (heq ▸ hj)
    exact update_of_ne hne ..
  have hleft : i ∉ l₁ := fun hmem => hdisjoint i hmem i mem_cons_self rfl
  have hright : i ∉ l₂ := (nodup_cons.1 hnodup₂).1
  rw [filterMap_append, filterMap_append, hother l₁ hleft,
    filterMap_cons_some (update_self ..), hother l₂ hright, filterMap_cons_none hg]
  exact perm_middle

/-- A descriptor is put to use. -/
theorem slots_store (h : own fd = none) (f : Fin NFILE) :
    (slots (update own fd (some f))).Perm (.file f :: slots own) := by
  have hupdate : (fun j => (update own fd (some f) j).map Res.file) =
      update (fun j => (own j).map Res.file) fd (some (.file f)) := by
    funext j
    exact Function.apply_update (fun _ => Option.map Res.file) own fd (some f) j
  rw [slots, hupdate]
  apply filterMap_update_perm (nodup_finRange NOFILE) (mem_finRange fd)
  rw [h]
  rfl

/-- A descriptor is cleared. -/
theorem slots_clear (h : own fd = some f) : (slots own).Perm (.file f :: slots (update own fd none)) := by
  have hstore := slots_store (update_self fd none own) f
  rw [update_idem, ← h, update_eq_self] at hstore
  exact hstore

theorem mem_slots (h : own fd = some f) : Res.file f ∈ slots own := (slots_clear h).mem_iff.2 mem_cons_self

/-- Only files are in the descriptors. -/
theorem of_mem_slots {r : Res} (h : r ∈ slots own) : ∃ f, r = .file f := by
  obtain ⟨fd, -, hfd⟩ := mem_filterMap.1 h
  obtain ⟨f, -, rfl⟩ := Option.map_eq_some_iff.1 hfd
  exact ⟨f, rfl⟩

theorem slots_eq_nil (h : ∀ fd, own fd = none) : slots own = [] := by
  apply filterMap_eq_nil_iff.2
  intro fd _
  rw [h fd]
  rfl

theorem freeFd_some (h : freeFd own = some fd) : own fd = none := by
  have hfound := List.find?_some h
  exact of_decide_eq_true hfound

end Slots

variable {P : Type}

/-- A program is safe with an account and descriptors. -/
def Safe : Prog P → Account P → Descriptors → Prop
  | .ret, c, own => c.child = none ∧ c.total.Perm (slots own)
  | .retire, c, own => c.child = none ∧ c.total = [] ∧ ∀ fd, own fd = none
  | .either a b, c, own => Safe a c own ∧ Safe b c own
  | .filealloc k, c, own =>
    Safe (k none) c own ∧
      ∀ f, f ∉ c.fresh → Safe (k (some f)) { c with total := .file f :: c.total, fresh := f :: c.fresh } own
  | .filedup f k, c, own =>
    .file f ∈ c.total ∧ Safe k { c with total := .file f :: c.total, fresh := [] } own
  | .fileclose f k, c, own =>
    ∃ rest, c.total.Perm (.file f :: rest) ∧ Safe k { c with total := rest, fresh := [] } own
  | .pipeclose pi writable k, c, own =>
    ∃ rest, c.total.Perm (.pipeEnd pi writable :: rest) ∧ Safe k { c with total := rest, fresh := [] } own
  | .kfree pi k, c, own =>
    ∃ rest, c.total.Perm (.page pi :: rest) ∧ Safe k { c with total := rest, fresh := [] } own
  | .iput _ k, c, own => Safe k c own
  | .kalloc k, c, own =>
    Safe (k none) c own ∧
      ∀ pi, Safe (k (some pi)) { c with total := .pipeEnd pi false :: .pipeEnd pi true :: c.total } own
  | .setFile f fields k, c, own =>
    f ∈ c.fresh ∧ (∀ file, (fields file).ref = file.ref) ∧
      ∃ ends rest, (∀ file, (fields file).ends = ends) ∧ c.total.Perm (ends ++ rest) ∧
        Safe k { c with total := rest, fresh := c.fresh.filter (· ≠ f) } own
  | .fdalloc f k, c, own =>
    match freeFd own with
    | none => Safe (k none) c own
    | some fd => Safe (k (some fd)) c (Function.update own fd (some f))
  | .readFd fd k, c, own => Safe (k (own fd)) c own
  | .clearFd fd k, c, own => Safe k c (Function.update own fd none)
  | .allocproc k, c, own =>
    c.child = none ∧ Safe (k none) c own ∧
      ∀ np, Safe (k (some np)) { c with fresh := [], child := some (np, fun _ => none) } own
  | .freeproc np k, c, own =>
    ∃ files, c.child = some (np, files) ∧ (∀ fd, files fd = none) ∧
      Safe k { c with fresh := [], child := none } own
  | .storeFd np fd f k, c, own =>
    ∃ files rest, c.child = some (np, files) ∧ files fd = none ∧ c.total.Perm (.file f :: rest) ∧
      Safe k { total := rest, fresh := [], child := some (np, Function.update files fd (some f)) } own
  | .run np k, c, own =>
    ∃ files, c.child = some (np, files) ∧ Safe k { c with fresh := [], child := none } own

section Syscalls

variable {own : Descriptors} {fd : Fin NOFILE} {f : Fin NFILE} {c : Account P}

theorem safe_fdalloc {k : Option (Fin NOFILE) → Prog P} (hnone : Safe (k none) c own)
    (hsome : ∀ fd, own fd = none → Safe (k (some fd)) c (update own fd (some f))) : Safe (.fdalloc f k) c own := by
  rw [Safe]
  cases hfree : freeFd own with
  | none => exact hnone
  | some fd => exact hsome fd (freeFd_some hfree)

theorem safe_readFd {k : Option (Fin NFILE) → Prog P} (hnone : own fd = none → Safe (k none) c own)
    (hsome : ∀ f, own fd = some f → Safe (k (some f)) c own) : Safe (.readFd fd k) c own := by
  rw [Safe]
  cases hfd : own fd with
  | none => exact hnone hfd
  | some f => exact hsome f hfd

/-- Two files are closed and the call returns. -/
theorem safe_closeBoth {f₀ f₁ : Fin NFILE} {total : List Res} {fresh : List (Fin NFILE)}
    (htotal : total.Perm (.file f₀ :: .file f₁ :: slots own)) :
    Safe (P := P) (.fileclose f₀ (.fileclose f₁ .ret)) ⟨total, fresh, none⟩ own :=
  ⟨_, htotal, _, .refl _, rfl, .refl _⟩

theorem safe_sysDup (fd : Fin NOFILE) (own : Descriptors) : Safe (P := P) (sysDup fd) (.ofFiles own) own := by
  have hret : Safe (P := P) .ret (.ofFiles own) own := ⟨rfl, .refl _⟩
  apply safe_readFd fun _ => hret
  intro f hf
  apply safe_fdalloc hret
  intro fd' hfree
  exact ⟨mem_slots hf, rfl, (slots_store hfree f).symm⟩

theorem safe_sysClose (fd : Fin NOFILE) (own : Descriptors) : Safe (P := P) (sysClose fd) (.ofFiles own) own := by
  have hret : Safe (P := P) .ret (.ofFiles own) own := ⟨rfl, .refl _⟩
  apply safe_readFd fun _ => hret
  intro f hf
  exact ⟨_, slots_clear hf, rfl, .refl _⟩

theorem safe_sysOpen (ip : ℕ) (major : Option ℤ) (omode : ℕ) (own : Descriptors) :
    Safe (P := P) (sysOpen ip major omode) (.ofFiles own) own := by
  refine ⟨⟨rfl, .refl _⟩, fun f _ => ?_⟩
  apply safe_fdalloc
  · exact ⟨_, .refl _, rfl, .refl _⟩
  · intro fd hfree
    refine ⟨mem_cons_self, fun file => ?_, [], _, fun file => ?_, .refl _, rfl, (slots_store hfree f).symm⟩
    · cases major <;> rfl
    · cases major <;> rfl

/-- `pipealloc` leaves nothing behind if it fails, and two files with the ends of a pipe if it does not. -/
theorem safe_pipealloc {k : Fin NFILE → Fin NFILE → Prog P}
    (hk : ∀ f₀ f₁, Safe (k f₀ f₁) ⟨.file f₁ :: .file f₀ :: slots own, [], none⟩ own) :
    Safe (pipealloc .ret k) (.ofFiles own) own := by
  refine ⟨⟨rfl, .refl _⟩, fun f₀ _ => ⟨?_, fun f₁ hf₁ => ⟨?_, fun pi => ?_⟩⟩⟩
  · exact ⟨_, .refl _, rfl, .refl _⟩
  · exact safe_closeBoth (List.Perm.swap ..)
  · have hne : f₁ ≠ f₀ := fun heq => hf₁ (heq ▸ mem_cons_self)
    have hfresh : [f₁, f₀].filter (· ≠ f₀) = [f₁] := by simp [hne]
    refine ⟨by simp, fun _ => rfl, [.pipeEnd pi false], _, fun _ => rfl, .refl _, ?_⟩
    change Safe _ ⟨_, [f₁, f₀].filter (· ≠ f₀), none⟩ own
    rw [hfresh]
    refine ⟨mem_cons_self, fun _ => rfl, [.pipeEnd pi true], _, fun _ => rfl, .refl _, ?_⟩
    have hempty : [f₁].filter (· ≠ f₁) = [] := by simp
    change Safe _ ⟨_, [f₁].filter (· ≠ f₁), none⟩ own
    rw [hempty]
    exact hk f₀ f₁

theorem safe_sysPipe (own : Descriptors) : Safe (P := P) sysPipe (.ofFiles own) own := by
  apply safe_pipealloc
  intro rf wf
  apply safe_fdalloc
  · exact safe_closeBoth (List.Perm.swap ..)
  intro fd₀ hfree₀
  have hclear₀ : update (update own fd₀ (some rf)) fd₀ none = own := by
    rw [update_idem, ← hfree₀, update_eq_self]
  apply safe_fdalloc
  · rw [Safe, hclear₀]
    exact safe_closeBoth (List.Perm.swap ..)
  intro fd₁ hfree₁
  have hstore : (Res.file wf :: Res.file rf :: slots own).Perm
      (slots (update (update own fd₀ (some rf)) fd₁ (some wf))) :=
    (((slots_store hfree₁ wf).trans ((slots_store hfree₀ rf).cons _))).symm
  refine ⟨⟨rfl, hstore⟩, ?_⟩
  have hne : fd₁ ≠ fd₀ := by
    rintro rfl
    rw [update_self] at hfree₁
    cases hfree₁
  have hclear : update (update (update (update own fd₀ (some rf)) fd₁
      (some wf)) fd₀ none) fd₁ none = own := by
    rw [update_of_ne hne] at hfree₁
    rw [update_comm hne.symm, update_idem, update_comm hne, hclear₀, ← hfree₁, update_eq_self]
  rw [Safe, Safe, hclear]
  exact safe_closeBoth (List.Perm.swap ..)

variable {fds : List (Fin NOFILE)}

theorem safe_forkFiles {np : P} {files : Descriptors} (hnodup : fds.Nodup)
    (hfiles : ∀ fd ∈ fds, files fd = none) : Safe (forkFiles np fds) ⟨slots own, [], some (np, files)⟩ own := by
  induction fds generalizing files with
  | nil => exact ⟨files, rfl, rfl, .refl _⟩
  | cons fd fds ih =>
    obtain ⟨hnot, hnodup⟩ := nodup_cons.1 hnodup
    apply safe_readFd
    · intro _
      exact ih hnodup fun j hj => hfiles j (mem_cons_of_mem _ hj)
    · intro f hf
      refine ⟨mem_slots hf, files, slots own, rfl, hfiles fd mem_cons_self, .refl _, ?_⟩
      apply ih hnodup
      intro j hj
      have hne : j ≠ fd := fun heq => hnot (heq ▸ hj)
      rw [update_of_ne hne]
      exact hfiles j (mem_cons_of_mem _ hj)

theorem safe_kfork (own : Descriptors) : Safe (P := P) kfork (.ofFiles own) own := by
  refine ⟨rfl, ⟨rfl, .refl _⟩, fun np => ⟨?_, ?_⟩⟩
  · exact ⟨_, rfl, fun _ => rfl, rfl, .refl _⟩
  · exact safe_forkFiles (nodup_finRange NOFILE) fun _ _ => rfl

theorem safe_exitFiles (hnodup : fds.Nodup) (hown : ∀ fd, fd ∉ fds → own fd = none) :
    Safe (P := P) (exitFiles fds) (.ofFiles own) own := by
  induction fds generalizing own with
  | nil =>
    have hnone : ∀ fd, own fd = none := fun fd => hown fd not_mem_nil
    exact ⟨rfl, slots_eq_nil hnone, hnone⟩
  | cons fd fds ih =>
    obtain ⟨hnot, hnodup⟩ := nodup_cons.1 hnodup
    apply safe_readFd
    · intro hnone
      apply ih hnodup
      intro j hj
      by_cases heq : j = fd
      · exact heq ▸ hnone
      · exact hown j fun hmem => (mem_cons.1 hmem).elim heq hj
    · intro f hf
      refine ⟨_, slots_clear hf, ?_⟩
      apply ih hnodup
      intro j hj
      by_cases heq : j = fd
      · rw [heq, update_self]
      · rw [update_of_ne heq]
        exact hown j fun hmem => (mem_cons.1 hmem).elim heq hj

/-- Every system call is safe with the account of a process in user space. -/
theorem safe_syscall {prog : Prog P} (h : Syscall prog) (own : Descriptors) : Safe prog (.ofFiles own) own := by
  cases h with
  | «open» ip major omode => exact safe_sysOpen ip major omode own
  | dup fd => exact safe_sysDup fd own
  | close fd => exact safe_sysClose fd own
  | pipe => exact safe_sysPipe own
  | fork => exact safe_kfork own
  | exit => exact safe_exitFiles (nodup_finRange NOFILE) fun fd hfd => absurd (mem_finRange fd) hfd

end Syscalls

end Xv6.Files
