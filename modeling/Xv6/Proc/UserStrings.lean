import Xv6.Proc.UserCopies

/-!
# Strings from user memory

`copyinstr` looks its pages up without filling holes, unlike `copyin`. It therefore agrees with reading the
string byte by byte through `copyin` exactly as long as the string does not run into a page that is below
the size of the process and has not been touched: there `copyin` finds the NUL of a cleared page, and
`copyinstr` fails.
-/

namespace Xv6

open Library Nat Option Vm

section Specification

/-- The string at an address of a memory, its NUL included, if it has at most `max` bytes. -/
def stringAt (byte : ℕ → Option UInt8) : ℕ → ℕ → Option (List UInt8)
  | _, 0 => none
  | va, max + 1 =>
    (byte va).bind fun b => if b = 0 then some [0] else (stringAt byte (va + 1) max).map (b :: ·)

variable {f g : ℕ → Option UInt8} {va max : ℕ}

theorem stringAt_succ_none (h : f va = none) : stringAt f va (max + 1) = none := by
  rw [stringAt, h, bind_none]

theorem stringAt_succ_zero (h : f va = some 0) : stringAt f va (max + 1) = some [0] := by
  rw [stringAt, h, bind_some, if_pos rfl]

theorem stringAt_succ_next {b : UInt8} (h : f va = some b) (hb : b ≠ 0) :
    stringAt f va (max + 1) = (stringAt f (va + 1) max).map (b :: ·) := by
  rw [stringAt, h, bind_some, if_neg hb]

/-- A memory with more bytes has the same strings and maybe more. -/
theorem stringAt_mono (hle : ∀ a b, f a = some b → g a = some b) (max va : ℕ) {str : List UInt8}
    (h : stringAt f va max = some str) : stringAt g va max = some str := by
  induction max generalizing va str with
  | zero => cases h
  | succ max ih =>
    cases hf : f va with
    | none =>
      exact none_elim (stringAt_succ_none hf) h
    | some b =>
      by_cases hb : b = 0
      · rw [hb] at hf
        rw [stringAt_succ_zero hf] at h
        rw [stringAt_succ_zero (hle va 0 hf), h]
      · rw [stringAt_succ_next hf hb] at h
        obtain ⟨tail, htail, rfl⟩ := map_eq_some_iff.1 h
        rw [stringAt_succ_next (hle va b hf) hb, ih (va + 1) htail]
        rfl

/-- A string gets its end from a new byte exactly if it runs into one. -/
theorem stringAt_new_iff (hle : ∀ a b, f a = some b → g a = some b)
    (hzero : ∀ a b, f a = none → g a = some b → b = 0) (max va : ℕ) :
    ((stringAt g va max).isSome = true ∧ stringAt f va max = none) ↔
      ∃ i < max, (∀ j < i, ∃ b, f (va + j) = some b ∧ b ≠ 0) ∧ f (va + i) = none ∧
        (g (va + i)).isSome = true := by
  induction max generalizing va with
  | zero => simp [stringAt]
  | succ max ih =>
    cases hf : f va with
    | none =>
      rw [stringAt_succ_none hf]
      constructor
      · rintro ⟨hg, -⟩
        refine ⟨0, succ_pos max, fun j hj => absurd hj (not_lt_zero j), hf, ?_⟩
        by_contra hnone
        rw [Bool.not_eq_true, isSome_eq_false_iff, isNone_iff_eq_none] at hnone
        rw [add_zero] at hnone
        rw [stringAt_succ_none hnone] at hg
        cases hg
      · rintro ⟨i, -, hbefore, -, hsome⟩
        -- the first byte is not there, so the string runs into it at once
        have hi : i = 0 := by
          by_contra hpos
          obtain ⟨b, hb, -⟩ := hbefore 0 (pos_of_ne_zero hpos)
          rw [add_zero, hf] at hb
          cases hb
        rw [hi, add_zero] at hsome
        obtain ⟨b, hb⟩ := isSome_iff_exists.1 hsome
        rw [hzero va b hf hb] at hb
        rw [stringAt_succ_zero hb]
        exact ⟨rfl, rfl⟩
    | some b =>
      by_cases hb : b = 0
      · rw [hb] at hf
        rw [stringAt_succ_zero hf]
        refine ⟨(fun h => nomatch h.2), ?_⟩
        rintro ⟨i, -, hbefore, hnone, -⟩
        cases i with
        | zero =>
          rw [add_zero, hf] at hnone
          cases hnone
        | succ i =>
          obtain ⟨c, hc, hne⟩ := hbefore 0 (succ_pos i)
          rw [add_zero, hf] at hc
          exact absurd (Option.some.inj hc).symm hne
      · rw [stringAt_succ_next hf hb, stringAt_succ_next (hle va b hf) hb, isSome_map, map_eq_none_iff, ih (va + 1)]
        constructor
        · rintro ⟨i, hi, hbefore, hnone, hsome⟩
          have hshift : va + (i + 1) = va + 1 + i := by omega
          refine ⟨i + 1, by omega, fun j hj => ?_, by rwa [hshift], by rwa [hshift]⟩
          cases j with
          | zero => exact ⟨b, hf, hb⟩
          | succ j =>
            rw [show va + (j + 1) = va + 1 + j by omega]
            exact hbefore j (by omega)
        · rintro ⟨i, hi, hbefore, hnone, hsome⟩
          cases i with
          | zero =>
            rw [add_zero, hf] at hnone
            cases hnone
          | succ i =>
            have hshift : va + (i + 1) = va + 1 + i := by omega
            rw [hshift] at hnone hsome
            refine ⟨i, by omega, fun j hj => ?_, hnone, hsome⟩
            rw [show va + 1 + j = va + (j + 1) by omega]
            exact hbefore (j + 1) (by omega)

end Specification

section Copyinstr

variable [KernelImage] {p : Proc} {s : Phys} {va max : ℕ}

omit [KernelImage] in
/-- What the inner loop finds in a page is the string or its first part. -/
theorem stringAt_scanString (byte : ℕ → Option UInt8) (page : Page) (n m off va : ℕ)
    (hpage : ∀ i < n, byte (va + i) = some (page.at (off + i))) :
    stringAt byte va (n + m) = if (scanString page off n).2 then some (scanString page off n).1
      else (stringAt byte (va + n) m).map ((scanString page off n).1 ++ ·) := by
  induction n generalizing off va with
  | zero => simp [scanString]
  | succ n ih =>
    have hfirst := hpage 0 (succ_pos n)
    rw [add_zero, add_zero] at hfirst
    rw [show n + 1 + m = n + m + 1 by omega, scanString]
    by_cases hzero : page.at off = 0
    · rw [hzero] at hfirst
      rw [stringAt_succ_zero hfirst, if_pos hzero]
      rfl
    · have hrest := ih (off + 1) (va + 1) fun i hi => by
        rw [show va + 1 + i = va + (i + 1) by omega, show off + 1 + i = off + (i + 1) by omega]
        exact hpage (i + 1) (by omega)
      rw [stringAt_succ_next hfirst hzero, if_neg hzero, hrest, show va + (n + 1) = va + 1 + n by omega]
      dsimp only
      split_ifs
      · rfl
      · rw [map_map]
        rfl

/-- What `copyinstr` has found. -/
structure StringCopied (byte : ℕ → Option UInt8) (va max : ℕ) (out : ℤ × List UInt8) : Prop where
  result : out.1 = 0 ∨ out.1 = -1
  found : out.1 = 0 ↔ (stringAt byte va max).isSome = true
  string : ∀ str, stringAt byte va max = some str → out.2 = str

omit [KernelImage] in
/-- There is no string. -/
theorem StringCopied.none {byte : ℕ → Option UInt8} {dst : List UInt8}
    (h : stringAt byte va max = Option.none) : StringCopied byte va max (-1, dst) where
  result := .inr rfl
  found := by
    rw [h]
    exact ⟨nofun, nofun⟩
  string str hstr := by
    exact none_elim h hstr

/-- `copyinstr` finds the strings of the bytes that are mapped, and changes nothing. -/
theorem copyinstr_spec (root max va : ℕ) (s : Phys) (h : Space s.mem root) :
    Ensures (copyinstr root va max) s fun out s' =>
      s' = s ∧ StringCopied (userByte s root) va max out := by
  induction max using Nat.strong_induction_on generalizing va with
  | h max ih =>
    rw [copyinstr]
    by_cases hmax : max = 0
    · rw [dif_pos hmax, ensures_pure, hmax]
      exact ⟨rfl, StringCopied.none rfl⟩
    rw [dif_neg hmax]
    obtain ⟨hoff, haligned, hdiv, hle, hlt⟩ := chunk_facts va
    obtain ⟨max', rfl⟩ := exists_eq_succ_of_ne_zero hmax
    have hstop : userByte s root va = none → StringCopied (userByte s root) va (max' + 1) (-1, []) :=
      fun hnone => StringCopied.none (stringAt_succ_none hnone)
    dsimp only
    rw [ensures_bind]
    refine (walkaddr_translation root s (PGROUNDDOWN va)).mono ?_
    intro pa s₁ hpa
    obtain ⟨rfl, hpa⟩ := hpa
    cases hw : leaf s₁.mem root (va / 4096) with
    | none =>
      have hzero : pa = 0 := by
        rw [hpa, userAddress_of_none (by rwa [hdiv]), ite_self]
      rw [if_pos hzero, ensures_pure]
      exact ⟨rfl, hstop (by rw [userByte, hw, bind_none])⟩
    | some w =>
      have hbelow : PGROUNDDOWN va < MAXVA := lt_of_le_of_lt hle (h.lt_maxva hw)
      rw [if_pos hbelow, userAddress_of_leaf (by rwa [hdiv])] at hpa
      cases hU : hasFlag w PTE_U with
      | false =>
        rw [hU, if_neg Bool.false_ne_true] at hpa
        rw [if_pos hpa, ensures_pure]
        exact ⟨rfl, hstop (by rw [userByte, hw, bind_some, hU, if_neg Bool.false_ne_true])⟩
      | true =>
        rw [hU, if_pos rfl] at hpa
        have hne : pa ≠ 0 := hpa ▸ h.page_ne_zero hw
        rw [if_neg hne, ensures_bind, ensures_get, hoff]
        have hnext : (PGROUNDDOWN va + PGSIZE) % UINT64 = PGROUNDDOWN va + 4096 := by
          have hmax : va < 2 ^ 38 := h.lt_maxva hw
          apply mod_eq_of_lt
          change _ + 4096 < 2 ^ 64
          omega
        rw [hnext]
        generalize hn : min (PGSIZE - va % 4096) (max' + 1) = n
        change min (4096 - va % 4096) (max' + 1) = n at hn
        have hscan := stringAt_scanString (userByte s₁ root) (s₁.mem pa) n (max' + 1 - n)
          (va % 4096) va fun i hi => by
            obtain ⟨hdiv', hmod⟩ := UserMem.add_in_page va i (by omega)
            have hleaf : leaf s₁.mem root ((va + i) / 4096) = some w := by rw [hdiv', hw]
            rw [userByte_of_leaf hleaf hU, hmod, hpa]
        rw [show n + (max' + 1 - n) = max' + 1 by omega] at hscan
        generalize scanString (s₁.mem pa) (va % 4096) n = scanned at hscan ⊢
        obtain ⟨bytes, gotNull⟩ := scanned
        dsimp only at hscan ⊢
        cases gotNull with
        | true =>
          rw [if_pos rfl] at hscan
          rw [if_pos rfl, ensures_pure]
          refine ⟨rfl, .inl rfl, ?_, fun str hstr => ?_⟩
          · rw [hscan]
            exact ⟨fun _ => rfl, fun _ => rfl⟩
          · rw [hscan] at hstr
            exact Option.some.inj hstr
        | false =>
          rw [if_neg Bool.false_ne_true] at hscan
          rw [if_neg Bool.false_ne_true, ensures_bind]
          refine (ih (max' + 1 - n) (by omega) (PGROUNDDOWN va + 4096)).mono ?_
          intro out s₂ hout
          obtain ⟨rfl, hrest⟩ := hout
          have hsame : stringAt (userByte s₂ root) (va + n) (max' + 1 - n) =
              stringAt (userByte s₂ root) (PGROUNDDOWN va + 4096) (max' + 1 - n) := by
            by_cases hlast : max' + 1 - n = 0
            · rw [hlast]
              rfl
            · rw [show va + n = PGROUNDDOWN va + 4096 by omega]
          rw [hsame] at hscan
          rw [ensures_pure]
          refine ⟨rfl, hrest.result, ?_, fun str hstr => ?_⟩
          · rw [hscan, isSome_map]
            exact hrest.found
          · rw [hscan] at hstr
            obtain ⟨tail, htail, rfl⟩ := map_eq_some_iff.1 hstr
            rw [hrest.string tail htail]

end Copyinstr

/-- The page of an address has been promised to the process by `sbrk` and has not been touched. -/
def LazyHole (p : Proc) (s : Phys) (va : ℕ) : Prop :=
  leaf s.mem p.pagetable (va / 4096) = none ∧ PGROUNDDOWN va < p.sz

instance (p : Proc) (s : Phys) (va : ℕ) : Decidable (LazyHole p s va) :=
  inferInstanceAs (Decidable (_ ∧ _))

/-- The byte that `copyin` returns for an address: an untouched page is cleared first. -/
def promisedByte (p : Proc) (s : Phys) (va : ℕ) : Option UInt8 :=
  if LazyHole p s va then some 0 else userByte s p.pagetable va

section Read

variable [KernelImage]

/-- Read a string byte by byte with `copyin`, until its NUL and within `max` bytes. -/
def readString (p : Proc) (pagetable : ℕ) : ℕ → ℕ → VmM (Option (List UInt8))
  | _, 0 => pure none
  | srcva, max + 1 => do
    match ← copyin p pagetable srcva 1 with
    | none => pure none
    | some bytes =>
      if bytes = [0] then pure (some [0])
      else do
        let rest ← readString p pagetable ((srcva + 1) % UINT64) max
        pure (rest.map (bytes ++ ·))

variable {p : Proc} {s : Phys} {va : ℕ}

omit [KernelImage] in
/-- There is no byte in an untouched page. -/
theorem LazyHole.userByte (h : LazyHole p s va) : userByte s p.pagetable va = none := by
  rw [Xv6.userByte, h.1, bind_none]

omit [KernelImage] in
theorem promisedByte_of_some {b : UInt8} (hb : userByte s p.pagetable va = some b) :
    promisedByte p s va = some b := by
  have hnot : ¬ LazyHole p s va := by
    intro h
    exact none_elim h.userByte hb
  rw [promisedByte, if_neg hnot, hb]

section

variable (h : ProcSpace s p.pagetable p.trapframe) (hsz : p.sz ≤ TRAPFRAME) (hroom : 3 ≤ s.freelist.length)

include h hsz hroom

/-- With three free pages, `copyin` reaches every untouched page. -/
theorem copyin_untouched (hva : LazyHole p s va) : Ensures (copyin p p.pagetable va 1) s fun r _ => r ≠ none := by
  obtain ⟨hnone, hlt⟩ := hva
  obtain ⟨-, -, hdiv, -, -⟩ := chunk_facts va
  rw [← hdiv] at hnone
  have hno : ∀ w, leaf s.mem p.pagetable (PGROUNDDOWN va / 4096) = some w → hasFlag w PTE_U = false := by
    intro w hw
    exact none_elim hnone hw
  have hlow : va < MAXVA := by
    have hbelow : PGROUNDDOWN va < 2 ^ 38 - 4096 - 4096 := lt_of_lt_of_le hlt hsz
    change va < 2 ^ 38
    omega
  refine copyin_round (userPage_fault hno (vmfault_room h hsz hroom)) one_ne_zero
    (fun _ _ _ _ => hlow) (fun s₁ hp => absurd rfl (hp hlt hnone)) ?_
  intro pa s₁ n _ _ hn
  obtain rfl : n = 1 := by omega
  rw [copyin, dif_pos rfl, ensures_pure]
  exact some_ne_none _

/-- One byte through `copyin`. -/
theorem copyin_byte :
    Ensures (copyin p p.pagetable va 1) s fun r s' =>
      r = (promisedByte p s va).map (fun b => [b]) ∧ (userByte s p.pagetable va ≠ none → s' = s) := by
  have hdone := copyin_done 1 va s h hsz
  have hsingle : ∀ {r : Option (List UInt8)} {s' : Phys} {data}, CopyinDone p.pagetable va 1 r s' →
      r = some data → ∃ b, userByte s' p.pagetable va = some b ∧ data = [b] := by
    intro r s' data hread hr
    obtain ⟨hlen, hbytes⟩ := hread.bytes data hr
    obtain ⟨b, rfl⟩ := List.length_eq_one_iff.1 hlen
    exact ⟨b, hbytes 0 one_pos, rfl⟩
  by_cases huntouched : LazyHole p s va
  · refine (hdone.and (copyin_untouched h hsz hroom huntouched)).mono ?_
    intro r s' hr
    obtain ⟨⟨hfilled, hread⟩, hsome⟩ := hr
    obtain ⟨data, rfl⟩ := ne_none_iff_exists'.1 hsome
    obtain ⟨b, hb, rfl⟩ := hsingle hread rfl
    have hzero : b = 0 := (hfilled.bytesKept h.within).zero va b (fun hf => hf) huntouched.userByte hb
    refine ⟨?_, fun hne => absurd huntouched.userByte hne⟩
    rw [promisedByte, if_pos huntouched, hzero, map_some]
  · rw [promisedByte, if_neg huntouched]
    cases hbyte : userByte s p.pagetable va with
    | some b =>
      refine (hdone.and (copyin_mapped 1 va s h.within fun i hi => ?_)).mono ?_
      · obtain rfl : i = 0 := by omega
        rw [add_zero, hbyte]
        rfl
      · intro r s' hr
        obtain ⟨⟨-, hread⟩, rfl, hsome⟩ := hr
        obtain ⟨data, rfl⟩ := ne_none_iff_exists'.1 hsome
        obtain ⟨b', hb', rfl⟩ := hsingle hread rfl
        rw [hbyte] at hb'
        rw [Option.some.inj hb', map_some]
        exact ⟨rfl, fun _ => rfl⟩
    | none =>
      refine hdone.mono ?_
      intro r s' hr
      obtain ⟨hfilled, hread⟩ := hr
      refine ⟨?_, fun hne => absurd rfl hne⟩
      rw [map_none]
      by_contra hsome
      obtain ⟨data, hdata⟩ := ne_none_iff_exists'.1 hsome
      obtain ⟨b, hb, -⟩ := hsingle hread hdata
      obtain ⟨w, hw, hU, -⟩ := userByte_eq_some hb
      cases hold : leaf s.mem p.pagetable (va / 4096) with
      | some w' =>
        -- the page was mapped without the user flag, and it still is
        have hsame := hfilled.old _ w' hold
        rw [hw] at hsame
        rw [Option.some.inj hsame] at hU
        exact none_elim hbyte (userByte_of_leaf hold hU)
      | none =>
        obtain ⟨m, perm, -, -, -, -, -, -, hlt, -⟩ := hfilled.new _ w hold hw
        refine huntouched ⟨hold, ?_⟩
        rwa [PGROUNDDOWN_eq]

/-- Reading byte by byte finds the strings of the bytes that the process has been promised. -/
theorem readString_spec (max va : ℕ) :
    Ensures (readString p p.pagetable va max) s fun r _ => r = stringAt (promisedByte p s) va max := by
  induction max generalizing va with
  | zero => exact (ensures_pure _ _ _).2 rfl
  | succ max ih =>
    rw [readString, ensures_bind]
    refine (copyin_byte h hsz hroom).mono ?_
    intro r s' hr
    obtain ⟨rfl, hsame⟩ := hr
    cases hbyte : promisedByte p s va with
    | none =>
      rw [stringAt_succ_none hbyte]
      exact (ensures_pure _ _ _).2 rfl
    | some b =>
      by_cases hb : b = 0
      · rw [hb] at hbyte ⊢
        rw [stringAt_succ_zero hbyte]
        exact (ensures_pure _ _ _).2 rfl
      · -- a byte that is not zero is a byte of a mapped page, and reading it has changed nothing
        have huser : userByte s p.pagetable va = some b := by
          rw [promisedByte] at hbyte
          split_ifs at hbyte
          · exact absurd (Option.some.inj hbyte).symm hb
          · exact hbyte
        obtain rfl := hsame (by rw [huser]; exact some_ne_none b)
        obtain ⟨w, hw, -, -⟩ := userByte_eq_some huser
        have hnext : (va + 1) % UINT64 = va + 1 := by
          have hmax : va < 2 ^ 38 := h.within.space.lt_maxva hw
          apply mod_eq_of_lt
          change va + 1 < 2 ^ 64
          omega
        have hne : ¬ [b] = [0] := fun heq => hb (List.singleton_inj.1 heq)
        rw [stringAt_succ_next hbyte hb, map_some]
        dsimp only
        rw [if_neg hne, hnext, ensures_bind]
        refine (ih (va + 1)).mono ?_
        intro rest _ hrest
        rw [ensures_pure, hrest]
        rfl

end

/-- `copyinstr` returns zero exactly if reading byte by byte finds a string, and then it has copied it. -/
def StringsAgree (p : Proc) (s : Phys) (srcva max : ℕ) : Prop :=
  Ensures (copyinstr p.pagetable srcva max) s fun out _ =>
    Ensures (readString p p.pagetable srcva max) s fun str _ =>
      (out.1 = 0 ↔ str.isSome = true) ∧ ∀ bytes, str = some bytes → out.2 = bytes

end Read

/-- With three free pages, `copyinstr` agrees with reading byte by byte exactly if the string does not run
into an untouched page before its NUL and within `max` bytes. -/
theorem copyinstr_agrees_iff [KernelImage] (p : Proc) (s : Phys)
    (h : ProcSpace s p.pagetable p.trapframe) (hsz : p.sz ≤ TRAPFRAME) (hroom : 3 ≤ s.freelist.length)
    (srcva max : ℕ) : StringsAgree p s srcva max ↔
      ¬ ∃ i < max, (∀ j < i, ∃ b, userByte s p.pagetable (srcva + j) = some b ∧ b ≠ 0) ∧
        LazyHole p s (srcva + i) := by
  have hle : ∀ a b, userByte s p.pagetable a = some b → promisedByte p s a = some b :=
    fun a b hb => promisedByte_of_some hb
  have hnew : ∀ a b, userByte s p.pagetable a = none → promisedByte p s a = some b →
      LazyHole p s a ∧ b = 0 := by
    intro a b hnone hb
    rw [promisedByte] at hb
    split_ifs at hb with hun
    · exact ⟨hun, (Option.some.inj hb).symm⟩
    · exact none_elim hnone hb
  have hdiff := stringAt_new_iff hle (fun a b hnone hb => (hnew a b hnone hb).2) max srcva
  have hruns : (∃ i < max, (∀ j < i, ∃ b, userByte s p.pagetable (srcva + j) = some b ∧ b ≠ 0) ∧
      LazyHole p s (srcva + i)) ↔ (stringAt (promisedByte p s) srcva max).isSome = true ∧
        stringAt (userByte s p.pagetable) srcva max = none := by
    rw [hdiff]
    constructor
    · rintro ⟨i, hi, hbefore, hun⟩
      refine ⟨i, hi, hbefore, hun.userByte, ?_⟩
      rw [promisedByte, if_pos hun]
      rfl
    · rintro ⟨i, hi, hbefore, hnone, hsome⟩
      obtain ⟨b, hb⟩ := isSome_iff_exists.1 hsome
      exact ⟨i, hi, hbefore, (hnew _ b hnone hb).1⟩
  obtain ⟨out, _, hcopy, rfl, hcopied⟩ := copyinstr_spec p.pagetable max srcva s h.within.space
  obtain ⟨str, s', hread, hstr⟩ := readString_spec h hsz hroom max srcva
  rw [hruns, StringsAgree]
  constructor
  · rintro ⟨out', _, hcopy', str', _, hread', hagree, -⟩ ⟨hsome, hnone⟩
    obtain ⟨rfl, rfl⟩ := Prod.mk.inj (Except.ok.inj (hcopy.symm.trans hcopy'))
    obtain ⟨rfl, rfl⟩ := Prod.mk.inj (Except.ok.inj (hread.symm.trans hread'))
    rw [← hstr] at hsome
    have hfound := hcopied.found.1 (hagree.2 hsome)
    rw [hnone] at hfound
    cases hfound
  · intro hagree
    refine ⟨out, _, hcopy, str, s', hread, ?_, ?_⟩
    · rw [hcopied.found, hstr]
      constructor
      · intro hsome
        obtain ⟨bytes, hbytes⟩ := isSome_iff_exists.1 hsome
        rw [stringAt_mono hle max srcva hbytes]
        rfl
      · intro hsome
        by_contra hnone
        rw [Bool.not_eq_true, isSome_eq_false_iff, isNone_iff_eq_none] at hnone
        exact hagree ⟨hsome, hnone⟩
    · intro bytes hbytes
      cases huser : stringAt (userByte _ p.pagetable) srcva max with
      | none =>
        rw [hstr] at hbytes
        exact absurd ⟨by rw [hbytes]; rfl, huser⟩ hagree
      | some bytes' =>
        rw [hstr, stringAt_mono hle max srcva huser] at hbytes
        rw [hcopied.string bytes' huser, Option.some.inj hbytes]

section Concrete

attribute [local instance] linkedImage

/-- A string in a touched page of a heap. -/
theorem copyinstr_agrees_touched : ∃ (p : Proc) (s : Phys), p.sz = 20480 ∧ StringsAgree p s 16384 10 := by
  obtain ⟨events, k, hrun, -, ⟨hstate, hsz, hleaf, -, hfree, -⟩, -⟩ := exists_started
  have hok := ((bootKernel_forty.1.invariant.of_run hrun).layout.slot 0 (.of_runnable hstate)).ok
  refine ⟨k.proc 0, k.phys, hsz,
    (copyinstr_agrees_iff (k.proc 0) k.phys hok.space hok.size hfree 16384 10).2 ?_⟩
  rintro ⟨i, hi, -, hnone, -⟩
  rw [show (16384 + i) / 4096 = 4 by omega] at hnone
  rw [hnone] at hleaf
  cases hleaf

/-- A string in an untouched page of a heap: reading it byte by byte gives the empty string, and
`copyinstr` fails. -/
theorem copyinstr_untouched : ∃ events k, Run Kernel.Guarded (bootKernel 40) events k ∧
    events.map (fun e => (e.proc, e.op)) = startedOps 0 ∧ 3 ≤ k.phys.freelist.length ∧
    Ensures (copyinstr (k.proc 0).pagetable 12288 128) k.phys (fun out _ => out.1 = -1) ∧
    Ensures (readString (k.proc 0) (k.proc 0).pagetable 12288 128) k.phys (fun str _ => str = some [0]) ∧
    ¬ StringsAgree (k.proc 0) k.phys 12288 128 := by
  obtain ⟨events, k, hrun, hops, ⟨hstate, hsz, -, hnone, hfree, -⟩, -⟩ := exists_started
  have hok := ((bootKernel_forty.1.invariant.of_run hrun).layout.slot 0 (.of_runnable hstate)).ok
  have hun : LazyHole (k.proc 0) k.phys 12288 := by
    refine ⟨hnone, ?_⟩
    rw [hsz]
    decide
  obtain ⟨out, _, hcopy, rfl, hcopied⟩ :=
    copyinstr_spec (k.proc 0).pagetable 128 12288 k.phys hok.space.within.space
  have hread := readString_spec hok.space hok.size hfree 128 12288
  have hpromised : promisedByte (k.proc 0) k.phys 12288 = some 0 := by rw [promisedByte, if_pos hun]
  rw [stringAt_succ_zero hpromised] at hread
  obtain ⟨str, s', hread, rfl⟩ := hread
  have hfailed : out.1 ≠ 0 := by
    rw [Ne, hcopied.found, stringAt_succ_none hun.userByte]
    exact Bool.false_ne_true
  refine ⟨events, k, hrun, hops, hfree, ⟨out, _, hcopy, hcopied.result.resolve_left hfailed⟩,
    ⟨_, s', hread, rfl⟩, ?_⟩
  rintro ⟨out', _, hcopy', str', _, hread', hagree, -⟩
  obtain ⟨rfl, rfl⟩ := Prod.mk.inj (Except.ok.inj (hcopy.symm.trans hcopy'))
  obtain ⟨rfl, rfl⟩ := Prod.mk.inj (Except.ok.inj (hread.symm.trans hread'))
  exact hfailed (hagree.2 rfl)

end Concrete

end Xv6
