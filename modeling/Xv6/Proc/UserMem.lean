import Xv6.Proc.AccessSpec

/-!
# The memory that a process sees

What a process sees is a map from page numbers to flags and contents, in which a page that is only
promised counts with the contents it will have when it is touched. Loads, stores and the copies of the
kernel are functions of this map, and filling a hole with what was promised does not change it.
-/

namespace Xv6

open Function Library Vm

/-- The pages that a process sees, with their flags. -/
abbrev UserMem := ℕ → Option (ℕ × Page)

namespace UserMem

/-- The page of an address, if the user may access it with the given permission. -/
def access (V : UserMem) (va flag : ℕ) : Option Page :=
  (V (va / 4096)).bind fun e => if hasFlag e.1 PTE_U && hasFlag e.1 flag then some e.2 else none

/-- The byte that a user load finds. -/
def load (V : UserMem) (va : ℕ) : Option UInt8 := (V.access va PTE_R).map fun page => page.at (va % 4096)

/-- The memory after a byte has been stored. -/
def put (V : UserMem) (va : ℕ) (byte : UInt8) : UserMem :=
  Function.update V (va / 4096)
    ((V (va / 4096)).map fun e => (e.1, writeBytes e.2 (va % 4096) [byte]))

/-- The bytes that the kernel copies from the process, if all of them are there. -/
def copyin (V : UserMem) : ℕ → ℕ → Option (List UInt8)
  | _, 0 => some []
  | va, n + 1 =>
    (V.access va PTE_U).bind fun page => (copyin V (va + 1) n).map fun tail => page.at (va % 4096) :: tail

/-- The memory after the kernel has copied bytes to the process, and whether all could be copied. -/
def copyout (V : UserMem) : ℕ → List UInt8 → UserMem × Bool
  | _, [] => (V, true)
  | va, byte :: bytes =>
    if (V.access va PTE_W).isSome then copyout (V.put va byte) (va + 1) bytes else (V, false)

section Chunks

variable {V : UserMem} {va : ℕ} {page : Page}

/-- What the kernel cannot reach for the user cannot be written either. -/
theorem access_none_of_user {flag : ℕ} (h : V.access va PTE_U = none) : V.access va flag = none := by
  rw [access] at h ⊢
  cases hV : V (va / 4096) with
  | none => rfl
  | some e =>
    rw [hV, Option.bind_some, Bool.and_self] at h
    cases hU : hasFlag e.1 PTE_U with
    | true => rw [hU] at h; cases h
    | false => rw [Option.bind_some, hU, Bool.false_and]; rfl

/-- Neighbouring addresses of one page. -/
theorem add_in_page (va k : ℕ) (h : va % 4096 + k < 4096) :
    (va + k) / 4096 = va / 4096 ∧ (va + k) % 4096 = va % 4096 + k := by
  omega

/-- The kernel copies page by page. -/
theorem copyin_chunk (hpage : V.access va PTE_U = some page) (n m : ℕ) (hn : va % 4096 + n ≤ 4096) :
    V.copyin va (n + m) =
      (V.copyin (va + n) m).map fun tail => readBytes page (va % 4096) n ++ tail := by
  induction n generalizing va with
  | zero => simp [readBytes]
  | succ n ih =>
    have hrest : V.copyin (va + 1) (n + m) =
        (V.copyin (va + 1 + n) m).map fun tail => readBytes page (va % 4096 + 1) n ++ tail := by
      cases n with
      | zero => simp [readBytes]
      | succ n =>
        obtain ⟨hdiv, hmod⟩ := add_in_page va 1 (by omega)
        have hnext : V.access (va + 1) PTE_U = some page := by
          rw [access, hdiv]
          exact hpage
        rw [ih hnext (by omega), hmod]
    have hread : readBytes page (va % 4096) (n + 1) =
        page.at (va % 4096) :: readBytes page (va % 4096 + 1) n := by
      rw [readBytes, readBytes, List.range_succ_eq_map]
      simp [Nat.add_assoc, Nat.add_comm 1]
    rw [show n + 1 + m = n + m + 1 by omega, copyin, hpage, Option.bind_some, hrest, hread,
      show va + (n + 1) = va + 1 + n by omega]
    cases V.copyin (va + 1 + n) m <;> rfl

/-- Two neighbouring writes are one. -/
theorem writeBytes_cons (page : Page) (off : ℕ) (byte : UInt8) (bytes : List UInt8) :
    writeBytes (writeBytes page off [byte]) (off + 1) bytes = writeBytes page off (byte :: bytes) := by
  funext j
  simp only [writeBytes, List.length_cons, List.length_nil]
  by_cases h1 : off + 1 ≤ j.val ∧ j.val < off + 1 + bytes.length
  · rw [if_pos h1, if_pos (by omega), show j.val - off = (j.val - (off + 1)) + 1 by omega, List.getD_cons_succ]
  · rw [if_neg h1]
    by_cases h2 : off ≤ j.val ∧ j.val < off + (0 + 1)
    · rw [if_pos h2, if_pos (by omega), show j.val - off = 0 by omega]
      rfl
    · rw [if_neg h2, if_neg (by omega)]

/-- Writing no byte changes nothing. -/
theorem writeBytes_nil (page : Page) (off : ℕ) : writeBytes page off [] = page := by
  funext j
  rw [writeBytes, if_neg (by simp)]

/-- The kernel writes page by page. -/
theorem copyout_chunk {flags : ℕ} (hpage : V (va / 4096) = some (flags, page)) (hU : hasFlag flags PTE_U = true)
    (hW : hasFlag flags PTE_W = true) (first rest : List UInt8) (hn : va % 4096 + first.length ≤ 4096) :
    V.copyout va (first ++ rest) =
      copyout (update V (va / 4096) (some (flags, writeBytes page (va % 4096) first)))
        (va + first.length) rest := by
  induction first generalizing va V page with
  | nil => rw [List.nil_append, writeBytes_nil, ← hpage, update_eq_self]; rfl
  | cons byte first ih =>
    have haccess : (V.access va PTE_W).isSome := by
      rw [access, hpage]
      simp [hU, hW]
    have hput : V.put va byte =
        update V (va / 4096) (some (flags, writeBytes page (va % 4096) [byte])) := by
      rw [put, hpage]
      rfl
    rw [List.length_cons] at hn
    rw [List.cons_append, copyout, if_pos haccess, hput, List.length_cons,
      show va + (first.length + 1) = va + 1 + first.length by omega]
    cases first with
    | nil => rfl
    | cons byte' first =>
      obtain ⟨hdiv, hmod⟩ := add_in_page va 1 (by rw [List.length_cons] at hn; omega)
      rw [ih (by rw [hdiv, update_self]) (by rw [hmod]; omega), hdiv, hmod, update_idem, writeBytes_cons]

end Chunks

end UserMem

end Xv6
