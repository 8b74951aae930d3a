import Mathlib.Data.List.Nodup
import Mathlib.Tactic.Common
import Xv6.Virtio.Code

/-!
# Descriptors

What the functions of the driver do to the descriptors. `alloc3_desc` marks three free descriptors or leaves
the marks as they were; `free_chain` frees the three descriptors of a formatted request. Neither panics on
descriptors that are not free.
-/

namespace Xv6.Virtio

open Function List

variable {B : Type*} {α : Type*}

/-- Overwrite the entries with some numbers. -/
def overwrite (f : ℕ → α) (idx : List ℕ) (v : α) : ℕ → α := fun i => if i ∈ idx then v else f i

theorem overwrite_nil (f : ℕ → α) (v : α) : overwrite f [] v = f := by
  funext i
  exact if_neg not_mem_nil

variable {idx : List ℕ} {i : ℕ} {f : ℕ → α}

theorem overwrite_of_mem {v : α} (h : i ∈ idx) : overwrite f idx v i = v := if_pos h

theorem overwrite_of_notMem {v : α} (h : i ∉ idx) : overwrite f idx v i = f i := if_neg h

theorem overwrite_overwrite (f : ℕ → α) (idx idx' : List ℕ) (v : α) :
    overwrite (overwrite f idx v) idx' v = overwrite f (idx ++ idx') v := by
  funext i
  by_cases hi' : i ∈ idx'
  · rw [overwrite_of_mem hi', overwrite_of_mem (mem_append_right idx hi')]
  · rw [overwrite_of_notMem hi']
    by_cases hi : i ∈ idx
    · rw [overwrite_of_mem hi, overwrite_of_mem (mem_append_left idx' hi)]
    · have hnot : i ∉ idx ++ idx' := by
        rw [mem_append]
        exact not_or.2 ⟨hi, hi'⟩
      rw [overwrite_of_notMem hi, overwrite_of_notMem hnot]

theorem overwrite_singleton (f : ℕ → α) (i : ℕ) (v : α) : overwrite f [i] v = update f i v := by
  funext j
  by_cases hj : j = i
  · rw [hj, update_self, overwrite_of_mem mem_cons_self]
  · rw [update_of_ne hj, overwrite_of_notMem fun hmem => hj (mem_singleton.1 hmem)]

namespace Chain

theorem mem_idx (c : Chain) : i ∈ c.idx ↔ i = c.head ∨ i = c.data ∨ i = c.status := by
  rw [idx, mem_cons, mem_cons, mem_singleton]

theorem head_mem (c : Chain) : c.head ∈ c.idx := c.mem_idx.2 (.inl rfl)

theorem data_mem (c : Chain) : c.data ∈ c.idx := c.mem_idx.2 (.inr (.inl rfl))

theorem status_mem (c : Chain) : c.status ∈ c.idx := c.mem_idx.2 (.inr (.inr rfl))

theorem nodup_idx (c : Chain) : c.idx.Nodup ↔ c.head ≠ c.data ∧ c.head ≠ c.status ∧ c.data ≠ c.status := by
  rw [idx, nodup_cons, nodup_cons, mem_cons, mem_singleton, mem_singleton, not_or, and_assoc]
  exact and_congr_right fun _ => and_congr_right fun _ => and_iff_left (nodup_singleton _)

end Chain

/-- An empty descriptor. -/
def Desc.empty : Desc B := ⟨.null, 0, 0, 0⟩

namespace Disk

variable {d : Disk B}

/-- The disk with some descriptors marked. -/
def mark (d : Disk B) (idx : List ℕ) : Disk B := { d with free := overwrite d.free idx false }

/-- The disk with some descriptors freed. -/
def wipe (d : Disk B) (idx : List ℕ) : Disk B :=
  { d with desc := overwrite d.desc idx Desc.empty, free := overwrite d.free idx true }

theorem freeDesc_eq (hi : i < NUM) (hfree : d.free i = false) :
    d.freeDesc i = .ok { d with
      desc := update d.desc i Desc.empty
      free := update d.free i true } := by
  rw [freeDesc, if_neg (Nat.not_le.2 hi), hfree]
  rfl

/-- Marked descriptors are freed without a panic. -/
theorem freeAll_eq (hnodup : idx.Nodup) (hidx : ∀ i ∈ idx, i < NUM ∧ d.free i = false) :
    d.freeAll idx = .ok (d.wipe idx) := by
  induction idx generalizing d with
  | nil => rw [freeAll, wipe, overwrite_nil, overwrite_nil]
  | cons i idx ih =>
    obtain ⟨hi, hnodup⟩ := nodup_cons.1 hnodup
    obtain ⟨hlt, hfree⟩ := hidx i mem_cons_self
    rw [freeAll, freeDesc_eq hlt hfree]
    have hrest := ih (d := { d with
      desc := update d.desc i Desc.empty
      free := update d.free i true }) hnodup (fun j hj => ?_)
    · change freeAll _ idx = _
      rw [hrest, wipe, wipe, ← overwrite_singleton, ← overwrite_singleton, overwrite_overwrite, overwrite_overwrite]
      rfl
    · obtain ⟨hjlt, hjfree⟩ := hidx j (mem_cons_of_mem i hj)
      refine ⟨hjlt, ?_⟩
      have hne : j ≠ i := fun heq => hi (heq ▸ hj)
      change update d.free i true j = false
      rw [update_of_ne hne]
      exact hjfree

/-- Three descriptors, linked to each other, of a buffer and the status at the number of the first. -/
structure Formatted (d : Disk B) (b : B) (c : Chain) : Prop where
  head_flags : (d.desc c.head).flags &&& VRING_DESC_F_NEXT ≠ 0
  head_next : (d.desc c.head).next = c.data
  data_flags : (d.desc c.data).flags &&& VRING_DESC_F_NEXT ≠ 0
  data_next : (d.desc c.data).next = c.status
  data_addr : (d.desc c.data).addr = .data b
  status_flags : (d.desc c.status).flags &&& VRING_DESC_F_NEXT = 0
  status_addr : (d.desc c.status).addr = .status c.head

variable {c : Chain} {d' : Disk B} {b : B}

/-- A chain stays formatted if its descriptors do. -/
theorem Formatted.congr (h : Formatted d b c) (hdesc : ∀ i ∈ c.idx, d'.desc i = d.desc i) : Formatted d' b c := by
  have hhead := hdesc c.head c.head_mem
  have hdata := hdesc c.data c.data_mem
  have hstatus := hdesc c.status c.status_mem
  exact ⟨hhead ▸ h.head_flags, hhead ▸ h.head_next, hdata ▸ h.data_flags, hdata ▸ h.data_next,
    hdata ▸ h.data_addr, hstatus ▸ h.status_flags, hstatus ▸ h.status_addr⟩

variable {blockno : B → ℕ} {write : Bool}

/-- `format` leaves other descriptors alone. -/
theorem format_desc (hi : i ∉ c.idx) : (d.format blockno b write c).desc i = d.desc i := by
  rw [c.mem_idx, not_or, not_or] at hi
  obtain ⟨hhead, hdata, hstatus⟩ := hi
  change update (update (update d.desc c.head _) c.data _) c.status _ i = _
  rw [update_of_ne hstatus, update_of_ne hdata, update_of_ne hhead]

/-- `format` formats the chain. -/
theorem format_formatted (hc : c.idx.Nodup) : Formatted (d.format blockno b write c) b c := by
  obtain ⟨hdata, hhead, hstatus⟩ := c.nodup_idx.1 hc
  have hheadEq : (d.format blockno b write c).desc c.head = ⟨.ops c.head, 16, VRING_DESC_F_NEXT, c.data⟩ := by
    change update (update (update d.desc c.head _) c.data _) c.status _ c.head = _
    rw [update_of_ne hhead, update_of_ne hdata, update_self]
  have hdataEq : (d.format blockno b write c).desc c.data =
      ⟨.data b, BSIZE, (if write then 0 else VRING_DESC_F_WRITE) ||| VRING_DESC_F_NEXT, c.status⟩ := by
    change update (update (update d.desc c.head _) c.data _) c.status _ c.data = _
    rw [update_of_ne hstatus, update_self]
  have hstatusEq : (d.format blockno b write c).desc c.status =
      ⟨.status c.head, 1, VRING_DESC_F_WRITE, 0⟩ := update_self ..
  have hflags : ((if write then 0 else VRING_DESC_F_WRITE) ||| VRING_DESC_F_NEXT) &&& VRING_DESC_F_NEXT ≠ 0 := by
    cases write <;> decide
  constructor
  · rw [hheadEq]
    exact (by decide : VRING_DESC_F_NEXT &&& VRING_DESC_F_NEXT ≠ 0)
  · rw [hheadEq]
  · rw [hdataEq]
    exact hflags
  · rw [hdataEq]
  · rw [hdataEq]
  · rw [hstatusEq]
    exact (by decide : VRING_DESC_F_WRITE &&& VRING_DESC_F_NEXT = 0)
  · rw [hstatusEq]

/-- One round of the loop of `free_chain`. -/
theorem freeChain_succ {fuel : ℕ} (hi : i < NUM) (hfree : d.free i = false) :
    d.freeChain (fuel + 1) i =
      if (d.desc i).flags &&& VRING_DESC_F_NEXT ≠ 0 then (d.wipe [i]).freeChain fuel (d.desc i).next
      else .ok (d.wipe [i]) := by
  rw [freeChain, freeDesc_eq hi hfree, wipe, overwrite_singleton, overwrite_singleton]
  rfl

theorem wipe_wipe (idx idx' : List ℕ) : (d.wipe idx).wipe idx' = d.wipe (idx ++ idx') := by
  rw [wipe, wipe, wipe, overwrite_overwrite, overwrite_overwrite]

/-- The chain of a request is freed without a panic. -/
theorem freeChain_eq (hc : c.idx.Nodup) (hidx : ∀ i ∈ c.idx, i < NUM ∧ d.free i = false)
    (h : Formatted d b c) : d.freeChain (NUM + 1) c.head = .ok (d.wipe c.idx) := by
  obtain ⟨hdata, hhead, hstatus⟩ := c.nodup_idx.1 hc
  obtain ⟨hheadLt, hheadFree⟩ := hidx c.head c.head_mem
  obtain ⟨hdataLt, hdataFree⟩ := hidx c.data c.data_mem
  obtain ⟨hstatusLt, hstatusFree⟩ := hidx c.status c.status_mem
  have hdataOut : c.data ∉ [c.head] := fun hmem => hdata (mem_singleton.1 hmem).symm
  have hstatusOut : c.status ∉ [c.head, c.data] := by
    rw [mem_cons, mem_singleton, not_or]
    exact ⟨hhead.symm, hstatus.symm⟩
  rw [freeChain_succ hheadLt hheadFree, if_pos h.head_flags, h.head_next]
  have hdataDesc : (d.wipe [c.head]).desc c.data = d.desc c.data := overwrite_of_notMem hdataOut
  have hdataMark : (d.wipe [c.head]).free c.data = false := (overwrite_of_notMem hdataOut).trans hdataFree
  rw [freeChain_succ hdataLt hdataMark, hdataDesc, if_pos h.data_flags, h.data_next, wipe_wipe]
  have hstatusDesc : (d.wipe [c.head, c.data]).desc c.status = d.desc c.status := overwrite_of_notMem hstatusOut
  have hstatusMark : (d.wipe [c.head, c.data]).free c.status = false :=
    (overwrite_of_notMem hstatusOut).trans hstatusFree
  change (d.wipe [c.head, c.data]).freeChain _ _ = _
  rw [freeChain_succ hstatusLt hstatusMark, hstatusDesc, if_neg (not_not.2 h.status_flags), wipe_wipe]
  rfl

/-- The device finds the buffer of a request. -/
theorem Formatted.dataDesc_addr (h : Formatted d b c) : (d.dataDesc c.head).addr = .data b := by
  rw [dataDesc, h.head_next, h.data_addr]

/-- The device writes the status of a request. -/
theorem Formatted.complete_info (h : Formatted d b c) :
    (d.complete c.head).info = update d.info c.head { d.info c.head with status := 0 } := by
  have haddr : (d.statusDesc c.head).addr = .status c.head := by
    rw [statusDesc, dataDesc, h.head_next, h.data_next, h.status_addr]
  rw [complete, haddr]

/-- The device does not change which buffer is noted. -/
theorem complete_buf (d : Disk B) (head i : ℕ) : ((d.complete head).info i).b = (d.info i).b := by
  rw [complete]
  cases (d.statusDesc head).addr with
  | null | ops | data => rfl
  | status j =>
    change (update d.info j _ i).b = _
    by_cases hi : i = j
    · rw [hi, update_self]
    · rw [update_of_ne hi]

/-- What `alloc3_desc` can do: it marks three descriptors, or leaves those that are in use alone. -/
inductive Alloc3 (d : Disk B) : Except String (Option (List ℕ) × Disk B) → Prop
  | found {idx : List ℕ} (hlen : idx.length = 3) (hnodup : idx.Nodup)
      (hidx : ∀ i ∈ idx, i < NUM ∧ d.free i = true) : Alloc3 d (.ok (some idx, d.mark idx))
  | none {idx : List ℕ} (hidx : ∀ i ∈ idx, d.free i = true) :
      Alloc3 d (.ok (none, (d.mark idx).wipe idx))

/-- A descriptor that `alloc_desc` finds is free. -/
theorem allocDesc_some (h : d.allocDesc = some (i, d')) :
    i < NUM ∧ d.free i = true ∧ d' = { d with free := update d.free i false } := by
  obtain ⟨j, hj, heq⟩ := Option.map_eq_some_iff.1 h
  obtain ⟨rfl, rfl⟩ := Prod.mk.inj heq
  exact ⟨mem_range.1 (mem_of_find?_eq_some hj), List.find?_some hj, rfl⟩

/-- The loop goes on from descriptors that it has marked. -/
theorem allocMore_spec {n : ℕ} (hlen : n + idx.length = 3) (hnodup : idx.Nodup)
    (hidx : ∀ i ∈ idx, i < NUM ∧ d.free i = true) : Alloc3 d ((d.mark idx).allocMore n idx) := by
  induction n generalizing idx with
  | zero => exact .found (by omega) hnodup hidx
  | succ n ih =>
    rw [allocMore]
    cases hnext : (d.mark idx).allocDesc with
    | none =>
      have hfree : (d.mark idx).freeAll idx = .ok ((d.mark idx).wipe idx) :=
        freeAll_eq hnodup fun i hi => ⟨(hidx i hi).1, overwrite_of_mem hi⟩
      change Alloc3 d ((d.mark idx).freeAll idx >>= fun d' => .ok (none, d'))
      rw [hfree]
      exact .none fun i hi => (hidx i hi).2
    | some found =>
      obtain ⟨i, d'⟩ := found
      obtain ⟨hlt, hfree, rfl⟩ := allocDesc_some hnext
      have hnew : i ∉ idx := by
        intro hi
        have hmark : (d.mark idx).free i = false := overwrite_of_mem hi
        rw [hmark] at hfree
        exact Bool.false_ne_true hfree
      have hwas : d.free i = true := (overwrite_of_notMem hnew).symm.trans hfree
      have hmark : { d.mark idx with free := update (d.mark idx).free i false } =
          d.mark (idx ++ [i]) := by
        change { d with free := update (overwrite d.free idx false) i false } = _
        rw [← overwrite_singleton, overwrite_overwrite]
        rfl
      change Alloc3 d (allocMore _ n (idx ++ [i]))
      rw [hmark]
      apply ih
      · rw [length_append, length_singleton]
        omega
      · exact List.Nodup.append hnodup (nodup_singleton i) (disjoint_singleton.2 hnew)
      · intro j hj
        rw [mem_append, mem_singleton] at hj
        cases hj with
        | inl hj => exact hidx j hj
        | inr hj => exact hj ▸ ⟨hlt, hwas⟩

/-- What `alloc3_desc` does. -/
theorem alloc3Desc_spec (d : Disk B) : Alloc3 d d.alloc3Desc := by
  have hstart : d.mark [] = d := by rw [mark, overwrite_nil]
  have hloop := allocMore_spec (d := d) (n := 3) rfl nodup_nil fun i hi => absurd hi not_mem_nil
  rw [hstart] at hloop
  exact hloop

/-- Descriptors that were found were free, and are marked. -/
theorem alloc3Desc_some (h : d.alloc3Desc = .ok (some idx, d')) :
    idx.Nodup ∧ (∀ i ∈ idx, i < NUM ∧ d.free i = true) ∧ d' = d.mark idx := by
  have hspec := d.alloc3Desc_spec
  rw [h] at hspec
  cases hspec with
  | found hlen hnodup hidx => exact ⟨hnodup, hidx, rfl⟩

/-- If there were not enough, those that were found are free again. -/
theorem alloc3Desc_none (h : d.alloc3Desc = .ok (none, d')) :
    ∃ idx, (∀ i ∈ idx, d.free i = true) ∧ d' = (d.mark idx).wipe idx := by
  have hspec := d.alloc3Desc_spec
  rw [h] at hspec
  cases hspec with
  | @none idx hidx => exact ⟨idx, hidx, rfl⟩

/-- `alloc3_desc` does not panic. -/
theorem alloc3Desc_ne_error {msg : String} : d.alloc3Desc ≠ .error msg := by
  intro h
  have hspec := d.alloc3Desc_spec
  rw [h] at hspec
  cases hspec

end Disk

end Xv6.Virtio
