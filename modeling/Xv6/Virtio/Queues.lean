import Mathlib.Data.List.Perm.Subperm
import Xv6.Library.Ring
import Xv6.Virtio.Requests

/-!
# The rings of the virtio disk

The driver posts the heads of chains into the ring of available chains, the device consumes them, completes
them into the ring of used chains, and the handler sees them there. The heads that are on their way are those
of the requests which wait with their flag set, each of them once, so that neither ring has more entries in
use than there are descriptors and no entry is overwritten too early.
-/

namespace Xv6.Virtio

open Function Library List Point Prod
open scoped List

variable {P B : Type*}

/-- What has gone through the rings: the heads that were posted, with the number of those that the device has
consumed, and the heads that it has completed, with their buffers and the number of those that the handler
has seen. -/
structure Traffic (B : Type*) where
  posted : List ℕ
  consumed : ℕ
  completed : List (ℕ × B)
  seen : ℕ

/-- A request waits with its flag set. -/
def Active (s : System P B) (head : ℕ) : Prop :=
  ∃ p b c, (s.pc p).phase = .waiting b c ∧ c.head = head ∧ s.flag b = true

/-- The heads that are on their way. -/
def pending (s : System P B) (g : Traffic B) : List ℕ :=
  g.posted.drop g.consumed ++ s.device.busy ++ (g.completed.drop g.seen).map fst

/-- The rings hold the traffic. -/
structure Rings (s : System P B) (g : Traffic B) : Prop where
  avail : Ring NUM s.disk.avail.ring g.posted g.consumed
  availIdx : s.disk.avail.idx = g.posted.length % UINT16
  deviceIdx : s.device.idx = g.consumed % UINT16
  used : Ring NUM s.disk.used.ring (g.completed.map fst) g.seen
  usedIdx : s.disk.used.idx = g.completed.length % UINT16
  seenIdx : s.disk.usedIdx = g.seen % UINT16

/-- The traffic is that of the requests. -/
structure Queues (s : System P B) (g : Traffic B) : Prop where
  rings : Rings s g
  nodup : (pending s g).Nodup
  active : ∀ head, head ∈ pending s g ↔ Active s head
  ended : ∀ head b, (head, b) ∈ g.completed.drop g.seen →
    (s.disk.info head).status = 0 ∧ (s.disk.info head).b = some b
  flagged : ∀ p b c, (s.pc p).phase = .sent b c ∨ (s.pc p).phase = .stored b c → s.flag b = true
  stored : ∀ p b c, (s.pc p).phase = .stored b c → s.disk.avail.ring (s.disk.avail.idx % NUM) = c.head

/-- There are at most `n` different numbers below `n`. -/
theorem length_le_of_lt {l : List ℕ} {n : ℕ} (hnodup : l.Nodup) (hlt : ∀ i ∈ l, i < n) : l.length ≤ n := by
  have hsub : l ⊆ List.range n := fun i hi => mem_range.2 (hlt i hi)
  have hle := (hnodup.subperm hsub).length_le
  rw [length_range] at hle
  exact hle

section

variable {s t : System P B} {g : Traffic B} {p q : P} {c : Chain} {b : B} {head : ℕ}

/-- The head of a request that waits is a descriptor. -/
theorem Active.lt (hc : Chains s) (h : Active s head) : head < NUM := by
  obtain ⟨p, b, c, hphase, rfl, -⟩ := h
  have hchain : (s.pc p).chain = some c := chain_of_phase (by rw [hphase]; rfl)
  exact (hc.inUse hchain c.head_mem).1

/-- The descriptors of a process that does not wait are not those of one that does. -/
theorem not_active (hc : Chains s) (hchain : (s.pc p).chain = some c)
    (hphase : ∀ b c, (s.pc p).phase ≠ .waiting b c) : ¬ Active s c.head := by
  rintro ⟨q, b, c', hq, hhead, -⟩
  have hchain' : (s.pc q).chain = some c' := chain_of_phase (by rw [hq]; rfl)
  have heq : q = p := hc.apart hchain' (hhead ▸ c'.head_mem) hchain c.head_mem
  exact hphase b c' (heq ▸ hq)

namespace Rings

/-- Indices modulo the size of the rings. -/
theorem mod_NUM (n : ℕ) : n % UINT16 % NUM = n % NUM := Nat.mod_mod_of_dvd n (by decide)

section

variable (h : Rings s g)

include h

theorem avail_index : s.disk.avail.idx % NUM = g.posted.length % NUM := by
  rw [h.availIdx, mod_NUM]

/-- There is something for the device exactly if the indices differ. -/
theorem consumed_lt (hidx : s.device.idx ≠ s.disk.avail.idx) : g.consumed < g.posted.length := by
  rw [h.availIdx, h.deviceIdx] at hidx
  apply lt_of_le_of_ne h.avail.taken_le
  intro heq
  rw [heq] at hidx
  exact hidx rfl

/-- There is something for the handler exactly if the indices differ. -/
theorem seen_lt_iff : s.disk.usedIdx ≠ s.disk.used.idx ↔ g.seen < g.completed.length := by
  have hle := h.used.taken_le
  have hroom := h.used.room
  rw [length_map] at hle hroom
  rw [h.seenIdx, h.usedIdx, Ne, counter_eq_iff hle hroom (by decide : NUM < UINT16)]
  omega

/-- What the device finds next. -/
theorem next_avail (hlt : g.consumed < g.posted.length) :
    s.disk.avail.ring (s.device.idx % NUM) = g.posted[g.consumed] := by
  rw [h.deviceIdx, mod_NUM]
  exact h.avail.cells g.consumed hlt le_rfl

/-- What the handler finds next. -/
theorem next_used (hlt : g.seen < g.completed.length) :
    s.disk.used.ring (s.disk.usedIdx % NUM) = (g.completed[g.seen]).1 := by
  have hlt' : g.seen < (g.completed.map fst).length := by rw [length_map]; exact hlt
  rw [h.seenIdx, mod_NUM, h.used.cells g.seen hlt' le_rfl, getElem_map]

/-- The rings depend only on what the driver and the device share. -/
theorem congr (havail : t.disk.avail = s.disk.avail) (hused : t.disk.used = s.disk.used)
    (hseen : t.disk.usedIdx = s.disk.usedIdx) (hdevice : t.device = s.device) : Rings t g where
  avail := havail ▸ h.avail
  availIdx := havail ▸ h.availIdx
  deviceIdx := hdevice ▸ h.deviceIdx
  used := hused ▸ h.used
  usedIdx := hused ▸ h.usedIdx
  seenIdx := hseen ▸ h.seenIdx

end

end Rings

namespace Queues

theorem pending_length (h : Queues s g) (hc : Chains s) : (pending s g).length ≤ NUM :=
  length_le_of_lt h.nodup fun head hhead => ((h.active head).1 hhead).lt hc

theorem length_pending : (pending s g).length =
    (g.posted.length - g.consumed) + s.device.busy.length + (g.completed.length - g.seen) := by
  rw [pending, length_append, length_append, length_drop, length_map, length_drop]

/-- There is room for the head of a request that is not on its way. -/
theorem room (h : Queues s g) (hc : Chains s) (hchain : (s.pc p).chain = some c)
    (hphase : ∀ b c, (s.pc p).phase ≠ .waiting b c) : g.posted.length < g.consumed + NUM := by
  have hnot : c.head ∉ pending s g := fun hmem => not_active hc hchain hphase ((h.active c.head).1 hmem)
  have hle : (c.head :: pending s g).length ≤ NUM := by
    apply length_le_of_lt (nodup_cons.2 ⟨hnot, h.nodup⟩)
    intro head hhead
    cases mem_cons.1 hhead with
    | inl heq => exact heq ▸ (hc.inUse hchain c.head_mem).1
    | inr hmem => exact ((h.active head).1 hmem).lt hc
  have hlength := length_pending (s := s) (g := g)
  rw [length_cons] at hle
  omega

/-- The head of a chain that was completed but not seen is on its way. -/
theorem ended_pending (hmem : (head, b) ∈ g.completed.drop g.seen) : head ∈ pending s g :=
  mem_append_right _ (mem_map.2 ⟨(head, b), hmem, rfl⟩)

/-- The traffic is as before if the same requests wait for it. -/
theorem keep (h : Queues s g) (hrings : Rings t g) (hdevice : t.device = s.device)
    (hring : t.disk.avail = s.disk.avail)
    (hinfo : ∀ head, Active s head → t.disk.info head = s.disk.info head)
    (hwaiting : ∀ q b c, (t.pc q).phase = .waiting b c ∧ t.flag b = true ↔
      (s.pc q).phase = .waiting b c ∧ s.flag b = true)
    (hflagged : ∀ q b c, (t.pc q).phase = .sent b c ∨ (t.pc q).phase = .stored b c → t.flag b = true)
    (hstored : ∀ q b c, (t.pc q).phase = .stored b c → (s.pc q).phase = .stored b c) : Queues t g := by
  have hpending : pending t g = pending s g := by rw [pending, pending, hdevice]
  refine ⟨hrings, hpending ▸ h.nodup, fun head => ?_, fun head b hmem => ?_, hflagged, fun q b c hq => ?_⟩
  · rw [hpending, h.active head]
    refine exists_congr fun q => exists_congr fun b => exists_congr fun c => ?_
    rw [and_left_comm, ← hwaiting q b c, and_left_comm]
  · rw [hinfo head ((h.active head).1 (ended_pending hmem))]
    exact h.ended head b hmem
  · rw [hring]
    exact h.stored q b c (hstored q b c hq)

/-- Nobody changes its phase. -/
theorem still (h : Queues s g) (havail : t.disk.avail = s.disk.avail) (hused : t.disk.used = s.disk.used)
    (hseen : t.disk.usedIdx = s.disk.usedIdx) (hinfo : t.disk.info = s.disk.info) (hdevice : t.device = s.device)
    (hflag : t.flag = s.flag) (hphase : ∀ q, (t.pc q).phase = (s.pc q).phase) : Queues t g := by
  apply h.keep (h.rings.congr havail hused hseen hdevice) hdevice havail fun head _ => congrFun hinfo head
  · intro q b c
    rw [hphase, hflag]
  · intro q b c hq
    rw [hphase] at hq
    rw [hflag]
    exact h.flagged q b c hq
  · intro q b c hq
    rw [← hphase]
    exact hq

section Steps

variable [DecidableEq P] {blockno : B → ℕ} {write : Bool} {point : Point B}

theorem phase_self (hpc : t.pc = update s.pc p point) : (t.pc p).phase = point.phase := by
  rw [hpc, update_self]

theorem phase_ne (hpc : t.pc = update s.pc p point) (hne : q ≠ p) : (t.pc q).phase = (s.pc q).phase := by
  rw [hpc, update_of_ne hne]

/-- A process goes on in its phase. -/
theorem pass (h : Queues s g) (hpc : t.pc = update s.pc p point) (hphase : point.phase = (s.pc p).phase)
    (havail : t.disk.avail = s.disk.avail) (hused : t.disk.used = s.disk.used)
    (hseen : t.disk.usedIdx = s.disk.usedIdx) (hinfo : t.disk.info = s.disk.info) (hdevice : t.device = s.device)
    (hflag : t.flag = s.flag) : Queues t g := by
  apply h.still havail hused hseen hinfo hdevice hflag
  intro q
  rw [hpc]
  exact update_view phase hphase q

/-- A request whose flag is clear has left the rings. -/
theorem done (h : Queues s g) (hp : s.pc p = .wait b c) (hclear : s.flag b = false)
    (hpc : t.pc = update s.pc p (.done b c)) (hdisk : t.disk = s.disk) (hdevice : t.device = s.device)
    (hflag : t.flag = s.flag) : Queues t g := by
  refine h.keep (h.rings.congr (by rw [hdisk]) (by rw [hdisk]) (by rw [hdisk]) hdevice) hdevice (by rw [hdisk])
    (fun _ _ => by rw [hdisk]) (fun q b' c' => ?_) (fun q b' c' hq => ?_) fun q b' c' hq => ?_
  all_goals by_cases heq : q = p
  · subst heq
    rw [phase_self hpc, hp, hflag]
    constructor
    · rintro ⟨hidle, -⟩
      cases hidle
    · rintro ⟨hwait, hset⟩
      cases hwait
      exact absurd (hclear.symm.trans hset) Bool.false_ne_true
  · rw [phase_ne hpc heq, hflag]
  · rw [heq, phase_self hpc] at hq
    exact hq.elim nofun nofun
  · rw [phase_ne hpc heq] at hq
    rw [hflag]
    exact h.flagged q b' c' hq
  · rw [heq, phase_self hpc] at hq
    cases hq
  · rw [phase_ne hpc heq] at hq
    exact hq

/-- The buffer of a request that has ended is noted no longer. -/
theorem clearInfo (h : Queues s g) (hc : Chains s) (hp : s.pc p = .done b c)
    (hpc : t.pc = update s.pc p (.free b c)) (hdisk : t.disk = s.disk.clearInfo c.head)
    (hdevice : t.device = s.device) (hflag : t.flag = s.flag) : Queues t g := by
  have hphase : ∀ q, (t.pc q).phase = (s.pc q).phase := by
    intro q
    rw [hpc]
    exact update_view phase (by rw [hp]; rfl) q
  have hidle : ¬ Active s c.head := by
    apply not_active hc (by rw [hp]; rfl)
    rw [hp]
    exact fun b c => nofun
  refine h.keep (h.rings.congr (by rw [hdisk]; rfl) (by rw [hdisk]; rfl) (by rw [hdisk]; rfl) hdevice) hdevice
    (by rw [hdisk]; rfl) (fun head hactive => ?_) (fun q b' c' => ?_) (fun q b' c' hq => ?_) fun q b' c' hq => ?_
  · have hne : head ≠ c.head := fun heq => hidle (heq ▸ hactive)
    rw [hdisk]
    exact update_of_ne hne ..
  · rw [hphase, hflag]
  · rw [hphase] at hq
    rw [hflag]
    exact h.flagged q b' c' hq
  · rw [← hphase]
    exact hq

variable [DecidableEq B]

section

variable (h : Queues s g)

include h

/-- A request is formatted. -/
theorem format (hx : Exclusive s) (hc : Chains s) (hp : s.pc p = .format b write c)
    (hpc : t.pc = update s.pc p (.store b c)) (hdisk : t.disk = s.disk.format blockno b write c)
    (hdevice : t.device = s.device) (hflag : t.flag = update s.flag b true) : Queues t g := by
  have hbuf : (s.pc p).buf = some b := by rw [hp]; rfl
  have hother : ∀ q b' c', q ≠ p → (s.pc q).phase.request = some (b', c') → t.flag b' = s.flag b' := by
    intro q b' c' hne hq
    rw [hflag]
    apply update_of_ne
    intro heq
    subst heq
    exact hne (hx.buf_inj (buf_of_phase hq) hbuf)
  have hidle : ¬ Active s c.head := by
    apply not_active hc (by rw [hp]; rfl)
    rw [hp]
    exact fun b c => nofun
  refine h.keep (h.rings.congr (by rw [hdisk]; rfl) (by rw [hdisk]; rfl) (by rw [hdisk]; rfl) hdevice) hdevice
    (by rw [hdisk]; rfl) (fun head hactive => ?_) (fun q b' c' => ?_) (fun q b' c' hq => ?_) fun q b' c' hq => ?_
  · have hne : head ≠ c.head := fun heq => hidle (heq ▸ hactive)
    rw [hdisk]
    exact update_of_ne hne ..
  all_goals by_cases heq : q = p
  · subst heq
    rw [phase_self hpc, hp]
    exact ⟨fun hwait => (nomatch hwait.1), fun hwait => (nomatch hwait.1)⟩
  · rw [phase_ne hpc heq]
    refine and_congr_right fun hq => ?_
    rw [hother q b' c' heq (by rw [hq]; rfl)]
  · rw [heq, phase_self hpc] at hq
    rw [hflag]
    cases hq with
    | inl hsent =>
      cases hsent
      exact update_self ..
    | inr hstored => cases hstored
  · rw [phase_ne hpc heq] at hq
    rw [hother q b' c' heq (hq.elim (fun hsent => by rw [hsent]; rfl) fun hstored => by rw [hstored]; rfl)]
    exact h.flagged q b' c' hq
  · rw [heq, phase_self hpc] at hq
    cases hq
  · rw [phase_ne hpc heq] at hq
    exact hq

omit [DecidableEq B]

/-- The head of a request is put into the ring, where it replaces nothing that is on its way. -/
theorem store (hx : Exclusive s) (hc : Chains s) (hp : s.pc p = .store b c)
    (hpc : t.pc = update s.pc p (.announce b c))
    (hdisk : t.disk = { s.disk with avail := s.disk.avail.store c.head }) (hdevice : t.device = s.device)
    (hflag : t.flag = s.flag) : Queues t g := by
  have hring : t.disk.avail.ring = update s.disk.avail.ring (s.disk.avail.idx % NUM) c.head := by
    rw [hdisk]
    rfl
  have hroom : g.posted.length < g.consumed + NUM := by
    apply h.room hc (by rw [hp]; rfl)
    rw [hp]
    exact fun b c => nofun
  have hpending : pending t g = pending s g := by rw [pending, pending, hdevice]
  have hwaiting : ∀ q b' c', (t.pc q).phase = .waiting b' c' ↔ (s.pc q).phase = .waiting b' c' := by
    intro q b' c'
    by_cases heq : q = p
    · rw [heq, phase_self hpc, hp]
      exact ⟨nofun, nofun⟩
    · rw [phase_ne hpc heq]
  refine ⟨?_, hpending ▸ h.nodup, fun head => ?_, ?_, fun q b' c' hq => ?_, fun q b' c' hq => ?_⟩
  · constructor
    · rw [hring, h.rings.avail_index]
      exact h.rings.avail.stage hroom c.head
    · rw [hdisk]
      exact h.rings.availIdx
    · rw [hdevice]
      exact h.rings.deviceIdx
    · rw [hdisk]
      exact h.rings.used
    · rw [hdisk]
      exact h.rings.usedIdx
    · rw [hdisk]
      exact h.rings.seenIdx
  · rw [hpending, h.active head, Active, Active, hflag]
    simp only [hwaiting]
  · rw [hdisk]
    exact h.ended
  · rw [hflag]
    by_cases heq : q = p
    · rw [heq, phase_self hpc] at hq
      apply h.flagged p b' c'
      rw [hp]
      exact .inl (by cases hq with
        | inl hsent => cases hsent
        | inr hstored =>
          cases hstored
          rfl)
    · rw [phase_ne hpc heq] at hq
      exact h.flagged q b' c' hq
  · have hidx : t.disk.avail.idx = s.disk.avail.idx := by
      rw [hdisk]
      rfl
    rw [hring, hidx, update_self]
    by_cases heq : q = p
    · rw [heq, phase_self hpc] at hq
      cases hq
      rfl
    · rw [phase_ne hpc heq] at hq
      have hlocked : (s.pc p).locked = true := by rw [hp]; rfl
      exact absurd (hx.unique (locked_of_stored hq) hlocked) heq

/-- The head is announced. -/
theorem announce (hx : Exclusive s) (hc : Chains s) (hp : s.pc p = .announce b c)
    (hpc : t.pc = update s.pc p (.wait b c))
    (hdisk : t.disk = { s.disk with avail := s.disk.avail.advance }) (hdevice : t.device = s.device)
    (hflag : t.flag = s.flag) : Queues t { g with posted := g.posted ++ [c.head] } := by
  have hnowait : ∀ b c, (s.pc p).phase ≠ .waiting b c := by
    rw [hp]
    exact fun b c => nofun
  have hchain : (s.pc p).chain = some c := by rw [hp]; rfl
  have hroom : g.posted.length < g.consumed + NUM := h.room hc hchain hnowait
  have hcell : s.disk.avail.ring (g.posted.length % NUM) = c.head := by
    rw [← h.rings.avail_index]
    exact h.stored p b c (by rw [hp]; rfl)
  have hset : s.flag b = true := h.flagged p b c (by rw [hp]; exact .inr rfl)
  have hpending : (pending t { g with posted := g.posted ++ [c.head] }).Perm (c.head :: pending s g) := by
    rw [pending, pending, hdevice, drop_append_of_le_length h.rings.avail.taken_le]
    simp only [append_assoc]
    exact perm_middle
  have hnot : c.head ∉ pending s g := fun hmem => not_active hc hchain hnowait ((h.active c.head).1 hmem)
  have hidle : ∀ q b' c', (t.pc q).phase = .stored b' c' → False := by
    intro q b' c' hq
    by_cases heq : q = p
    · rw [heq, phase_self hpc] at hq
      cases hq
    · rw [phase_ne hpc heq] at hq
      have hlocked : (s.pc p).locked = true := by rw [hp]; rfl
      exact heq (hx.unique (locked_of_stored hq) hlocked)
  refine ⟨?_, hpending.nodup_iff.2 (nodup_cons.2 ⟨hnot, h.nodup⟩), fun head => ?_, ?_,
    fun q b' c' hq => ?_, fun q b' c' hq => (hidle q b' c' hq).elim⟩
  · constructor
    · rw [hdisk]
      have hcommit := h.rings.avail.commit hroom
      rw [hcell] at hcommit
      exact hcommit
    · rw [hdisk]
      change (s.disk.avail.idx + 1) % UINT16 = (g.posted ++ [c.head]).length % UINT16
      rw [h.rings.availIdx, Nat.mod_add_mod, length_append, length_singleton]
    · rw [hdevice]
      exact h.rings.deviceIdx
    · rw [hdisk]
      exact h.rings.used
    · rw [hdisk]
      exact h.rings.usedIdx
    · rw [hdisk]
      exact h.rings.seenIdx
  · rw [hpending.mem_iff, mem_cons, h.active head]
    constructor
    · intro hhead
      cases hhead with
      | inl heq => exact ⟨p, b, c, phase_self hpc, heq.symm, by rw [hflag]; exact hset⟩
      | inr hactive =>
        obtain ⟨q, b', c', hq, hhead, hb⟩ := hactive
        have hne : q ≠ p := by
          rintro rfl
          exact hnowait b' c' hq
        exact ⟨q, b', c', (phase_ne hpc hne).trans hq, hhead, by rw [hflag]; exact hb⟩
    · rintro ⟨q, b', c', hq, hhead, hb⟩
      by_cases heq : q = p
      · rw [heq, phase_self hpc] at hq
        cases hq
        exact .inl hhead.symm
      · rw [phase_ne hpc heq] at hq
        exact .inr ⟨q, b', c', hq, hhead, by rw [← hflag]; exact hb⟩
  · rw [hdisk]
    exact h.ended
  · rw [hflag]
    by_cases heq : q = p
    · rw [heq, phase_self hpc] at hq
      exact hq.elim nofun nofun
    · rw [phase_ne hpc heq] at hq
      exact h.flagged q b' c' hq

omit [DecidableEq P] in
/-- The device consumes the next head. -/
theorem take (hidx : s.device.idx ≠ s.disk.avail.idx) : Queues { s with device := ⟨(s.device.idx + 1) % UINT16,
      s.device.busy ++ [s.disk.avail.ring (s.device.idx % NUM)]⟩ } { g with consumed := g.consumed + 1 } := by
  have hlt := h.rings.consumed_lt hidx
  rw [h.rings.next_avail hlt]
  have hpending : (g.posted.drop (g.consumed + 1) ++ (s.device.busy ++ [g.posted[g.consumed]]) ++
      (g.completed.drop g.seen).map fst).Perm (pending s g) := by
    rw [pending, drop_eq_getElem_cons hlt]
    apply perm_iff_count.2
    intro a
    simp only [count_append, count_cons, count_nil]
    omega
  refine ⟨?_, hpending.nodup_iff.2 h.nodup, fun head => (hpending.mem_iff).trans (h.active head), h.ended,
    h.flagged, h.stored⟩
  refine ⟨h.rings.avail.take hlt, h.rings.availIdx, ?_, h.rings.used, h.rings.usedIdx, h.rings.seenIdx⟩
  change (s.device.idx + 1) % UINT16 = (g.consumed + 1) % UINT16
  rw [h.rings.deviceIdx, Nat.mod_add_mod]

omit [DecidableEq P] in
/-- The device completes a chain. -/
theorem complete (hc : Chains s) (hbusy : head ∈ s.device.busy) :
    ∃ b, (s.disk.dataDesc head).addr = .data b ∧
      Queues { s with
        disk := s.disk.complete head
        device := { s.device with busy := s.device.busy.erase head } }
        { g with completed := g.completed ++ [(head, b)] } := by
  have hmem : head ∈ pending s g := mem_append_left _ (mem_append_right _ hbusy)
  obtain ⟨p, b, c, hphase, rfl, hflag⟩ := (h.active head).1 hmem
  have hrecorded : (s.pc p).recorded = some (b, c) := recorded_of_phase (by rw [hphase]; rfl)
  have hformatted := hc.formatted p b c (formatted_of_recorded hrecorded)
  have hroom : (g.completed.map fst).length < g.seen + NUM := by
    have hle := h.pending_length hc
    have hpos := length_pos_of_mem hbusy
    rw [length_pending] at hle
    rw [length_map]
    omega
  have hseen : g.seen ≤ g.completed.length := by
    have hle := h.rings.used.taken_le
    rw [length_map] at hle
    exact hle
  have hpending : (g.posted.drop g.consumed ++ s.device.busy.erase c.head ++
      ((g.completed ++ [(c.head, b)]).drop g.seen).map fst).Perm (pending s g) := by
    rw [pending, drop_append_of_le_length hseen, map_append, append_assoc, append_assoc]
    apply List.Perm.append_left
    calc s.device.busy.erase c.head ++ ((g.completed.drop g.seen).map fst ++ [c.head])
      _ ~ s.device.busy.erase c.head ++ ([c.head] ++ (g.completed.drop g.seen).map fst) :=
          List.Perm.append_left _ perm_append_comm
      _ ~ c.head :: s.device.busy.erase c.head ++ (g.completed.drop g.seen).map fst := perm_middle
      _ ~ s.device.busy ++ (g.completed.drop g.seen).map fst := (perm_cons_erase hbusy).symm.append_right _
  refine ⟨b, hformatted.dataDesc_addr, ?_, hpending.nodup_iff.2 h.nodup,
    fun head => (hpending.mem_iff).trans (h.active head), fun head b' hmem => ?_, h.flagged, h.stored⟩
  · refine ⟨h.rings.avail, h.rings.availIdx, h.rings.deviceIdx, ?_, ?_, h.rings.seenIdx⟩
    · have hput := h.rings.used.put hroom c.head
      rw [length_map, ← Rings.mod_NUM, ← h.rings.usedIdx] at hput
      rw [map_append]
      exact hput
    · change (s.disk.used.idx + 1) % UINT16 = (g.completed ++ [(c.head, b)]).length % UINT16
      rw [h.rings.usedIdx, Nat.mod_add_mod, length_append, length_singleton]
  · change ((s.disk.complete c.head).info head).status = 0 ∧ ((s.disk.complete c.head).info head).b = some b'
    rw [Disk.complete_buf, hformatted.complete_info]
    change (head, b') ∈ (g.completed ++ [(c.head, b)]).drop g.seen at hmem
    rw [drop_append_of_le_length hseen, mem_append, mem_singleton] at hmem
    by_cases heq : head = c.head
    · subst heq
      rw [update_self]
      cases hmem with
      | inl hold => exact ⟨rfl, (h.ended c.head b' hold).2⟩
      | inr hnew =>
        cases hnew
        exact ⟨rfl, hc.recorded p b c hrecorded⟩
    · rw [update_of_ne heq]
      cases hmem with
      | inl hold => exact h.ended head b' hold
      | inr hnew => exact absurd (congrArg fst hnew) heq

omit [DecidableEq P] in
/-- What the handler finds. -/
theorem usedBuf_eq (hlt : g.seen < g.completed.length) : s.disk.usedBuf = .ok (g.completed[g.seen]).2 := by
  have hmem : g.completed[g.seen] ∈ g.completed.drop g.seen := by
    rw [drop_eq_getElem_cons hlt]
    exact mem_cons_self
  obtain ⟨hstatus, hbuf⟩ := h.ended (g.completed[g.seen]).1 (g.completed[g.seen]).2 hmem
  rw [Disk.usedBuf, h.rings.next_used hlt, hstatus, hbuf]
  rfl

omit [DecidableEq P] in
/-- A request that was completed but not seen waits with its flag set. -/
theorem request_of_ended (hc : Chains s) (hmem : (head, b) ∈ g.completed.drop g.seen) :
    ∃ p c, (s.pc p).phase = .waiting b c ∧ c.head = head ∧ s.flag b = true := by
  obtain ⟨p, b', c, hphase, rfl, hflag⟩ := (h.active head).1 (ended_pending hmem)
  have hbuf := hc.recorded p b' c (recorded_of_phase (by rw [hphase]; rfl))
  have heq : b' = b := Option.some.inj (hbuf.symm.trans (h.ended _ _ hmem).2)
  subst heq
  exact ⟨p, c, hphase, rfl, hflag⟩

end

omit [DecidableEq P] in
/-- The handler sees the end of a request and clears its flag. -/
theorem see (h : Queues s g) (hx : Exclusive s) (hc : Chains s) (hlt : g.seen < g.completed.length) :
    Queues { s with
      flag := update s.flag (g.completed[g.seen]).2 false
      disk := { s.disk with usedIdx := (s.disk.usedIdx + 1) % UINT16 } } { g with seen := g.seen + 1 } := by
  have hdrop := drop_eq_getElem_cons hlt
  obtain ⟨⟨head, b⟩, hnext⟩ : ∃ x, g.completed[g.seen] = x := ⟨_, rfl⟩
  rw [hnext] at hdrop ⊢
  have hmem : (head, b) ∈ g.completed.drop g.seen := by
    rw [hdrop]
    exact mem_cons_self
  obtain ⟨p, c, hphase, rfl, hset⟩ := h.request_of_ended hc hmem
  have hpending : (pending s g).Perm (c.head :: (g.posted.drop g.consumed ++ s.device.busy ++
      (g.completed.drop (g.seen + 1)).map fst)) := by
    rw [pending, hdrop]
    exact perm_middle
  have hnodup := nodup_cons.1 (hpending.nodup_iff.1 h.nodup)
  have hother : ∀ q b' c', q ≠ p → (s.pc q).phase.request = some (b', c') → b' ≠ b := by
    intro q b' c' hne hq heq
    subst heq
    exact hne (hx.buf_inj (buf_of_phase hq) (buf_of_phase (by rw [hphase]; rfl)))
  refine ⟨?_, hnodup.2, fun i => ?_, fun i b' hmem => ?_, fun q b' c' hq => ?_, h.stored⟩
  · have hused : g.seen < (g.completed.map fst).length := by
      rw [length_map]
      exact hlt
    refine ⟨h.rings.avail, h.rings.availIdx, h.rings.deviceIdx, h.rings.used.take hused, h.rings.usedIdx, ?_⟩
    change (s.disk.usedIdx + 1) % UINT16 = (g.seen + 1) % UINT16
    rw [h.rings.seenIdx, Nat.mod_add_mod]
  · constructor
    · intro hi
      obtain ⟨q, b', c', hq, rfl, hb⟩ := (h.active i).1 (hpending.mem_iff.2 (mem_cons_of_mem _ hi))
      have hne : q ≠ p := by
        rintro rfl
        rw [hphase] at hq
        cases hq
        exact hnodup.1 hi
      refine ⟨q, b', c', hq, rfl, ?_⟩
      rw [← hb]
      exact update_of_ne (hother q b' c' hne (by rw [hq]; rfl)) ..
    · rintro ⟨q, b', c', hq, rfl, hb⟩
      have hne : b' ≠ b := by
        intro heq
        rw [heq] at hb
        exact absurd ((update_self ..).symm.trans hb) Bool.false_ne_true
      have hset' : s.flag b' = true := (update_of_ne hne ..).symm.trans hb
      have hi := hpending.mem_iff.1 ((h.active c'.head).2 ⟨q, b', c', hq, rfl, hset'⟩)
      cases mem_cons.1 hi with
      | inl heq =>
        -- Two requests with the same head are the same.
        have hchain' : (s.pc q).chain = some c' := chain_of_phase (by rw [hq]; rfl)
        have hchain : (s.pc p).chain = some c := chain_of_phase (by rw [hphase]; rfl)
        have hqp : q = p := hc.apart hchain' c'.head_mem hchain (heq ▸ c.head_mem)
        rw [hqp, hphase] at hq
        cases hq
        exact absurd rfl hne
      | inr hrest => exact hrest
  · have hold : (i, b') ∈ g.completed.drop g.seen := by
      rw [hdrop]
      exact mem_cons_of_mem _ hmem
    exact h.ended i b' hold
  · have hne : q ≠ p := by
      rintro rfl
      change (s.pc q).phase = _ ∨ (s.pc q).phase = _ at hq
      rw [hphase] at hq
      exact hq.elim nofun nofun
    have hrequest : (s.pc q).phase.request = some (b', c') :=
      hq.elim (fun hsent => by rw [hsent]; rfl) fun hstored => by rw [hstored]; rfl
    rw [← h.flagged q b' c' hq]
    exact update_of_ne (hother q b' c' hne hrequest) ..

end Steps

end Queues

end

end Xv6.Virtio
