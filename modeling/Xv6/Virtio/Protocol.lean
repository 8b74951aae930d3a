import Xv6.Library.Runs
import Xv6.Virtio.Queues

/-!
# The protocol of the virtio disk

Every run of the driver, its processes, the handler and the device keeps the requests apart and the rings in
order: nothing panics, and each end of a request is seen once, by the request that it belongs to.
-/

namespace Xv6.Virtio

open Function Library List

variable {P B : Type*}

/-- A chain that the device has completed in a step. -/
def Event.completed : Event P B → Option (ℕ × Addr B)
  | .complete head data => some (head, data)
  | _ => none

/-- A flag that the handler has cleared in a step, for the chain with that head. -/
def Event.cleared : Event P B → Option (ℕ × Addr B)
  | .clear id b => some (id, .data b)
  | _ => none

/-- The chains that the device has completed, in order. -/
def completes (labels : List (Event P B)) : List (ℕ × Addr B) := labels.filterMap Event.completed

/-- The flags that the handler has cleared, in order. -/
def clears (labels : List (Event P B)) : List (ℕ × Addr B) := labels.filterMap Event.cleared

/-- The slots of the ring of available chains that the device has not consumed. -/
def unconsumed (s : System P B) : List ℕ :=
  (List.range ((s.disk.avail.idx + UINT16 - s.device.idx) % UINT16)).map fun j => (s.device.idx + j) % NUM

/-- A completed chain as the device has seen it. -/
def Traffic.end (x : ℕ × B) : ℕ × Addr B := (x.1, .data x.2)

/-- The invariant of the system, with the events that have led to the state. -/
structure Inv [DecidableEq P] (labels : List (Event P B)) (s : System P B) (g : Traffic B) : Prop where
  exclusive : Exclusive s
  chains : Chains s
  queues : Queues s g
  completes : completes labels = g.completed.map Traffic.end
  clears : clears labels = (g.completed.take g.seen).map Traffic.end
  noPanic : s.panic = none

variable [DecidableEq P]

theorem inv_init : Inv [] (init P B) ⟨[], 0, [], 0⟩ where
  exclusive := ⟨fun _ _ => nofun, fun _ => nofun⟩
  chains := {
    allotted := {
      nodup := fun _ => nodup_nil
      inUse := fun _ _ hi => absurd hi not_mem_nil
      apart := fun _ _ _ hi => absurd hi not_mem_nil
      covered := fun _ hi => nomatch hi.2 }
    formatted := fun _ _ _ => nofun
    recorded := fun _ _ _ => nofun }
  queues := {
    rings := ⟨Ring.nil .., rfl, rfl, Ring.nil .., rfl, rfl⟩
    nodup := nodup_nil
    active := fun _ => ⟨fun hmem => absurd hmem not_mem_nil, fun ⟨_, _, _, hphase, _⟩ => nomatch hphase⟩
    ended := fun _ _ hmem => absurd hmem not_mem_nil
    flagged := fun _ _ _ hphase => hphase.elim nofun nofun
    stored := fun _ _ _ => nofun }
  completes := rfl
  clears := rfl
  noPanic := rfl

namespace Inv

variable [DecidableEq B] {blockno : B → ℕ} {labels : List (Event P B)} {s t : System P B} {g : Traffic B}
  {l : Event P B}

/-- What a step does to the traffic that the device has completed. -/
inductive Change (s : System P B) (g : Traffic B) : Event P B → Traffic B → Prop
  | none {l : Event P B} {g' : Traffic B} (hcompleted : l.completed = none) (hcleared : l.cleared = none)
      (hsame : g'.completed = g.completed) (hseen : g'.seen = g.seen) : Change s g l g'
  | complete {head : ℕ} {b : B} (haddr : (s.disk.dataDesc head).addr = .data b) :
      Change s g (.complete head (.data b)) { g with completed := g.completed ++ [(head, b)] }
  | clear (hlt : g.seen < g.completed.length) :
      Change s g (.clear (g.completed[g.seen]).1 (g.completed[g.seen]).2) { g with seen := g.seen + 1 }

section

variable (h : Inv labels s g) (hstep : Step blockno s l t)

include h hstep

/-- Every step keeps the traffic that of the requests. -/
theorem queues_step : ∃ g', Queues t g' ∧ Change s g l g' := by
  have hx := h.exclusive
  have hc := h.chains
  have hq := h.queues
  cases hstep with
  | hold | drop | allocPanic | freePanic | intr | usedPanic | ret =>
    exact ⟨g, hq.still rfl rfl rfl rfl rfl rfl fun _ => rfl, .none rfl rfl rfl rfl⟩
  | call hpc | enter hpc | retry hpc | sleep hpc | wake hpc | leave hpc =>
    exact ⟨g, hq.pass rfl (by rw [hpc]; rfl) rfl rfl rfl rfl rfl rfl, .none rfl rfl rfl rfl⟩
  | alloc hpc halloc =>
    obtain ⟨-, -, rfl⟩ := Disk.alloc3Desc_some halloc
    exact ⟨g, hq.pass rfl (by rw [hpc]; rfl) rfl rfl rfl rfl rfl rfl, .none rfl rfl rfl rfl⟩
  | full hpc halloc =>
    obtain ⟨idx, -, rfl⟩ := Disk.alloc3Desc_none halloc
    exact ⟨g, hq.pass rfl (by rw [hpc]; rfl) rfl rfl rfl rfl rfl rfl, .none rfl rfl rfl rfl⟩
  | format hpc => exact ⟨g, hq.format hx hc hpc rfl rfl rfl rfl, .none rfl rfl rfl rfl⟩
  | store hpc => exact ⟨g, hq.store hx hc hpc rfl rfl rfl rfl, .none rfl rfl rfl rfl⟩
  | announce hpc => exact ⟨_, hq.announce hx hc hpc rfl rfl rfl rfl, .none rfl rfl rfl rfl⟩
  | done hpc hflag => exact ⟨g, hq.done hpc hflag rfl rfl rfl rfl, .none rfl rfl rfl rfl⟩
  | clearInfo hpc => exact ⟨g, hq.clearInfo hc hpc rfl rfl rfl rfl, .none rfl rfl rfl rfl⟩
  | free hpc hfree =>
    rw [hc.freeChain_eq hpc] at hfree
    cases hfree
    exact ⟨g, hq.pass rfl (by rw [hpc]; rfl) rfl rfl rfl rfl rfl rfl, .none rfl rfl rfl rfl⟩
  | used hlock hidx hbuf =>
    have hlt := hq.rings.seen_lt_iff.1 hidx
    rw [hq.usedBuf_eq hlt] at hbuf
    cases hbuf
    rw [hq.rings.next_used hlt]
    exact ⟨_, hq.see hx hc hlt, .clear hlt⟩
  | take hidx => exact ⟨_, hq.take hidx, .none rfl rfl rfl rfl⟩
  | complete hbusy =>
    obtain ⟨b, haddr, hcomplete⟩ := hq.complete hc hbusy
    rw [haddr]
    exact ⟨_, hcomplete, .complete haddr⟩

/-- No step panics. -/
theorem noPanic_step : t.panic = none := by
  cases hstep with
  | allocPanic hpc halloc => exact absurd halloc Disk.alloc3Desc_ne_error
  | freePanic hpc hfree =>
    rw [h.chains.freeChain_eq hpc] at hfree
    cases hfree
  | usedPanic hlock hidx hbuf =>
    rw [h.queues.usedBuf_eq (h.queues.rings.seen_lt_iff.1 hidx)] at hbuf
    cases hbuf
  | hold | drop | call | enter | alloc | full | retry | format | store | announce | sleep | wake | done
  | clearInfo | free | leave | intr | used | ret | take | complete => exact h.noPanic

/-- Every step keeps the invariant. -/
theorem step : ∃ g', Inv (labels ++ [l]) t g' := by
  obtain ⟨g', hqueues, hchange⟩ := h.queues_step hstep
  refine ⟨g', h.exclusive.step hstep, h.chains.step hstep, hqueues, ?_, ?_, h.noPanic_step hstep⟩
  · rw [Virtio.completes, filterMap_append, ← Virtio.completes, h.completes]
    cases hchange with
    | none hcompleted hcleared hsame hseen =>
      rw [filterMap_cons_none hcompleted, hsame]
      exact append_nil _
    | complete haddr =>
      change _ = (g.completed ++ _).map _
      rw [map_append]
      rfl
    | clear hlt => exact append_nil _
  · rw [Virtio.clears, filterMap_append, ← Virtio.clears, h.clears]
    cases hchange with
    | none hcompleted hcleared hsame hseen =>
      rw [filterMap_cons_none hcleared, hsame, hseen]
      exact append_nil _
    | complete haddr =>
      have hle := h.queues.rings.used.taken_le
      rw [length_map] at hle
      rw [take_append_of_le_length hle]
      exact append_nil _
    | clear hlt =>
      change _ = (g.completed.take (g.seen + 1)).map _
      rw [take_succ_eq_append_getElem hlt, map_append]
      rfl

end

omit [DecidableEq B] in
/-- The slots that the device has not consumed are those of the heads on their way to it. -/
theorem mem_unconsumed (h : Inv labels s g) {k : ℕ} (hk : k ∈ unconsumed s) :
    ∃ i, g.consumed ≤ i ∧ i < g.posted.length ∧ k = i % NUM := by
  obtain ⟨j, hj, rfl⟩ := mem_map.1 hk
  have hrings := h.queues.rings
  rw [mem_range, hrings.availIdx, hrings.deviceIdx,
    counter_sub hrings.avail.taken_le hrings.avail.room (by decide)] at hj
  refine ⟨g.consumed + j, Nat.le_add_right .., by omega, ?_⟩
  rw [hrings.deviceIdx, Nat.add_mod, Rings.mod_NUM, ← Nat.add_mod]

/-- No step overwrites an entry that the device has not consumed. -/
theorem ring_step (h : Inv labels s g) (hstep : Step blockno s l t) {k : ℕ} (hk : k ∈ unconsumed s) :
    t.disk.avail.ring k = s.disk.avail.ring k := by
  cases hstep with
  | store hpc =>
    have hroom : g.posted.length < g.consumed + NUM := by
      apply h.queues.room h.chains (congrArg Point.chain hpc)
      rw [hpc]
      exact fun b c => nofun
    obtain ⟨i, hle, hlt, rfl⟩ := h.mem_unconsumed hk
    have hne : i % NUM ≠ s.disk.avail.idx % NUM := by
      rw [h.queues.rings.avail_index]
      exact Ring.mod_ne hlt (by omega)
    exact update_of_ne hne ..
  | alloc hpc halloc =>
    obtain ⟨-, -, rfl⟩ := Disk.alloc3Desc_some halloc
    rfl
  | full hpc halloc =>
    obtain ⟨idx, -, rfl⟩ := Disk.alloc3Desc_none halloc
    rfl
  | free hpc hfree =>
    rw [h.chains.freeChain_eq hpc] at hfree
    cases hfree
    rfl
  | hold | drop | call | enter | retry | format | announce | sleep | wake | done | clearInfo | leave | intr
  | used | ret | take | complete | allocPanic | freePanic | usedPanic => rfl

/-- Only the handler clears a flag. -/
theorem clear_of_flag {b : B} (hstep : Step blockno s l t) (hset : s.flag b = true) (hclear : t.flag b = false) :
    ∃ id, l = .clear id b := by
  cases hstep with
  | @format p b' write c hpc =>
    change update s.flag b' true b = false at hclear
    by_cases heq : b = b'
    · rw [heq, update_self] at hclear
      cases hclear
    · rw [update_of_ne heq, hset] at hclear
      cases hclear
  | @used b' hlock hidx hbuf =>
    change update s.flag b' false b = false at hclear
    by_cases heq : b = b'
    · exact ⟨_, by rw [heq]⟩
    · rw [update_of_ne heq, hset] at hclear
      cases hclear
  | hold | drop | call | enter | alloc | full | retry | store | announce | sleep | wake | done | clearInfo
  | free | leave | intr | ret | take | complete | allocPanic | freePanic | usedPanic =>
    exact absurd (hset.symm.trans hclear) (by decide)

end Inv

/-- Every state that is reached satisfies the invariant. -/
theorem reachable_inv [DecidableEq B] {blockno : B → ℕ} {labels : List (Event P B)} {s : System P B}
    (hrun : Run (Step blockno) (init P B) labels s) : ∃ g, Inv labels s g := by
  apply hrun.history (fun labels s => ∃ g, Inv labels s g) ⟨_, inv_init⟩
  rintro labels s l t ⟨g, hinv⟩ hstep
  exact hinv.step hstep

/-- What holds after a run with these events. -/
structure Protocol [DecidableEq B] (blockno : B → ℕ) (labels : List (Event P B)) (s : System P B) : Prop where
  /-- The descriptors of a request are distinct and not free. -/
  distinct : ∀ p c, (s.pc p).chain = some c → c.idx.Nodup ∧ ∀ i ∈ c.idx, i < NUM ∧ s.disk.free i = false
  /-- Requests have no descriptor in common. -/
  disjoint : ∀ p q c c', p ≠ q → (s.pc p).chain = some c → (s.pc q).chain = some c' → c.idx.Disjoint c'.idx
  /-- The buffer of a request is noted until the request has ended. -/
  recorded : ∀ p b c, (s.pc p).recorded = some (b, c) → (s.disk.info c.head).b = some b
  /-- An entry of the ring stays until the device has consumed it, also if it is not announced yet. -/
  ring : ∀ l t, Step blockno s l t → ∀ k ∈ unconsumed s, t.disk.avail.ring k = s.disk.avail.ring k
  announced : ∀ p b c, s.pc p = .announce b c → s.disk.avail.ring (s.disk.avail.idx % NUM) = c.head
  /-- The device completes a request that waits with its flag set. -/
  completion : ∀ head data t, Step blockno s (.complete head data) t →
    ∃ p b c, (s.pc p).phase = .waiting b c ∧ c.head = head ∧ data = .data b ∧ s.flag b = true
  /-- The handler clears the flag of such a request, and no other one. -/
  clearing : ∀ id b t, Step blockno s (.clear id b) t →
    (∃ p c, (s.pc p).phase = .waiting b c ∧ c.head = id) ∧ s.flag b = true ∧
      t.flag = Function.update s.flag b false
  cleared : ∀ l t b, Step blockno s l t → s.flag b = true → t.flag b = false → ∃ id, l = .clear id b
  /-- The flags that were cleared are those of the completed requests, once each and in their order, and all
  of them when the handler has caught up. -/
  once : clears labels <+: completes labels
  caughtUp : s.disk.usedIdx = s.disk.used.idx → clears labels = completes labels
  noPanic : s.panic = none
  /-- Without requests, all descriptors are free. -/
  idle : (∀ p, (s.pc p).chain = none) → ∀ i < NUM, s.disk.free i = true

/-- In every interleaving of processes, handler and device, requests own their descriptors from their
allocation to their end, the rings lose nothing, and every completion ends its request once. -/
theorem request_protocol [DecidableEq B] {blockno : B → ℕ} {labels : List (Event P B)} {s : System P B}
    (hrun : Run (Step blockno) (init P B) labels s) : Protocol blockno labels s := by
  obtain ⟨g, hinv⟩ := reachable_inv hrun
  have hc := hinv.chains
  have hq := hinv.queues
  constructor
  · exact fun p c hchain => ⟨hc.nodup hchain, fun i hi => hc.inUse hchain hi⟩
  · intro p q c c' hne hchain hchain' i hi hi'
    exact hne (hc.apart hchain hi hchain' hi')
  · exact hc.recorded
  · exact fun l t hstep k hk => hinv.ring_step hstep hk
  · exact fun p b c hpc => hq.stored p b c (by rw [hpc]; rfl)
  · intro head data t hstep
    cases hstep with
    | complete hbusy =>
      have hmem : head ∈ pending s g := mem_append_left _ (mem_append_right _ hbusy)
      obtain ⟨p, b, c, hphase, rfl, hflag⟩ := (hq.active head).1 hmem
      have hrecorded : (s.pc p).recorded = some (b, c) := Point.recorded_of_phase (by rw [hphase]; rfl)
      have hformatted := hc.formatted p b c (Point.formatted_of_recorded hrecorded)
      exact ⟨p, b, c, hphase, rfl, hformatted.dataDesc_addr, hflag⟩
  · intro id b t hstep
    cases hstep with
    | used hlock hidx hbuf =>
      have hlt := hq.rings.seen_lt_iff.1 hidx
      rw [hq.usedBuf_eq hlt] at hbuf
      cases hbuf
      have hmem : g.completed[g.seen] ∈ g.completed.drop g.seen := by
        rw [drop_eq_getElem_cons hlt]
        exact mem_cons_self
      obtain ⟨p, c, hphase, hhead, hflag⟩ := hq.request_of_ended hc hmem
      exact ⟨⟨p, c, hphase, hhead.trans (hq.rings.next_used hlt).symm⟩, hflag, rfl⟩
  · exact fun l t b hstep hset hclear => Inv.clear_of_flag hstep hset hclear
  · rw [hinv.clears, hinv.completes]
    exact (List.take_prefix g.seen g.completed).map Traffic.end
  · intro hidx
    have hle : g.completed.length ≤ g.seen := by
      by_contra hlt
      exact hq.rings.seen_lt_iff.2 (Nat.lt_of_not_le hlt) hidx
    rw [hinv.clears, hinv.completes, take_of_length_le hle]
  · exact hinv.noPanic
  · intro hnone i hi
    have hunused := hc.allotted.not_used (fun p => Point.descs_of_none (hnone p)) i
    rw [not_and] at hunused
    exact Bool.eq_true_of_not_eq_false (hunused hi)

/-- The first request gets the first three descriptors. -/
theorem request_protocol_first : ∃ (labels : List (Event Unit Unit)) (s : System Unit Unit),
    Run (Step fun _ => 1) (init Unit Unit) labels s ∧ s.pc () = .wait () ⟨0, 1, 2⟩ ∧
      Protocol (fun _ => 1) labels s := by
  have henter := ((Run.nil : Run (Step fun _ => 1) (init Unit Unit) [] _).snoc
    (.hold (p := ()) (b := ()) rfl rfl)).snoc (@Step.call _ _ _ _ _ _ () () false rfl rfl)
  have hformat := ((henter.snoc (@Step.enter _ _ _ _ _ _ () () false rfl rfl)).snoc
    (@Step.alloc _ _ _ _ _ _ () () false _ 0 1 2 rfl rfl)).snoc
    (@Step.format _ _ _ _ _ _ () () false ⟨0, 1, 2⟩ rfl)
  have hwait := (hformat.snoc (.store (p := ()) (b := ()) (c := ⟨0, 1, 2⟩) rfl)).snoc
    (.announce (p := ()) (b := ()) (c := ⟨0, 1, 2⟩) rfl)
  exact ⟨_, _, hwait, rfl, request_protocol hwait⟩

end Xv6.Virtio
