import Xv6.Library.Allotment
import Xv6.Virtio.Descriptors

/-!
# Requests

A request has three descriptors of its own from `alloc3_desc` to `free_chain`, and its buffer is the one that
the driver has noted for the head of the chain. A process inside `virtio_disk_rw` holds the sleep-lock of its
buffer, and holds the lock of the driver unless it sleeps.
-/

namespace Xv6.Virtio

open Function Library Point

variable {P B : Type*}

/-- How far a request has gone on its way to the device: the head of its chain is to be put into the ring,
is there but not announced, or is announced and the process waits for the end of the request. -/
inductive Phase (B : Type*)
  | idle
  | sent (b : B) (c : Chain)
  | stored (b : B) (c : Chain)
  | waiting (b : B) (c : Chain)

/-- The request. -/
def Phase.request : Phase B → Option (B × Chain)
  | .idle => none
  | .sent b c | .stored b c | .waiting b c => some (b, c)

namespace Point

/-- The buffer of the call. -/
def buf : Point B → Option B
  | .out => none
  | .enter b _ | .alloc b _ | .full b _ | .format b _ _ | .store b _ | .announce b _ | .wait b _
  | .asleep b _ | .done b _ | .free b _ | .leave b => some b

/-- The descriptors of the request. -/
def chain : Point B → Option Chain
  | .out | .enter .. | .alloc .. | .full .. | .leave .. => none
  | .format _ _ c | .store _ c | .announce _ c | .wait _ c | .asleep _ c | .done _ c | .free _ c => some c

/-- Does the process hold the lock here? -/
def locked : Point B → Bool
  | .out | .enter .. | .full .. | .asleep .. => false
  | .alloc .. | .format .. | .store .. | .announce .. | .wait .. | .done .. | .free .. | .leave .. => true

/-- The request, while its descriptors are formatted. -/
def formatted : Point B → Option (B × Chain)
  | .store b c | .announce b c | .wait b c | .asleep b c | .done b c | .free b c => some (b, c)
  | _ => none

/-- The request, while its buffer is recorded. -/
def recorded : Point B → Option (B × Chain)
  | .store b c | .announce b c | .wait b c | .asleep b c | .done b c => some (b, c)
  | _ => none

/-- How far the request has gone. -/
def phase : Point B → Phase B
  | .store b c => .sent b c
  | .announce b c => .stored b c
  | .wait b c | .asleep b c => .waiting b c
  | _ => .idle

/-- The numbers of the descriptors of the request. -/
def descs (point : Point B) : List ℕ := (point.chain.map Chain.idx).getD []

variable {point : Point B} {b : B} {c : Chain}

theorem descs_of_chain (h : point.chain = some c) : point.descs = c.idx := by
  rw [descs, h]
  rfl

theorem descs_of_none (h : point.chain = none) : point.descs = [] := by
  rw [descs, h]
  rfl

theorem chain_of_formatted (h : point.formatted = some (b, c)) : point.chain = some c := by
  cases point with
  | out | enter | alloc | full | format | leave => cases h
  | store | announce | wait | asleep | done | free => exact congrArg (Option.map Prod.snd) h

theorem formatted_of_recorded (h : point.recorded = some (b, c)) : point.formatted = some (b, c) := by
  cases point with
  | out | enter | alloc | full | format | free | leave => cases h
  | store | announce | wait | asleep | done => exact h

section

variable (h : point.phase.request = some (b, c))

include h

theorem recorded_of_phase : point.recorded = some (b, c) := by
  cases point with
  | out | enter | alloc | full | format | done | free | leave => cases h
  | store | announce | wait | asleep => exact h

theorem chain_of_phase : point.chain = some c := chain_of_formatted (formatted_of_recorded (recorded_of_phase h))

theorem buf_of_phase : point.buf = some b := by
  cases point with
  | out | enter | alloc | full | format | done | free | leave => cases h
  | store | announce | wait | asleep => exact congrArg (Option.map Prod.fst) h

end

theorem locked_of_stored (h : point.phase = .stored b c) : point.locked = true := by
  cases point with
  | out | enter | alloc | full | format | store | wait | asleep | done | free | leave => cases h
  | announce => rfl

end Point

variable [DecidableEq P]

/-- A view of the points does not change if it does not change at the point of one process. -/
theorem update_view {α : Type*} (view : Point B → α) {pc : P → Point B} {p : P} {point : Point B}
    (h : view point = view (pc p)) (q : P) : view (update pc p point q) = view (pc q) := by
  by_cases hq : q = p
  · rw [hq, update_self, h]
  · rw [update_of_ne hq]

/-- Buffers and the lock have one holder. -/
structure Exclusive (s : System P B) : Prop where
  owner : ∀ p b, (s.pc p).buf = some b → s.sleeplock b = some p
  lock : ∀ p, (s.pc p).locked = true → s.lock = .proc p

/-- Each request has its own descriptors, and its buffer is noted. -/
structure Chains (s : System P B) : Prop where
  allotted : Allotted (fun p => (s.pc p).descs) fun i => i < NUM ∧ s.disk.free i = false
  formatted : ∀ p b c, (s.pc p).formatted = some (b, c) → s.disk.Formatted b c
  recorded : ∀ p b c, (s.pc p).recorded = some (b, c) → (s.disk.info c.head).b = some b

variable {blockno : B → ℕ} {l : Event P B}

namespace Exclusive

variable {s t : System P B} {p q : P} {point : Point B}

section

variable (h : Exclusive s)

include h

omit [DecidableEq P] in
/-- Only one process is inside. -/
theorem unique (hp : (s.pc p).locked = true) (hq : (s.pc q).locked = true) : p = q := by
  have hlock := (h.lock p hp).symm.trans (h.lock q hq)
  exact Owner.proc.inj hlock

omit [DecidableEq P] in
/-- Processes have different buffers. -/
theorem buf_inj {b : B} (hp : (s.pc p).buf = some b) (hq : (s.pc q).buf = some b) : p = q := by
  have howner := (h.owner p b hp).symm.trans (h.owner q b hq)
  exact Option.some.inj howner

/-- A process goes on with a buffer that it holds and what it has of the lock. -/
theorem goto (hbuf : ∀ b, point.buf = some b → s.sleeplock b = some p)
    (hlocked : point.locked = true → (s.pc p).locked = true) (hpc : t.pc = update s.pc p point)
    (hsleep : t.sleeplock = s.sleeplock) (hlock : t.lock = s.lock) : Exclusive t where
  owner := by
    rw [hpc, hsleep]
    exact (forall_update_iff s.pc fun q k => ∀ b, k.buf = some b → s.sleeplock b = some q).2
      ⟨hbuf, fun q _ => h.owner q⟩
  lock := by
    rw [hpc, hlock]
    exact (forall_update_iff s.pc fun q k => k.locked = true → s.lock = .proc q).2
      ⟨fun hq => h.lock p (hlocked hq), fun q _ => h.lock q⟩

/-- A process takes the lock. -/
theorem acquire (hfree : s.lock = .nobody) (hbuf : point.buf = (s.pc p).buf) (hpc : t.pc = update s.pc p point)
    (hsleep : t.sleeplock = s.sleeplock) (hlock : t.lock = .proc p) : Exclusive t where
  owner q b hb := by
    rw [hpc, update_view buf hbuf] at hb
    rw [hsleep]
    exact h.owner q b hb
  lock q hq := by
    by_cases heq : q = p
    · rw [hlock, heq]
    · rw [hpc, update_of_ne heq] at hq
      have hheld := h.lock q hq
      rw [hfree] at hheld
      cases hheld

/-- A process gives the lock back. -/
theorem release (hp : (s.pc p).locked = true) (hpoint : point.locked = false)
    (hbuf : point.buf = none ∨ point.buf = (s.pc p).buf) (hpc : t.pc = update s.pc p point)
    (hsleep : t.sleeplock = s.sleeplock) : Exclusive t where
  owner q b hb := by
    rw [hsleep]
    by_cases heq : q = p
    · rw [hpc, heq, update_self] at hb
      rw [heq]
      cases hbuf with
      | inl hnone =>
        rw [hnone] at hb
        cases hb
      | inr hsame => exact h.owner p b (hsame ▸ hb)
    · rw [hpc, update_of_ne heq] at hb
      exact h.owner q b hb
  lock q hq := by
    by_cases heq : q = p
    · rw [hpc, heq, update_self, hpoint] at hq
      cases hq
    · rw [hpc, update_of_ne heq] at hq
      exact absurd (h.unique hq hp) heq

omit [DecidableEq P] in
/-- Nobody moves, and the lock is not with a process. -/
theorem still (hpc : t.pc = s.pc) (hsleep : t.sleeplock = s.sleeplock)
    (hlock : t.lock = s.lock ∨ ∀ p, s.lock ≠ .proc p) : Exclusive t where
  owner q b hb := by
    rw [hsleep]
    exact h.owner q b (hpc ▸ hb)
  lock q hq := by
    have hheld := h.lock q (hpc ▸ hq)
    cases hlock with
    | inl hsame => exact hsame.trans hheld
    | inr hnone => exact absurd hheld (hnone q)

/-- Every step keeps buffers and the lock with one holder. -/
theorem step [DecidableEq B] (hstep : Step blockno s l t) : Exclusive t := by
  cases hstep with
  | hold hpc hfree =>
    refine ⟨fun q b hb => ?_, h.lock⟩
    have hheld := h.owner q b hb
    have hne : b ≠ _ := fun heq => by
      rw [heq, hfree] at hheld
      cases hheld
    exact (update_of_ne hne ..).trans hheld
  | drop hpc hheld =>
    refine ⟨fun q b hb => ?_, h.lock⟩
    have hown := h.owner q b hb
    have hne : b ≠ _ := fun heq => by
      rw [heq, hheld] at hown
      cases hown
      rw [hpc] at hb
      cases hb
    exact (update_of_ne hne ..).trans hown
  | call hpc hheld =>
    refine h.goto (fun b hb => ?_) (fun hlocked => ?_) rfl rfl rfl
    · cases hb
      exact hheld
    · cases hlocked
  | enter hpc hlock | retry hpc hlock | wake hpc hlock =>
    exact h.acquire hlock (by rw [hpc]; rfl) rfl rfl rfl
  | alloc hpc | format hpc | store hpc | announce hpc | done hpc | clearInfo hpc | free hpc =>
    exact h.goto (fun b hb => h.owner _ b (by rw [hpc]; exact hb)) (by rw [hpc]; exact fun _ => rfl) rfl rfl rfl
  | full hpc | sleep hpc => exact h.release (by rw [hpc]; rfl) rfl (by rw [hpc]; exact .inr rfl) rfl rfl
  | leave hpc => exact h.release (by rw [hpc]; rfl) rfl (.inl rfl) rfl rfl
  | intr hlock => exact h.still rfl rfl (.inr fun p hp => by rw [hlock] at hp; cases hp)
  | ret hlock => exact h.still rfl rfl (.inr fun p hp => by rw [hlock] at hp; cases hp)
  | allocPanic | freePanic | used | usedPanic | take | complete => exact h.still rfl rfl (.inl rfl)

end

end Exclusive

namespace Chains

variable {s t : System P B} {p q : P} {point : Point B} {b : B} {c : Chain} {i : ℕ}

section

omit [DecidableEq P]

theorem nodup (h : Chains s) (hc : (s.pc p).chain = some c) : c.idx.Nodup := by
  have hnodup := h.allotted.nodup p
  change (s.pc p).descs.Nodup at hnodup
  rw [descs_of_chain hc] at hnodup
  exact hnodup

theorem mem_descs (hc : (s.pc p).chain = some c) (hi : i ∈ c.idx) : i ∈ (s.pc p).descs := by
  rw [descs_of_chain hc]
  exact hi

theorem inUse (h : Chains s) (hc : (s.pc p).chain = some c) (hi : i ∈ c.idx) : i < NUM ∧ s.disk.free i = false :=
  h.allotted.inUse p i (mem_descs hc hi)

/-- A descriptor belongs to one process. -/
theorem apart (h : Chains s) {c' : Chain} (hc : (s.pc p).chain = some c) (hi : i ∈ c.idx)
    (hc' : (s.pc q).chain = some c') (hi' : i ∈ c'.idx) : p = q :=
  h.allotted.apart p q i (mem_descs hc hi) (mem_descs hc' hi')

/-- The chain of a request that has ended is freed without a panic. -/
theorem freeChain_eq (h : Chains s) (hpc : s.pc p = .free b c) :
    s.disk.freeChain (NUM + 1) c.head = .ok (s.disk.wipe c.idx) := by
  have hchain : (s.pc p).chain = some c := congrArg Point.chain hpc
  have hformatted : (s.pc p).formatted = some (b, c) := congrArg Point.formatted hpc
  exact Disk.freeChain_eq (h.nodup hchain) (fun i hi => h.inUse hchain hi) (h.formatted p b c hformatted)

/-- Nobody moves, and the disk keeps what the requests need. -/
theorem still (h : Chains s) (hpc : t.pc = s.pc) (hfree : t.disk.free = s.disk.free)
    (hdesc : t.disk.desc = s.disk.desc) (hinfo : ∀ i, (t.disk.info i).b = (s.disk.info i).b) : Chains t where
  allotted := by
    rw [hpc, hfree]
    exact h.allotted
  formatted p b c hp := by
    rw [hpc] at hp
    exact (h.formatted p b c hp).congr fun i _ => congrFun hdesc i
  recorded p b c hp := by
    rw [hpc] at hp
    rw [hinfo]
    exact h.recorded p b c hp

end

section

variable (h : Chains s) (hpc : t.pc = update s.pc p point)

include h hpc

/-- One process moves, and the disk keeps what the requests of the others need. -/
theorem move
    (hallotted : Allotted (update (fun q => (s.pc q).descs) p point.descs)
      fun i => i < NUM ∧ t.disk.free i = false)
    (hformatted : ∀ b c, point.formatted = some (b, c) → t.disk.Formatted b c)
    (hrecorded : ∀ b c, point.recorded = some (b, c) → (t.disk.info c.head).b = some b)
    (hothers : ∀ q, q ≠ p → ∀ i ∈ (s.pc q).descs,
      t.disk.desc i = s.disk.desc i ∧ (t.disk.info i).b = (s.disk.info i).b) : Chains t where
  allotted := by
    have hdescs : (fun q => (t.pc q).descs) = update (fun q => (s.pc q).descs) p point.descs := by
      funext q
      rw [hpc]
      exact Function.apply_update (fun _ => descs) s.pc p point q
    rw [hdescs]
    exact hallotted
  formatted := by
    rw [hpc]
    refine (forall_update_iff s.pc fun q k => ∀ b c, k.formatted = some (b, c) → t.disk.Formatted b c).2
      ⟨hformatted, fun q heq b c hq => ?_⟩
    have hc := chain_of_formatted hq
    exact (h.formatted q b c hq).congr fun i hi => (hothers q heq i (mem_descs hc hi)).1
  recorded := by
    rw [hpc]
    refine (forall_update_iff s.pc fun q k => ∀ b c, k.recorded = some (b, c) → (t.disk.info c.head).b = some b).2
      ⟨hrecorded, fun q heq b c hq => ?_⟩
    have hc := chain_of_formatted (formatted_of_recorded hq)
    rw [(hothers q heq c.head (mem_descs hc c.head_mem)).2]
    exact h.recorded q b c hq

/-- A process goes on with its descriptors. -/
theorem goto (hdescs : point.descs = (s.pc p).descs)
    (hfree : t.disk.free = s.disk.free)
    (hformatted : ∀ b c, point.formatted = some (b, c) → t.disk.Formatted b c)
    (hrecorded : ∀ b c, point.recorded = some (b, c) → (t.disk.info c.head).b = some b)
    (hothers : ∀ q, q ≠ p → ∀ i ∈ (s.pc q).descs,
      t.disk.desc i = s.disk.desc i ∧ (t.disk.info i).b = (s.disk.info i).b) : Chains t := by
  apply h.move hpc _ hformatted hrecorded hothers
  rw [hdescs, update_eq_self, hfree]
  exact h.allotted

/-- A process goes on, and the disk stays as it is. -/
theorem pass (hdescs : point.descs = (s.pc p).descs)
    (hformatted : point.formatted = none ∨ point.formatted = (s.pc p).formatted)
    (hrecorded : point.recorded = none ∨ point.recorded = (s.pc p).recorded) (hfree : t.disk.free = s.disk.free)
    (hdesc : t.disk.desc = s.disk.desc) (hinfo : t.disk.info = s.disk.info) : Chains t := by
  apply h.goto hpc hdescs hfree
  · intro b c hb
    cases hformatted with
    | inl hnone =>
      rw [hnone] at hb
      cases hb
    | inr hsame => exact (h.formatted p b c (hsame ▸ hb)).congr fun i _ => congrFun hdesc i
  · intro b c hb
    cases hrecorded with
    | inl hnone =>
      rw [hnone] at hb
      cases hb
    | inr hsame =>
      rw [hinfo]
      exact h.recorded p b c (hsame ▸ hb)
  · intro q _ i _
    rw [hdesc, hinfo]
    exact ⟨rfl, rfl⟩

end

variable [DecidableEq B] {idx : List ℕ}

omit [DecidableEq B] in
/-- A process gets descriptors that are free. -/
theorem alloc (h : Chains s) (hp : (s.pc p).chain = none) (hpc : t.pc = update s.pc p point)
    (hdescs : point.descs = idx) (hnodup : idx.Nodup) (hidx : ∀ i ∈ idx, i < NUM ∧ s.disk.free i = true)
    (hformatted : point.formatted = none) (hrecorded : point.recorded = none) (hdisk : t.disk = s.disk.mark idx) :
    Chains t := by
  apply h.move hpc
  · rw [hdescs]
    apply (h.allotted.give (descs_of_none hp) hnodup fun i hi hused => ?_).congr
    · intro i
      rw [hdisk]
      change i < NUM ∧ overwrite s.disk.free idx false i = false ↔ _
      by_cases hi : i ∈ idx
      · rw [overwrite_of_mem hi]
        exact ⟨fun _ => .inr hi, fun _ => ⟨(hidx i hi).1, rfl⟩⟩
      · rw [overwrite_of_notMem hi, or_iff_left hi]
    · rw [(hidx i hi).2] at hused
      exact Bool.false_ne_true hused.2.symm
  · intro b c hb
    rw [hformatted] at hb
    cases hb
  · intro b c hb
    rw [hrecorded] at hb
    cases hb
  · intro q _ i _
    rw [hdisk]
    exact ⟨rfl, rfl⟩

omit [DecidableEq B] in
/-- Descriptors that could not be used are free as before. -/
theorem full (h : Chains s) (hp : (s.pc p).chain = none) (hpc : t.pc = update s.pc p point)
    (hpoint : point.chain = none) (hidx : ∀ i ∈ idx, s.disk.free i = true) (hformatted : point.formatted = none)
    (hrecorded : point.recorded = none) (hdisk : t.disk = (s.disk.mark idx).wipe idx) : Chains t := by
  have hfree : t.disk.free = s.disk.free := by
    funext i
    rw [hdisk]
    change overwrite (overwrite s.disk.free idx false) idx true i = _
    by_cases hi : i ∈ idx
    · rw [overwrite_of_mem hi, hidx i hi]
    · rw [overwrite_of_notMem hi, overwrite_of_notMem hi]
  apply h.goto hpc _ hfree
  · intro b c hb
    rw [hformatted] at hb
    cases hb
  · intro b c hb
    rw [hrecorded] at hb
    cases hb
  · intro q _ i hi
    have hused := h.allotted.inUse q i hi
    have hnot : i ∉ idx := by
      intro hmem
      rw [hidx i hmem] at hused
      exact Bool.false_ne_true hused.2.symm
    rw [hdisk]
    exact ⟨overwrite_of_notMem hnot, rfl⟩
  · rw [descs_of_none hpoint, descs_of_none hp]

/-- Every step keeps the requests apart. -/
theorem step (h : Chains s) (hstep : Step blockno s l t) : Chains t := by
  cases hstep with
  | hold | drop | allocPanic | freePanic | intr | used | usedPanic | ret | take =>
    exact h.still rfl rfl rfl fun _ => rfl
  | call hpc | enter hpc | retry hpc | leave hpc =>
    exact h.pass rfl (by rw [hpc]; rfl) (.inl rfl) (.inl rfl) rfl rfl rfl
  | store hpc | announce hpc | sleep hpc | wake hpc | done hpc =>
    exact h.pass rfl (by rw [hpc]; rfl) (.inr (by rw [hpc]; rfl)) (.inr (by rw [hpc]; rfl)) rfl rfl rfl
  | @alloc p b write d head data status hpc halloc =>
    obtain ⟨hnodup, hidx, hdisk⟩ := Disk.alloc3Desc_some halloc
    exact h.alloc (by rw [hpc]; rfl) rfl rfl hnodup hidx rfl rfl hdisk
  | @full p b write d hpc halloc =>
    obtain ⟨idx, hidx, hdisk⟩ := Disk.alloc3Desc_none halloc
    exact h.full (by rw [hpc]; rfl) rfl rfl hidx rfl rfl hdisk
  | @format p b write c hpc =>
    have hc : (s.pc p).chain = some c := by rw [hpc]; rfl
    refine h.goto rfl (by rw [hpc]; rfl) rfl ?_ ?_ ?_
    · intro b' c' hb
      cases hb
      exact Disk.format_formatted (h.nodup hc)
    · intro b' c' hb
      cases hb
      exact congrArg Info.b (update_self c.head _ s.disk.info)
    · intro q hq i hi
      have hnot : i ∉ c.idx := fun hmem => hq (h.allotted.apart q p i hi (mem_descs hc hmem))
      have hne : i ≠ c.head := fun heq => hnot (heq ▸ c.head_mem)
      exact ⟨Disk.format_desc hnot, congrArg Info.b (update_of_ne hne ..)⟩
  | @clearInfo p b c hpc =>
    have hc : (s.pc p).chain = some c := by rw [hpc]; rfl
    refine h.goto rfl (by rw [hpc]; rfl) rfl ?_ ?_ ?_
    · intro b' c' hb
      cases hb
      exact (h.formatted p b c (by rw [hpc]; rfl)).congr fun _ _ => rfl
    · intro b' c' hb
      cases hb
    · intro q hq i hi
      have hne : i ≠ c.head := fun heq =>
        hq (h.allotted.apart q p i hi (mem_descs hc (heq ▸ c.head_mem)))
      exact ⟨rfl, congrArg Info.b (update_of_ne hne ..)⟩
  | @free p b c d hpc hfree =>
    have hc : (s.pc p).chain = some c := by rw [hpc]; rfl
    rw [h.freeChain_eq hpc] at hfree
    cases hfree
    refine h.move rfl ?_ ?_ ?_ ?_
    · apply h.allotted.back.congr
      intro i
      change i < NUM ∧ overwrite s.disk.free c.idx true i = false ↔ _ ∧ i ∉ (s.pc p).descs
      rw [descs_of_chain hc]
      by_cases hi : i ∈ c.idx
      · rw [overwrite_of_mem hi]
        exact ⟨fun hfalse => absurd hfalse.2.symm Bool.false_ne_true, fun hnot => absurd hi hnot.2⟩
      · rw [overwrite_of_notMem hi, and_iff_left hi]
    · intro b' c' hb
      cases hb
    · intro b' c' hb
      cases hb
    · intro q hq i hi
      have hnot : i ∉ c.idx := fun hmem => hq (h.allotted.apart q p i hi (mem_descs hc hmem))
      exact ⟨overwrite_of_notMem hnot, rfl⟩
  | complete hbusy =>
    exact h.still rfl rfl rfl fun i => Disk.complete_buf s.disk _ i

end Chains

end Xv6.Virtio
