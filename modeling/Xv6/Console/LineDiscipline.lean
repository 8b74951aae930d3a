import Mathlib.Data.List.Induction
import Xv6.Console.Code
import Xv6.Library.Ring
import Xv6.Library.Runs

/-!
# The line discipline of the console

The buffer of the console is a ring that holds the committed characters which no reader has taken and, behind
them, the line that is being edited. Erasing takes characters back from the end of this line only, so what has
been committed stays until it is read. The bytes that were copied to readers are the committed characters in
their order, but for control-D, which ends a read.
-/

namespace Xv6.Console

open Function Library List

/-- The buffer holds what was committed and not taken, and the line that is being edited. -/
structure Buffered (cons : Cons) (committed pending : List UInt8) (taken : ℕ) : Prop where
  ring : Ring INPUT_BUF_SIZE cons.buf (committed ++ pending) taken
  taken_le : taken ≤ committed.length
  r : cons.r = taken % UINT
  w : cons.w = committed.length % UINT
  e : cons.e = (committed ++ pending).length % UINT

theorem INPUT_BUF_SIZE_lt : INPUT_BUF_SIZE < UINT := by
  decide

theorem INPUT_BUF_SIZE_dvd : INPUT_BUF_SIZE ∣ UINT := by
  decide

theorem UINT_pos : 0 < UINT := by
  decide

theorem length_append_concat (l l' : List UInt8) (c : UInt8) :
    (l ++ (l' ++ [c])).length = (l ++ l').length + 1 := by
  simp
  omega

namespace Buffered

variable {cons : Cons} {committed pending : List UInt8} {taken : ℕ} {c : UInt8}

/-- The empty buffer. -/
theorem nil (buf : ℕ → UInt8) : Buffered { buf, r := 0, w := 0, e := 0 } [] [] 0 where
  ring := .nil INPUT_BUF_SIZE buf
  taken_le := le_rfl
  r := rfl
  w := rfl
  e := rfl

section

variable (h : Buffered cons committed pending taken)

include h

/-- The committed characters alone. -/
theorem committed_ring : Ring INPUT_BUF_SIZE cons.buf committed taken := h.ring.shrink h.taken_le

/-- The difference of the edit and the read index is the number of characters in the buffer. -/
theorem used_eq : cons.used = committed.length + pending.length - taken := by
  rw [Cons.used, h.e, h.r, counter_sub h.ring.taken_le h.ring.room INPUT_BUF_SIZE_lt, length_append]

/-- The difference of the write and the read index is the number of characters that can be read. -/
theorem ready_eq : cons.ready = committed.length - taken := by
  rw [Cons.ready, h.w, h.r, counter_sub h.taken_le h.committed_ring.room INPUT_BUF_SIZE_lt]

/-- The indices are in order. -/
theorem ordered : cons.ready ≤ cons.used ∧ cons.used ≤ INPUT_BUF_SIZE := by
  have hroom := h.ring.room
  rw [length_append] at hroom
  rw [h.ready_eq, h.used_eq]
  omega

/-- The characters that can be read are those which were committed and not taken. -/
theorem contents_eq : cons.contents = committed.drop taken := by
  rw [← h.committed_ring.contents, Cons.contents, h.ready_eq, h.r]
  refine map_congr_left fun j _ => ?_
  rw [Nat.mod_add_mod, Nat.mod_mod_of_dvd _ INPUT_BUF_SIZE_dvd]

/-- There is something to read exactly if a committed character was not taken. -/
theorem empty_iff : cons.r = cons.w ↔ taken = committed.length := by
  rw [h.r, h.w]
  exact counter_eq_iff h.taken_le h.committed_ring.room INPUT_BUF_SIZE_lt

/-- There is something to edit exactly if the line is not empty. -/
theorem unedited_iff : cons.e = cons.w ↔ pending = [] := by
  have hroom := h.ring.room
  have htaken := h.taken_le
  rw [h.e, h.w, eq_comm (a := _ % UINT), counter_eq_iff (by simp) (by omega) INPUT_BUF_SIZE_lt, ← length_eq_zero_iff]
  simp

end

/-- The cell in front of the edit index. -/
theorem last_eq (h : Buffered cons committed (pending ++ [c]) taken) : cons.last = c := by
  have htaken := h.taken_le
  have hlength := length_append_concat committed pending c
  have hcell := h.ring.cells (committed ++ pending).length (by omega) (by simp; omega)
  rw [Cons.last, h.e, hlength, counter_pred UINT_pos, Nat.mod_mod_of_dvd _ INPUT_BUF_SIZE_dvd, hcell]
  simp [← append_assoc]

/-- One character of the line is erased. -/
theorem erase (h : Buffered cons committed (pending ++ [c]) taken) :
    Buffered cons.erase committed pending taken := by
  have hring := h.ring
  have htaken := h.taken_le
  have he : (cons.e + UINT - 1) % UINT = (committed ++ pending).length % UINT := by
    rw [h.e, length_append_concat, counter_pred UINT_pos]
  rw [← append_assoc] at hring
  rw [Cons.erase]
  exact ⟨hring.shrink (by simp; omega), htaken, h.r, h.w, he⟩

section

variable (h : Buffered cons committed pending taken)

include h

/-- A character is added to the line. -/
theorem store (hroom : committed.length + pending.length < taken + INPUT_BUF_SIZE) (c : UInt8) :
    Buffered (cons.store c) committed (pending ++ [c]) taken where
  ring := by
    change Ring _ (update cons.buf (cons.e % INPUT_BUF_SIZE) c) _ _
    rw [h.e, Nat.mod_mod_of_dvd _ INPUT_BUF_SIZE_dvd, ← append_assoc]
    exact h.ring.put (by simpa using hroom) c
  taken_le := h.taken_le
  r := h.r
  w := h.w
  e := by
    change (cons.e + 1) % UINT = _
    rw [h.e, Nat.mod_add_mod, length_append_concat]

/-- The line is committed. -/
theorem commit : Buffered cons.commit (committed ++ pending) [] taken where
  ring := by
    rw [append_nil]
    exact h.ring
  taken_le := h.ring.taken_le
  r := h.r
  w := h.e
  e := by
    rw [append_nil]
    exact h.e

/-- The loop of the kill-line character removes the whole line. -/
theorem killLine (hplain : ∀ c ∈ pending, c ≠ newline) :
    Buffered (cons.killLine pending.length) committed [] taken := by
  induction pending using List.reverseRecOn generalizing cons with
  | nil => exact h
  | append_singleton pending c ih =>
    have hedited : cons.e ≠ cons.w := fun heq => concat_ne_nil c pending (by simpa using h.unedited_iff.1 heq)
    have hlast : cons.last ≠ newline := by
      rw [h.last_eq]
      exact hplain c (by simp)
    rw [length_append, length_singleton, Cons.killLine, if_pos ⟨hedited, hlast⟩]
    exact ih h.erase fun c hc => hplain c (by simp [hc])

/-- The next character to be read. -/
theorem front_eq (hlt : taken < committed.length) : cons.front = committed[taken] := by
  rw [Cons.front, h.r, Nat.mod_mod_of_dvd _ INPUT_BUF_SIZE_dvd]
  exact h.committed_ring.cells taken hlt le_rfl

/-- A reader takes a character. -/
theorem advance (hlt : taken < committed.length) : Buffered cons.advance committed pending (taken + 1) where
  ring := h.ring.take (by simp; omega)
  taken_le := hlt
  r := by
    change (cons.r + 1) % UINT = _
    rw [h.r, Nat.mod_add_mod]
  w := h.w
  e := h.e

/-- A reader that has taken a character puts it back. -/
theorem retreat_advance : cons.advance.retreat = cons := by
  obtain ⟨buf, r, w, e⟩ := cons
  have hr : r = taken % UINT := h.r
  change Cons.mk buf (((r + 1) % UINT + UINT - 1) % UINT) w e = _
  rw [counter_pred UINT_pos, hr, Nat.mod_mod]

end

end Buffered

/-- The buffer is in order, and what was delivered are the characters that were taken. -/
structure Ok (d : Shared) : Prop where
  buffered : Buffered d.cons d.line.committed d.line.pending d.taken
  plain : ∀ c ∈ d.line.pending, c ≠ newline
  delivered : d.delivered = (d.line.committed.take d.taken).filter (· != C 'D')

section Typing

variable {cons : Cons} {line : Line} {taken : ℕ} (h : Buffered cons line.committed line.pending taken)
  (hplain : ∀ c ∈ line.pending, c ≠ newline)

include h hplain

/-- The handler follows the line discipline. -/
theorem Buffered.consoleintr (c : UInt8) :
    let line' := line.input (line.committed.length + line.pending.length - taken) c
    Buffered (cons.consoleintr c) line'.committed line'.pending taken ∧
      (∀ c ∈ line'.pending, c ≠ newline) ∧ line.committed <+: line'.committed := by
  intro line'
  have hused := h.used_eq
  have hroom := h.ring.room
  have htaken := h.taken_le
  rw [length_append] at hroom
  unfold Cons.consoleintr
  simp only [line', Line.input]
  by_cases hP : c = C 'P'
  · rw [if_pos hP, if_pos hP]
    exact ⟨h, hplain, prefix_rfl⟩
  rw [if_neg hP, if_neg hP]
  by_cases hU : c = C 'U'
  · have hfuel : (cons.e + UINT - cons.w) % UINT = line.pending.length := by
      rw [h.e, h.w, counter_sub (by simp) (by simp; omega) INPUT_BUF_SIZE_lt]
      simp
    rw [if_pos hU, if_pos hU, hfuel]
    exact ⟨h.killLine hplain, by simp, prefix_rfl⟩
  rw [if_neg hU, if_neg hU]
  by_cases hH : c = C 'H' ∨ c = delete
  · rw [if_pos hH, if_pos hH]
    by_cases hedited : cons.e = cons.w
    · have hnil := h.unedited_iff.1 hedited
      rw [if_neg (not_not.2 hedited), hnil]
      rw [hnil] at h
      exact ⟨h, by simp, prefix_rfl⟩
    · obtain ⟨pending, last, hlast⟩ := (eq_nil_or_concat line.pending).resolve_left
        fun hnil => hedited (h.unedited_iff.2 hnil)
      rw [concat_eq_append] at hlast
      rw [if_pos hedited, hlast, dropLast_concat]
      rw [hlast] at h hplain
      exact ⟨h.erase, fun c hc => hplain c (mem_append_left _ hc), prefix_rfl⟩
  rw [if_neg hH, if_neg hH]
  by_cases hstore : c ≠ 0 ∧ cons.used < INPUT_BUF_SIZE
  · have hspace : line.committed.length + line.pending.length < taken + INPUT_BUF_SIZE := by omega
    have hnot : ¬ (c = 0 ∨ INPUT_BUF_SIZE ≤ line.committed.length + line.pending.length - taken) := by
      rw [not_or]
      exact ⟨hstore.1, by omega⟩
    rw [if_pos hstore, if_neg hnot]
    generalize hc : (if c = carriageReturn then newline else c) = c'
    have hstored := h.store hspace c'
    have hfull : (cons.store c').used = INPUT_BUF_SIZE ↔
        line.committed.length + line.pending.length - taken + 1 = INPUT_BUF_SIZE := by
      rw [hstored.used_eq, length_append, length_singleton]
      omega
    by_cases hcommit : c' = newline ∨ c' = C 'D' ∨ (cons.store c').used = INPUT_BUF_SIZE
    · rw [if_pos hcommit, if_pos (by rwa [← hfull])]
      exact ⟨hstored.commit, by simp, prefix_append _ _⟩
    · rw [if_neg hcommit, if_neg (by rwa [← hfull])]
      refine ⟨hstored, ?_, prefix_rfl⟩
      intro x hx
      rw [mem_append, mem_singleton] at hx
      obtain hx | rfl := hx
      · exact hplain x hx
      · exact fun heq => hcommit (.inl heq)
  · have hnot : c = 0 ∨ INPUT_BUF_SIZE ≤ line.committed.length + line.pending.length - taken := by
      by_contra hno
      rw [not_or] at hno
      exact hstore ⟨hno.1, by omega⟩
    rw [if_neg hstore, if_pos hnot]
    exact ⟨h, hplain, prefix_rfl⟩

/-- No character that is ready to be read is lost by typing. -/
theorem Buffered.contents_consoleintr (c : UInt8) : cons.contents <+: (cons.consoleintr c).contents := by
  obtain ⟨hbuffered, -, more, hmore⟩ := h.consoleintr hplain c
  rw [h.contents_eq, hbuffered.contents_eq, ← hmore, drop_append_of_le_length h.taken_le]
  exact prefix_append _ _

end Typing

namespace Ok

variable {d : Shared}

/-- A character is typed. -/
theorem type (h : Ok d) (c : UInt8) : Ok (d.type c) := by
  obtain ⟨hbuffered, hplain, more, hmore⟩ := h.buffered.consoleintr h.plain c
  refine ⟨hbuffered, hplain, ?_⟩
  change d.delivered = ((d.line.input d.waiting c).committed.take d.taken).filter _
  rw [h.delivered, Shared.waiting, ← hmore, take_append_of_le_length h.buffered.taken_le]

/-- There is something to read exactly if a committed character was not taken. -/
theorem lt_iff (h : Ok d) : d.cons.r ≠ d.cons.w ↔ d.taken < d.line.committed.length := by
  rw [Ne, h.buffered.empty_iff]
  have := h.buffered.taken_le
  omega

/-- The characters that were taken, with the next one. -/
theorem take_succ (h : Ok d) (hlt : d.taken < d.line.committed.length) :
    (d.line.committed.take (d.taken + 1)).filter (· != C 'D') =
      d.delivered ++ [d.cons.front].filter (· != C 'D') := by
  rw [h.delivered, ← filter_append, h.buffered.front_eq hlt, take_succ_eq_append_getElem hlt]

end Ok

/-- A reader has a character in its hand that it has just taken. -/
structure InHand (d : Shared) (c : UInt8) : Prop where
  before : ∃ d₀, Ok d₀ ∧ d₀.taken < d₀.line.committed.length ∧ d = d₀.take ∧ c = d₀.cons.front

namespace InHand

variable {d : Shared} {c : UInt8}

/-- The character was the next one. -/
theorem committed (h : InHand d c) : 0 < d.taken ∧ d.line.committed[d.taken - 1]? = some c := by
  obtain ⟨d₀, hok, hlt, rfl, rfl⟩ := h.before
  refine ⟨Nat.succ_pos _, ?_⟩
  change d₀.line.committed[d₀.taken]? = _
  rw [List.getElem?_eq_getElem hlt, hok.buffered.front_eq hlt]

/-- The buffer is in order without it. -/
theorem buffered (h : InHand d c) :
    Buffered d.cons d.line.committed d.line.pending d.taken ∧ ∀ c ∈ d.line.pending, c ≠ newline := by
  obtain ⟨d₀, hok, hlt, rfl, rfl⟩ := h.before
  exact ⟨hok.buffered.advance hlt, hok.plain⟩

/-- The character is copied to the user. -/
theorem deliver (h : InHand d c) (hc : c ≠ C 'D') : Ok (d.deliver c) := by
  obtain ⟨d₀, hok, hlt, rfl, rfl⟩ := h.before
  refine ⟨hok.buffered.advance hlt, hok.plain, ?_⟩
  change d₀.delivered ++ [d₀.cons.front] = (d₀.line.committed.take (d₀.taken + 1)).filter _
  rw [hok.take_succ hlt]
  simp [hc]

/-- Control-D is not delivered. -/
theorem drop (h : InHand d (C 'D')) : Ok d := by
  obtain ⟨d₀, hok, hlt, rfl, hc⟩ := h.before
  refine ⟨hok.buffered.advance hlt, hok.plain, ?_⟩
  change d₀.delivered = (d₀.line.committed.take (d₀.taken + 1)).filter _
  rw [hok.take_succ hlt, ← hc]
  simp

/-- The character is put back, and is the next one again. -/
theorem giveBack (h : InHand d c) : Ok d.giveBack ∧ d.giveBack.line.committed[d.giveBack.taken]? = some c := by
  obtain ⟨d₀, hok, hlt, rfl, rfl⟩ := h.before
  have hback : d₀.take.giveBack = d₀ := by
    obtain ⟨cons, line, taken, delivered⟩ := d₀
    exact congrArg (Shared.mk · line taken delivered) hok.buffered.retreat_advance
  rw [hback, List.getElem?_eq_getElem hlt, hok.buffered.front_eq hlt]
  exact ⟨hok, rfl⟩

end InHand

/-- The points at which a thread holds the lock. -/
def Point.inside : Point → Bool
  | .readTest .. | .readChar .. | .readUnlock .. | .intr .. | .intrUnlock => true
  | _ => false

/-- A read has copied what is missing of its target, and is not over. -/
def Progress (target n : ℤ) (out : List UInt8) : Prop :=
  (out.length : ℤ) = target - n ∧ ∀ c ∈ out, c ≠ C 'D' ∧ c ≠ newline

/-- A read is over: it returns the number of bytes that it has copied, unless it was killed. -/
def Ended (result : ℤ) (out : List UInt8) (ending : Ending) : Prop :=
  (match ending with
  | .killed => result = -1
  | _ => result = out.length) ∧ ∀ c ∈ out, c ≠ C 'D'

/-- What a thread knows about its own call. -/
def Point.Local : Point → Prop
  | .idle (some (result, out, ending)) => Ended result out ending
  | .readLock target n out | .readTest target n out | .asleep target n out
  | .readChar target n out _ => Progress target n out
  | .readUnlock result out ending => Ended result out ending
  | _ => True

/-- A read has met control-D: it has taken it if nothing came before, and otherwise left it for the next. -/
def MetEof (d : Shared) (out : List UInt8) : Prop :=
  if out = [] then 0 < d.taken ∧ d.line.committed[d.taken - 1]? = some (C 'D')
  else d.line.committed[d.taken]? = some (C 'D')

/-- What the thread that holds the lock knows about the console. -/
def Point.Asserts (d : Shared) : Point → Prop
  | .readChar _ _ _ c => InHand d c
  | .readUnlock _ out .eof => Ok d ∧ MetEof d out
  | _ => Ok d

section Sections

variable {d d' : Shared} {k k' : Point} {event : Event}

/-- The steps of the thread that holds the lock keep what it knows, as long as bytes can be copied. -/
theorem Section.asserts (h : Section d k event d' k') (hcopy : event ≠ .copyFailed) (hlocal : k.Local)
    (hd : k.Asserts d) : k'.Asserts d' ∧ k'.Local ∧ k'.inside = true := by
  cases h with
  | @full target n out hn =>
    obtain ⟨hlen, hout⟩ := hlocal
    exact ⟨hd, ⟨hlen.symm, fun c hc => (hout c hc).1⟩, rfl⟩
  | @killed target n out hn hempty => exact ⟨hd, ⟨rfl, fun c hc => (hlocal.2 c hc).1⟩, rfl⟩
  | @take target n out hn hsome => exact ⟨⟨d, hd, (Ok.lt_iff hd).1 hsome, rfl, rfl⟩, hlocal, rfl⟩
  | @giveBack target n out hn =>
    obtain ⟨hlen, hout⟩ := hlocal
    obtain ⟨hok, hnext⟩ := InHand.giveBack hd
    have hne : out ≠ [] := by
      rintro rfl
      rw [length_nil] at hlen
      omega
    refine ⟨⟨hok, ?_⟩, ⟨hlen.symm, fun c hc => (hout c hc).1⟩, rfl⟩
    rw [MetEof, if_neg hne]
    exact hnext
  | @eof target n out hn =>
    obtain ⟨hlen, hout⟩ := hlocal
    have hnil : out = [] := length_eq_zero_iff.1 (by omega)
    refine ⟨⟨InHand.drop hd, ?_⟩, ⟨hlen.symm, fun c hc => (hout c hc).1⟩, rfl⟩
    rw [MetEof, if_pos hnil]
    exact InHand.committed hd
  | fault => exact absurd rfl hcopy
  | @copy target n out c hc hline =>
    obtain ⟨hlen, hout⟩ := hlocal
    refine ⟨InHand.deliver hd hc, ⟨?_, ?_⟩, rfl⟩
    · rw [length_append, length_singleton]
      push_cast
      omega
    · intro x hx
      rw [mem_append, mem_singleton] at hx
      obtain hx | rfl := hx
      · exact hout x hx
      · exact ⟨hc, hline⟩
  | @line target n out =>
    obtain ⟨hlen, hout⟩ := hlocal
    refine ⟨InHand.deliver hd (by decide), ⟨?_, ?_⟩, rfl⟩
    · rw [length_append, length_singleton]
      push_cast
      omega
    · intro x hx
      rw [mem_append, mem_singleton] at hx
      obtain hx | rfl := hx
      · exact (hout x hx).1
      · decide
  | typed => exact ⟨Ok.type hd _, trivial, rfl⟩

/-- The buffer is in order whoever holds the lock. -/
theorem Point.Asserts.buffered (h : k.Asserts d) :
    Buffered d.cons d.line.committed d.line.pending d.taken ∧ ∀ c ∈ d.line.pending, c ≠ newline := by
  cases k with
  | readChar target n out c => exact InHand.buffered h
  | readUnlock result out ending =>
    cases ending with
    | eof => exact ⟨h.1.buffered, h.1.plain⟩
    | _ => exact ⟨Ok.buffered h, Ok.plain h⟩
  | _ => exact ⟨Ok.buffered h, Ok.plain h⟩

/-- What was delivered are committed characters, whoever holds the lock. -/
theorem Point.Asserts.delivered (h : k.Asserts d) : d.delivered <+: d.line.committed.filter (· != C 'D') := by
  have hok : ∀ {d : Shared}, Ok d → d.delivered <+: d.line.committed.filter (· != C 'D') := by
    intro d hd
    rw [hd.delivered]
    exact (List.take_prefix _ _).filter _
  cases k with
  | readChar target n out c =>
    obtain ⟨d₀, hd, -, rfl, -⟩ := InHand.before h
    change d₀.delivered <+: d₀.line.committed.filter (· != C 'D')
    exact hok hd
  | readUnlock result out ending =>
    cases ending with
    | eof => exact hok h.1
    | _ => exact hok h
  | _ => exact hok h

end Sections

variable {T : Type} [DecidableEq T]

/-- What holds in every state: the lock is held by the thread that stands in a critical section, the buffer is
in order while it is free, and every thread knows what it has read. -/
structure System.Inv (s : System T) : Prop where
  lock : ∀ p, (s.point p).inside = true ↔ s.lock = some p
  free : s.lock = none → Ok s.shared
  held : ∀ p, s.lock = some p → (s.point p).Asserts s.shared
  threads : ∀ p, (s.point p).Local

namespace System

variable {s s' : System T} {event : Event}

section

variable (h : s.Inv) (p : T) (k : Point)

include h p k

/-- A thread moves, and the lock with it. -/
theorem Inv.move (lock : Option T) (d : Shared) (hlocal : k.Local)
    (hlock : ∀ q, q ≠ p → (lock = some q ↔ s.lock = some q)) (hinside : k.inside = true ↔ lock = some p)
    (hfree : lock = none → Ok d) (hheld : lock = some p → k.Asserts d)
    (hother : ∀ q, q ≠ p → lock = some q → d = s.shared) : Inv { s.goto p k with lock := lock, shared := d } where
  lock := (forall_update_iff s.point fun q k => k.inside = true ↔ lock = some q).2
    ⟨hinside, fun q hq => (h.lock q).trans (hlock q hq).symm⟩
  free := hfree
  held := by
    refine (forall_update_iff s.point fun q k => lock = some q → k.Asserts d).2 ⟨hheld, fun q hqp hq => ?_⟩
    rw [hother q hqp hq]
    exact h.held q ((hlock q hqp).1 hq)
  threads := (forall_update_iff s.point fun _ k => k.Local).2 ⟨hlocal, fun q _ => h.threads q⟩

/-- A thread that does not hold the lock moves. -/
theorem Inv.outside (hp : (s.point p).inside = false) (hk : k.inside = false)
    (hlocal : k.Local) : (s.goto p k).Inv := by
  have hnot : s.lock ≠ some p := by
    rw [Ne, ← h.lock p, hp]
    exact Bool.false_ne_true
  refine h.move p k s.lock s.shared hlocal (fun _ _ => Iff.rfl) ?_ h.free (fun hl => absurd hl hnot) fun _ _ _ => rfl
  rw [hk]
  exact ⟨nofun, fun hl => absurd hl hnot⟩

/-- A thread takes the lock. -/
theorem Inv.acquire (hfree : s.lock = none) (hk : k.inside = true)
    (hlocal : k.Local) (hasserts : ∀ d, Ok d → k.Asserts d) : Inv { s.goto p k with lock := some p } := by
  refine h.move p k (some p) s.shared hlocal ?_ ⟨fun _ => rfl, fun _ => hk⟩ nofun
    (fun _ => hasserts _ (h.free hfree)) fun _ _ _ => rfl
  intro q hq
  rw [hfree]
  exact ⟨fun hs => absurd (Option.some.inj hs).symm hq, nofun⟩

/-- The thread that holds the lock gives it back. -/
theorem Inv.release (hlock : s.lock = some p) (hk : k.inside = false)
    (hlocal : k.Local) (hok : Ok s.shared) : Inv { s.goto p k with lock := none } := by
  refine h.move p k none s.shared hlocal ?_ ?_ (fun _ => hok) nofun fun _ _ _ => rfl
  · intro q hq
    rw [hlock]
    exact ⟨nofun, fun hs => absurd (Option.some.inj hs).symm hq⟩
  · rw [hk]
    exact ⟨nofun, nofun⟩

end

/-- Every step keeps the invariant, as long as bytes can be copied. -/
theorem Inv.step (h : s.Inv) (hcopy : event ≠ .copyFailed) (hstep : Step s event s') : s'.Inv := by
  have hlocal := h.threads
  cases hstep with
  | call p last n hp =>
    refine h.outside p _ (by rw [hp]; rfl) rfl ⟨?_, fun c hc => nomatch hc⟩
    rw [length_nil, sub_self]
    rfl
  | interrupt p last c hp => exact h.outside p _ (by rw [hp]; rfl) rfl trivial
  | acquire p hfree hp =>
    refine h.acquire p _ hfree rfl ?_ fun _ hd => hd
    have hp' := hlocal p
    rwa [hp] at hp'
  | acquireIntr p hfree hp => exact h.acquire p _ hfree rfl trivial fun _ hd => hd
  | @inside p _ d k hlock hsection =>
    obtain ⟨hasserts, hk, hinside⟩ := hsection.asserts hcopy (hlocal p) (h.held p hlock)
    refine h.move p k s.lock d hk (fun _ _ => Iff.rfl) ⟨fun _ => hlock, fun _ => hinside⟩ ?_ (fun _ => hasserts) ?_
    · intro hfree
      rw [hlock] at hfree
      cases hfree
    · intro q hq hlock'
      rw [hlock] at hlock'
      exact absurd (Option.some.inj hlock').symm hq
  | sleep p hlock hp hn hempty =>
    have hp' := hlocal p
    have hheld := h.held p hlock
    rw [hp] at hp' hheld
    exact h.release p _ hlock rfl hp' hheld
  | wake p hp =>
    have hp' := hlocal p
    rw [hp] at hp'
    exact h.outside p _ (by rw [hp]; rfl) rfl hp'
  | @release p result out ending hlock hp =>
    have hp' := hlocal p
    have hheld := h.held p hlock
    rw [hp] at hp' hheld
    refine h.release p _ hlock rfl hp' ?_
    cases ending with
    | eof => exact hheld.1
    | _ => exact hheld
  | releaseIntr p hlock hp =>
    have hheld := h.held p hlock
    rw [hp] at hheld
    exact h.release p _ hlock rfl trivial hheld

/-- The console after `consoleinit`. -/
theorem Inv.boot (T : Type) [DecidableEq T] (buf : ℕ → UInt8) : (boot T buf).Inv where
  lock _ := ⟨nofun, nofun⟩
  free _ := ⟨.nil buf, nofun, rfl⟩
  held _ hp := nomatch hp
  threads _ := trivial

/-- A reader that has control-D in its hand returns what it has copied. -/
theorem Inv.eof_ends (h : s.Inv) {p : T} {target n : ℤ} {out : List UInt8}
    (hp : s.point p = .readChar target n out (C 'D')) (hstep : Step s event s') :
    s'.point p = s.point p ∨ s'.point p = .readUnlock out.length out .eof := by
  have hlen : (out.length : ℤ) = target - n := by
    have hlocal := h.threads p
    rw [hp] at hlocal
    exact hlocal.1
  have hlock : s.lock = some p := by
    rw [← h.lock p, hp]
    rfl
  -- no other thread moves this one
  have hother : ∀ (q : T) (k : Point), q ≠ p → update s.point q k p = s.point p :=
    fun q k hq => update_of_ne (Ne.symm hq) _ _
  have hidle : ∀ (q : T) (k : Point), s.point q = k → k ≠ .readChar target n out (C 'D') → q ≠ p := by
    rintro q k hq hk rfl
    exact hk (hq.symm.trans hp)
  cases hstep with
  | call q _ _ hq | interrupt q _ _ hq | wake q hq =>
    exact .inl (hother q _ (hidle q _ hq nofun))
  | acquire q hfree hq | acquireIntr q hfree hq =>
    exact .inl (hother q _ (hidle q _ hq nofun))
  | sleep q _ hq | release q _ hq | releaseIntr q _ hq =>
    exact .inl (hother q _ (hidle q _ hq nofun))
  | @inside q _ d k hlock' hsection =>
    obtain rfl : q = p := by
      rw [hlock] at hlock'
      exact (Option.some.inj hlock').symm
    right
    change update s.point q k q = _
    rw [update_self]
    rw [hp] at hsection
    cases hsection with
    | giveBack | eof => rw [hlen]
    | fault hc | copy hc => exact absurd rfl hc

end System

/-- In every run of any number of readers and interrupts from `consoleinit` on in which bytes can be copied to
the users: the indices are in order; the buffer holds the committed characters that were not taken, and typing
never removes one of them; the bytes that were delivered are the committed characters in order but for
control-D, and whatever was taken and is not control-D was delivered; a call returns the number of bytes that
it has copied, none of which is control-D; and control-D ends the call that meets it, which takes it only if it
has copied nothing. -/
theorem console_line_discipline (buf : ℕ → UInt8) (events : List Event) (s : System T)
    (hrun : Run System.Step (System.boot T buf) events s) (hcopy : Event.copyFailed ∉ events) :
    (s.shared.cons.ready ≤ s.shared.cons.used ∧ s.shared.cons.used ≤ INPUT_BUF_SIZE) ∧
    (s.shared.cons.contents = s.shared.line.committed.drop s.shared.taken ∧
      ∀ c, s.shared.cons.contents <+: (s.shared.cons.consoleintr c).contents) ∧
    s.shared.delivered <+: s.shared.line.committed.filter (· != C 'D') ∧
    (s.lock = none →
      s.shared.delivered = (s.shared.line.committed.take s.shared.taken).filter (· != C 'D')) ∧
    (∀ p result out ending, s.point p = .readUnlock result out ending →
      (ending = .killed ∨ result = out.length) ∧ C 'D' ∉ out ∧ (ending = .eof → MetEof s.shared out)) ∧
    ∀ p target n out, s.point p = .readChar target n out (C 'D') → ∀ event s', System.Step s event s' →
      s'.point p = s.point p ∨ s'.point p = .readUnlock out.length out .eof := by
  have hgood : Run (fun s e s' => e ≠ Event.copyFailed ∧ System.Step s e s') (System.boot T buf) events s :=
    hrun.restrict (· ≠ .copyFailed) (fun e he heq => hcopy (heq ▸ he)) fun _ _ _ hstep he => ⟨he, hstep⟩
  have hinv : s.Inv := hgood.invariant System.Inv (.boot T buf) fun _ _ _ h hstep => h.step hstep.1 hstep.2
  have hasserts : ∃ k : Point, k.Asserts s.shared := by
    cases hlock : s.lock with
    | none => exact ⟨.idle none, hinv.free hlock⟩
    | some p => exact ⟨s.point p, hinv.held p hlock⟩
  obtain ⟨k, hk⟩ := hasserts
  obtain ⟨hbuffered, hplain⟩ := hk.buffered
  refine ⟨hbuffered.ordered, ⟨hbuffered.contents_eq, hbuffered.contents_consoleintr hplain⟩, hk.delivered,
    fun hfree => (hinv.free hfree).delivered, ?_, fun p target n out hp event s' hstep => hinv.eof_ends hp hstep⟩
  intro p result out ending hp
  have hlock : s.lock = some p := by
    rw [← hinv.lock p, hp]
    rfl
  have hlocal := hinv.threads p
  have hheld := hinv.held p hlock
  rw [hp] at hlocal hheld
  obtain ⟨hresult, hout⟩ := hlocal
  refine ⟨?_, fun hmem => hout _ hmem rfl, ?_⟩
  · cases ending with
    | killed => exact .inl rfl
    | _ => exact .inr hresult
  · rintro rfl
    exact hheld.2

/-- One thread types `a` and a newline, another one reads them. -/
theorem console_line_discipline_read : ∃ (events : List Event) (s : System Bool),
    Run System.Step (System.boot Bool fun _ => 0) events s ∧ s.shared.delivered = [97, 10] ∧
      s.shared.delivered <+: s.shared.line.committed.filter (· != C 'D') := by
  have hboot : Run System.Step (System.boot Bool fun _ => 0) [] (System.boot Bool fun _ => 0) := .nil
  have htyped :=
    ((((((hboot.snoc (.interrupt true none 97 rfl)).snoc (.acquireIntr true rfl rfl)).snoc (.inside true rfl .typed)).snoc
    (.releaseIntr true rfl rfl)).snoc (.interrupt true none 13 rfl)).snoc (.acquireIntr true rfl rfl)).snoc
    (.inside true rfl .typed)
  have hread := (((((((htyped.snoc (.releaseIntr true rfl rfl)).snoc (.call false none 5 rfl)).snoc
    (.acquire false rfl rfl)).snoc (.inside false rfl (.take (by decide) (by decide)))).snoc
    (.inside false rfl (.copy (by decide) (by decide)))).snoc
    (.inside false rfl (.take (by decide) (by decide)))).snoc (.inside false rfl .line)).snoc
    (.release false rfl rfl)
  have hdiscipline := console_line_discipline _ _ _ hread (by simp)
  exact ⟨_, _, hread, by decide, hdiscipline.2.2.1⟩

end Xv6.Console
