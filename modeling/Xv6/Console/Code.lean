import Mathlib.Algebra.Group.Nat.Defs
import Mathlib.Data.Int.Notation
import Mathlib.Logic.Function.Basic
import Mathlib.Tactic.Common

/-!
# The console

The input side of `console.c`: any number of threads call `consoleread`, and any number of threads run the
interrupt handler `consoleintr`. Taking and giving back the lock, every iteration of the loop of `consoleread`
and the body of the handler are steps of their own. A thread that sleeps may be woken up at any time, and
`killed` and `either_copyout` may go either way. The echo and `procdump` are left out.

Beside the buffer stands what the user at the terminal has typed, as a line discipline: the characters that
have been committed, and the line that can still be edited.
-/

namespace Xv6.Console

def INPUT_BUF_SIZE : ℕ := 128

/-- The number of values of a `uint`. -/
def UINT : ℕ := 2 ^ 32

/-- `C(x)`, that is control-x. -/
def C (x : Char) : UInt8 := x.toNat.toUInt8 - '@'.toNat.toUInt8

/-- The delete key. -/
def delete : UInt8 := 0x7f

def newline : UInt8 := 10

def carriageReturn : UInt8 := 13

/-- `struct cons`, without its lock: the buffer with its read, write and edit index. -/
structure Cons where
  buf : ℕ → UInt8
  r : ℕ
  w : ℕ
  e : ℕ

namespace Cons

/-- `cons.e - cons.r` as a `uint`. -/
def used (cons : Cons) : ℕ := (cons.e + UINT - cons.r) % UINT

/-- `cons.w - cons.r` as a `uint`. -/
def ready (cons : Cons) : ℕ := (cons.w + UINT - cons.r) % UINT

/-- `cons.buf[(cons.e-1) % INPUT_BUF_SIZE]`. -/
def last (cons : Cons) : UInt8 := cons.buf ((cons.e + UINT - 1) % UINT % INPUT_BUF_SIZE)

/-- `cons.e--`. -/
def erase (cons : Cons) : Cons := { cons with e := (cons.e + UINT - 1) % UINT }

/-- `cons.buf[cons.e++ % INPUT_BUF_SIZE] = c`. -/
def store (cons : Cons) (c : UInt8) : Cons :=
  { cons with buf := Function.update cons.buf (cons.e % INPUT_BUF_SIZE) c, e := (cons.e + 1) % UINT }

/-- `cons.w = cons.e`. -/
def commit (cons : Cons) : Cons := { cons with w := cons.e }

/-- `cons.buf[cons.r % INPUT_BUF_SIZE]`. -/
def front (cons : Cons) : UInt8 := cons.buf (cons.r % INPUT_BUF_SIZE)

/-- `cons.r++`. -/
def advance (cons : Cons) : Cons := { cons with r := (cons.r + 1) % UINT }

/-- `cons.r--`. -/
def retreat (cons : Cons) : Cons := { cons with r := (cons.r + UINT - 1) % UINT }

/-- The loop of the kill-line character, for at most `n` characters. -/
def killLine : ℕ → Cons → Cons
  | 0, cons => cons
  | n + 1, cons => if cons.e ≠ cons.w ∧ cons.last ≠ newline then killLine n cons.erase else cons

/-- What `consoleintr` does while it holds the lock. The loop cannot go back further than to `cons.w`. -/
def consoleintr (cons : Cons) (c : UInt8) : Cons :=
  if c = C 'P' then cons
  else if c = C 'U' then cons.killLine ((cons.e + UINT - cons.w) % UINT)
  else if c = C 'H' ∨ c = delete then if cons.e ≠ cons.w then cons.erase else cons
  else if c ≠ 0 ∧ cons.used < INPUT_BUF_SIZE then
    let c := if c = carriageReturn then newline else c
    let cons := cons.store c
    if c = newline ∨ c = C 'D' ∨ cons.used = INPUT_BUF_SIZE then cons.commit else cons
  else cons

/-- The bytes from `cons.r` up to `cons.w`. -/
def contents (cons : Cons) : List UInt8 :=
  (List.range cons.ready).map fun j => cons.buf ((cons.r + j) % UINT % INPUT_BUF_SIZE)

end Cons

/-- What has been typed: the characters that have been committed, and the line that is being edited. -/
structure Line where
  committed : List UInt8
  pending : List UInt8

/-- The line discipline: what a character does if so many characters wait in the buffer. -/
def Line.input (line : Line) (waiting : ℕ) (c : UInt8) : Line :=
  if c = C 'P' then line
  else if c = C 'U' then { line with pending := [] }
  else if c = C 'H' ∨ c = delete then { line with pending := line.pending.dropLast }
  else if c = 0 ∨ INPUT_BUF_SIZE ≤ waiting then line
  else
    let c := if c = carriageReturn then newline else c
    if c = newline ∨ c = C 'D' ∨ waiting + 1 = INPUT_BUF_SIZE then
      { committed := line.committed ++ (line.pending ++ [c]), pending := [] }
    else { line with pending := line.pending ++ [c] }

/-- The console with what has been typed, the number of characters that readers have taken and the bytes that
were copied to them, in the order in which this happened. -/
structure Shared where
  cons : Cons
  line : Line
  taken : ℕ
  delivered : List UInt8

namespace Shared

/-- The characters that wait in the buffer. -/
def waiting (d : Shared) : ℕ := d.line.committed.length + d.line.pending.length - d.taken

/-- A character is typed. -/
def type (d : Shared) (c : UInt8) : Shared :=
  { d with cons := d.cons.consoleintr c, line := d.line.input d.waiting c }

/-- A reader takes the first character. -/
def take (d : Shared) : Shared := { d with cons := d.cons.advance, taken := d.taken + 1 }

/-- A reader puts the character back. -/
def giveBack (d : Shared) : Shared := { d with cons := d.cons.retreat, taken := d.taken - 1 }

/-- A reader has copied a byte to its user. -/
def deliver (d : Shared) (c : UInt8) : Shared := { d with delivered := d.delivered ++ [c] }

/-- The console before anything is typed. -/
def consoleinit (buf : ℕ → UInt8) : Shared where
  cons := { buf, r := 0, w := 0, e := 0 }
  line := { committed := [], pending := [] }
  taken := 0
  delivered := []

end Shared

/-- How a call of `consoleread` comes to its end. -/
inductive Ending
  /-- The buffer of the user is full. -/
  | full
  /-- A whole line has been read. -/
  | line
  /-- Control-D. -/
  | eof
  | killed
  /-- A byte could not be copied to the user. -/
  | fault

/-- Points in the code of `console.c`. A reader knows its `target`, the number of bytes left `n`, and what it
has copied to its user. -/
inductive Point
  /-- Not in the code of the console, with the result of the last call of `consoleread`. -/
  | idle (last : Option (ℤ × List UInt8 × Ending))
  /-- In front of the lock. -/
  | readLock (target n : ℤ) (out : List UInt8)
  | readTest (target n : ℤ) (out : List UInt8)
  | asleep (target n : ℤ) (out : List UInt8)
  | readChar (target n : ℤ) (out : List UInt8) (c : UInt8)
  | readUnlock (result : ℤ) (out : List UInt8) (ending : Ending)
  | intrLock (c : UInt8)
  | intr (c : UInt8)
  | intrUnlock

/-- What is to be told about a step. -/
inductive Event
  | quiet
  | typed (c : UInt8)
  | copyFailed

/-- The steps of the thread that holds the lock and goes on to hold it. -/
inductive Section (d : Shared) : Point → Event → Shared → Point → Prop
  -- while(n > 0)
  | full {target n : ℤ} {out : List UInt8} (hn : n ≤ 0) :
      Section d (.readTest target n out) .quiet d (.readUnlock (target - n) out .full)
  | killed {target n : ℤ} {out : List UInt8} (hn : 0 < n) (hempty : d.cons.r = d.cons.w) :
      Section d (.readTest target n out) .quiet d (.readUnlock (-1) out .killed)
  | take {target n : ℤ} {out : List UInt8} (hn : 0 < n) (hsome : d.cons.r ≠ d.cons.w) :
      Section d (.readTest target n out) .quiet d.take (.readChar target n out d.cons.front)
  -- if(c == C('D'))
  | giveBack {target n : ℤ} {out : List UInt8} (hn : n < target) :
      Section d (.readChar target n out (C 'D')) .quiet d.giveBack (.readUnlock (target - n) out .eof)
  | eof {target n : ℤ} {out : List UInt8} (hn : ¬ n < target) :
      Section d (.readChar target n out (C 'D')) .quiet d (.readUnlock (target - n) out .eof)
  -- either_copyout
  | fault {target n : ℤ} {out : List UInt8} {c : UInt8} (hc : c ≠ C 'D') :
      Section d (.readChar target n out c) .copyFailed d (.readUnlock (target - n) out .fault)
  | copy {target n : ℤ} {out : List UInt8} {c : UInt8} (hc : c ≠ C 'D') (hline : c ≠ newline) :
      Section d (.readChar target n out c) .quiet (d.deliver c) (.readTest target (n - 1) (out ++ [c]))
  | line {target n : ℤ} {out : List UInt8} :
      Section d (.readChar target n out newline) .quiet (d.deliver newline)
        (.readUnlock (target - (n - 1)) (out ++ [newline]) .line)
  -- consoleintr
  | typed {c : UInt8} : Section d (.intr c) (.typed c) (d.type c) .intrUnlock

/-- The console with the threads that use it. -/
structure System (T : Type) where
  shared : Shared
  lock : Option T
  point : T → Point

variable {T : Type} [DecidableEq T]

/-- A thread goes on at another point. -/
def System.goto (s : System T) (p : T) (k : Point) : System T :=
  { s with point := Function.update s.point p k }

/-- The steps of the threads. -/
inductive System.Step (s : System T) : Event → System T → Prop
  | call (p : T) (last : Option (ℤ × List UInt8 × Ending)) (n : ℤ) (hp : s.point p = .idle last) :
      Step s .quiet (s.goto p (.readLock n n []))
  | interrupt (p : T) (last : Option (ℤ × List UInt8 × Ending)) (c : UInt8) (hp : s.point p = .idle last) :
      Step s .quiet (s.goto p (.intrLock c))
  | acquire (p : T) {target n : ℤ} {out : List UInt8} (hfree : s.lock = none)
      (hp : s.point p = .readLock target n out) :
      Step s .quiet { s.goto p (.readTest target n out) with lock := some p }
  | acquireIntr (p : T) {c : UInt8} (hfree : s.lock = none) (hp : s.point p = .intrLock c) :
      Step s .quiet { s.goto p (.intr c) with lock := some p }
  | inside (p : T) {event : Event} {d : Shared} {k : Point} (hlock : s.lock = some p)
      (hstep : Section s.shared (s.point p) event d k) : Step s event { s.goto p k with shared := d }
  | sleep (p : T) {target n : ℤ} {out : List UInt8} (hlock : s.lock = some p)
      (hp : s.point p = .readTest target n out) (hn : 0 < n) (hempty : s.shared.cons.r = s.shared.cons.w) :
      Step s .quiet { s.goto p (.asleep target n out) with lock := none }
  | wake (p : T) {target n : ℤ} {out : List UInt8} (hp : s.point p = .asleep target n out) :
      Step s .quiet (s.goto p (.readLock target n out))
  | release (p : T) {result : ℤ} {out : List UInt8} {ending : Ending} (hlock : s.lock = some p)
      (hp : s.point p = .readUnlock result out ending) :
      Step s .quiet { s.goto p (.idle (some (result, out, ending))) with lock := none }
  | releaseIntr (p : T) (hlock : s.lock = some p) (hp : s.point p = .intrUnlock) :
      Step s .quiet { s.goto p (.idle none) with lock := none }

/-- The console after `consoleinit`. -/
def System.boot (T : Type) (buf : ℕ → UInt8) : System T where
  shared := .consoleinit buf
  lock := none
  point := fun _ => .idle none

end Xv6.Console
