import Mathlib.Data.Fintype.Basic
import Mathlib.Data.Int.Notation
import Mathlib.Logic.Function.Basic

/-!
# Open files of concurrent processes

The system calls that make and drop references to open files, on any number of processes at once. A process
runs a program whose operations are the steps of the system: `filealloc`, `filedup` and the first part of
`fileclose` run under the lock of the file table, `pipeclose` under the lock of the pipe, and the entries of
`ofile` belong to the process itself, or to its parent as long as it is not runnable. What a system call does
with inodes and with the memory of the process is left out, but for the choice it leads to.
-/

namespace Xv6.Files

open Function

/-- Entries of the file table. -/
abbrev NFILE : ℕ := 100

/-- Open files of a process. -/
abbrev NOFILE : ℕ := 16

abbrev O_WRONLY : ℕ := 0x001
abbrev O_RDWR : ℕ := 0x002

/-- Whether an open mode has a flag. -/
def hasFlag (omode flag : ℕ) : Bool := omode &&& flag ≠ 0

/-- The type of an open file. -/
inductive FileType
  | none
  | pipe
  | inode
  | device
deriving DecidableEq

/-- `struct file`. Pipes are known by their page, inodes by their number in the table. -/
structure File where
  type : FileType
  ref : ℕ
  readable : Bool
  writable : Bool
  pipe : ℕ
  ip : ℕ
  off : ℕ
  major : ℤ

/-- What `struct pipe` says about its ends. -/
structure Pipe where
  readopen : Bool
  writeopen : Bool

/-- Is an end open? -/
def Pipe.isOpen (pi : Pipe) (writable : Bool) : Bool := if writable then pi.writeopen else pi.readopen

/-- Close an end. -/
def Pipe.close (pi : Pipe) (writable : Bool) : Pipe :=
  if writable then { pi with writeopen := false } else { pi with readopen := false }

/-- The open files of a process. -/
abbrev Descriptors : Type := Fin NOFILE → Option (Fin NFILE)

/-- The programs of the system calls. -/
inductive Prog (P : Type)
  /-- Back to user space. -/
  | ret
  /-- The end of `kexit`: the process is a zombie. -/
  | retire
  /-- The outcome of something that is not modelled. -/
  | either (a b : Prog P)
  | filealloc (k : Option (Fin NFILE) → Prog P)
  | filedup (f : Fin NFILE) (k : Prog P)
  | fileclose (f : Fin NFILE) (k : Prog P)
  | pipeclose (pi : ℕ) (writable : Bool) (k : Prog P)
  | kfree (pi : ℕ) (k : Prog P)
  | iput (ip : ℕ) (k : Prog P)
  /-- `kalloc`, and the setup of the pipe in the page. -/
  | kalloc (k : Option ℕ → Prog P)
  /-- Assignments to the fields of a file. -/
  | setFile (f : Fin NFILE) (fields : File → File) (k : Prog P)
  | fdalloc (f : Fin NFILE) (k : Option (Fin NOFILE) → Prog P)
  /-- Reading, and clearing, an entry of `ofile`. -/
  | readFd (fd : Fin NOFILE) (k : Option (Fin NFILE) → Prog P)
  | clearFd (fd : Fin NOFILE) (k : Prog P)
  | allocproc (k : Option P → Prog P)
  | freeproc (np : P) (k : Prog P)
  /-- Writing an entry of the `ofile` of a new process, and making the process runnable. -/
  | storeFd (np : P) (fd : Fin NOFILE) (f : Fin NFILE) (k : Prog P)
  | run (np : P) (k : Prog P)

section Programs

variable {P : Type}

/-- `sys_dup`. -/
def sysDup (fd : Fin NOFILE) : Prog P :=
  .readFd fd fun
    | none => .ret
    | some f => .fdalloc f fun
      | none => .ret
      | some _ => .filedup f .ret

/-- `sys_close`. -/
def sysClose (fd : Fin NOFILE) : Prog P :=
  .readFd fd fun
    | none => .ret
    | some f => .clearFd fd (.fileclose f .ret)

/-- `sys_open`, from the point where the inode is there: `major` is its device number if it is a device. -/
def sysOpen (ip : ℕ) (major : Option ℤ) (omode : ℕ) : Prog P :=
  .filealloc fun
    | none => .ret
    | some f => .fdalloc f fun
      | none => .fileclose f .ret
      | some _ => .setFile f (fun file =>
          let file := match major with
            | some major => { file with type := .device, major }
            | none => { file with type := .inode, off := 0 }
          { file with
            ip
            readable := !hasFlag omode O_WRONLY
            writable := hasFlag omode O_WRONLY || hasFlag omode O_RDWR }) .ret

/-- `pipealloc`, with what follows if it fails and if it does not. -/
def pipealloc (bad : Prog P) (k : Fin NFILE → Fin NFILE → Prog P) : Prog P :=
  .filealloc fun
    | none => bad
    | some f0 => .filealloc fun
      | none => .fileclose f0 bad
      | some f1 => .kalloc fun
        | none => .fileclose f0 (.fileclose f1 bad)
        | some pi =>
          .setFile f0 (fun file => { file with type := .pipe, readable := true, writable := false, pipe := pi })
            (.setFile f1 (fun file => { file with type := .pipe, readable := false, writable := true, pipe := pi })
              (k f0 f1))

/-- `sys_pipe`. Either both calls of `copyout` succeed or one of them fails. -/
def sysPipe : Prog P :=
  pipealloc .ret fun rf wf => .fdalloc rf fun
    | none => .fileclose rf (.fileclose wf .ret)
    | some fd0 => .fdalloc wf fun
      | none => .clearFd fd0 (.fileclose rf (.fileclose wf .ret))
      | some fd1 => .either .ret (.clearFd fd0 (.clearFd fd1 (.fileclose rf (.fileclose wf .ret))))

/-- The loop of `kfork` over the open files. -/
def forkFiles (np : P) : List (Fin NOFILE) → Prog P
  | [] => .run np .ret
  | fd :: fds => .readFd fd fun
    | none => forkFiles np fds
    | some f => .filedup f (.storeFd np fd f (forkFiles np fds))

/-- `kfork`. Either `uvmcopy` fails or it succeeds. -/
def kfork : Prog P :=
  .allocproc fun
    | none => .ret
    | some np => .either (.freeproc np .ret) (forkFiles np (List.finRange NOFILE))

/-- The loop of `kexit` over the open files. -/
def exitFiles : List (Fin NOFILE) → Prog P
  | [] => .retire
  | fd :: fds => .readFd fd fun
    | none => exitFiles fds
    | some f => .fileclose f (.clearFd fd (exitFiles fds))

/-- `kexit`. -/
def kexit : Prog P := exitFiles (List.finRange NOFILE)

/-- The system calls. One that returns before it comes to a file is not a step. -/
inductive Syscall : Prog P → Prop
  | open (ip : ℕ) (major : Option ℤ) (omode : ℕ) : Syscall (sysOpen ip major omode)
  | dup (fd : Fin NOFILE) : Syscall (sysDup fd)
  | close (fd : Fin NOFILE) : Syscall (sysClose fd)
  | pipe : Syscall sysPipe
  | fork : Syscall kfork
  | exit : Syscall kexit

end Programs

/-- What a slot of the process table is doing. A process that is `USED` is being made by `kfork`. -/
inductive Proc (P : Type)
  | unused
  | used
  | user
  | kernel (prog : Prog P)
  | zombie

/-- The state of the system. A page that is not a pipe has no entry. -/
structure State (P : Type) where
  file : Fin NFILE → File
  pipe : ℕ → Option Pipe
  ofile : P → Descriptors
  proc : P → Proc P
  panic : Option String

/-- What happens in a step. -/
inductive Event
  | kalloc (pi : ℕ)
  | kfree (pi : ℕ)
  | other
deriving DecidableEq

/-- The first file of the table without references. -/
def freeFile (file : Fin NFILE → File) : Option (Fin NFILE) :=
  (List.finRange NFILE).find? fun f => (file f).ref = 0

/-- The first descriptor that is not in use. -/
def freeFd (ofile : Descriptors) : Option (Fin NOFILE) :=
  (List.finRange NOFILE).find? fun fd => ofile fd = none

/-- What `fileclose` goes on with after the last reference is gone. -/
def File.closing {P : Type} (file : File) (k : Prog P) : Prog P :=
  match file.type with
  | .pipe => .pipeclose file.pipe file.writable k
  | .inode | .device => .iput file.ip k
  | .none => k

/-- What `pipeclose` goes on with. -/
def Pipe.closing {P : Type} (pipe : Pipe) (pi : ℕ) (k : Prog P) : Prog P :=
  if pipe.readopen = false ∧ pipe.writeopen = false then .kfree pi k else k

section Steps

variable {P : Type} [DecidableEq P]

namespace State

/-- A process goes on with a program. -/
def next (s : State P) (p : P) (k : Prog P) : State P :=
  { s with proc := update s.proc p (.kernel k) }

/-- A slot of the process table changes. -/
def setProc (s : State P) (p : P) (proc : Proc P) : State P :=
  { s with proc := update s.proc p proc }

/-- A file changes. -/
def setFile (s : State P) (f : Fin NFILE) (file : File) : State P :=
  { s with file := update s.file f file }

/-- A page changes. -/
def setPipe (s : State P) (pi : ℕ) (pipe : Option Pipe) : State P :=
  { s with pipe := update s.pipe pi pipe }

/-- An entry of `ofile` changes. -/
def setFd (s : State P) (p : P) (fd : Fin NOFILE) (f : Option (Fin NFILE)) : State P :=
  { s with ofile := update s.ofile p (update (s.ofile p) fd f) }

end State

/-- The steps of the system. The parent of a zombie frees its slot in `kwait`. A pipe whose page was freed
is not closed or freed again without harm, which is a panic here. -/
inductive Step : State P → Event → State P → Prop
  | call {s : State P} {p : P} {prog : Prog P} (hp : s.proc p = .user) (hprog : Syscall prog) :
      Step s .other (s.next p prog)
  | reap {s : State P} {p : P} (hp : s.proc p = .zombie) : Step s .other (s.setProc p .unused)
  | ret {s : State P} {p : P} (hp : s.proc p = .kernel .ret) : Step s .other (s.setProc p .user)
  | retire {s : State P} {p : P} (hp : s.proc p = .kernel .retire) : Step s .other (s.setProc p .zombie)
  | left {s : State P} {p : P} {a b : Prog P} (hp : s.proc p = .kernel (.either a b)) :
      Step s .other (s.next p a)
  | right {s : State P} {p : P} {a b : Prog P} (hp : s.proc p = .kernel (.either a b)) :
      Step s .other (s.next p b)
  | filealloc {s : State P} {p : P} {k : Option (Fin NFILE) → Prog P} {f : Fin NFILE}
      (hp : s.proc p = .kernel (.filealloc k)) (hf : freeFile s.file = some f) :
      Step s .other ((s.setFile f { s.file f with ref := 1 }).next p (k (some f)))
  | noFile {s : State P} {p : P} {k : Option (Fin NFILE) → Prog P} (hp : s.proc p = .kernel (.filealloc k))
      (hf : freeFile s.file = none) : Step s .other (s.next p (k none))
  | filedup {s : State P} {p : P} {f : Fin NFILE} {k : Prog P} (hp : s.proc p = .kernel (.filedup f k))
      (href : 1 ≤ (s.file f).ref) :
      Step s .other ((s.setFile f { s.file f with ref := (s.file f).ref + 1 }).next p k)
  | filedupPanic {s : State P} {p : P} {f : Fin NFILE} {k : Prog P} (hp : s.proc p = .kernel (.filedup f k))
      (href : (s.file f).ref < 1) : Step s .other { s with panic := some "filedup" }
  | fileclose {s : State P} {p : P} {f : Fin NFILE} {k : Prog P} (hp : s.proc p = .kernel (.fileclose f k))
      (href : 1 < (s.file f).ref) :
      Step s .other ((s.setFile f { s.file f with ref := (s.file f).ref - 1 }).next p k)
  | lastClose {s : State P} {p : P} {f : Fin NFILE} {k : Prog P} (hp : s.proc p = .kernel (.fileclose f k))
      (href : (s.file f).ref = 1) :
      Step s .other ((s.setFile f { s.file f with ref := 0, type := .none }).next p ((s.file f).closing k))
  | fileclosePanic {s : State P} {p : P} {f : Fin NFILE} {k : Prog P}
      (hp : s.proc p = .kernel (.fileclose f k)) (href : (s.file f).ref < 1) :
      Step s .other { s with panic := some "fileclose" }
  | pipeclose {s : State P} {p : P} {pi : ℕ} {writable : Bool} {k : Prog P} {pipe : Pipe}
      (hp : s.proc p = .kernel (.pipeclose pi writable k)) (hpipe : s.pipe pi = some pipe) :
      Step s .other ((s.setPipe pi (some (pipe.close writable))).next p ((pipe.close writable).closing pi k))
  | pipeclosePanic {s : State P} {p : P} {pi : ℕ} {writable : Bool} {k : Prog P}
      (hp : s.proc p = .kernel (.pipeclose pi writable k)) (hpipe : s.pipe pi = none) :
      Step s .other { s with panic := some "pipeclose" }
  | kfree {s : State P} {p : P} {pi : ℕ} {k : Prog P} (hp : s.proc p = .kernel (.kfree pi k))
      (hpipe : (s.pipe pi).isSome) : Step s (.kfree pi) ((s.setPipe pi none).next p k)
  | kfreePanic {s : State P} {p : P} {pi : ℕ} {k : Prog P} (hp : s.proc p = .kernel (.kfree pi k))
      (hpipe : s.pipe pi = none) : Step s (.kfree pi) { s with panic := some "kfree" }
  | iput {s : State P} {p : P} {ip : ℕ} {k : Prog P} (hp : s.proc p = .kernel (.iput ip k)) :
      Step s .other (s.next p k)
  | kalloc {s : State P} {p : P} {pi : ℕ} {k : Option ℕ → Prog P} (hp : s.proc p = .kernel (.kalloc k))
      (hpipe : s.pipe pi = none) :
      Step s (.kalloc pi) ((s.setPipe pi (some ⟨true, true⟩)).next p (k (some pi)))
  | noPage {s : State P} {p : P} {k : Option ℕ → Prog P} (hp : s.proc p = .kernel (.kalloc k)) :
      Step s .other (s.next p (k none))
  | setFile {s : State P} {p : P} {f : Fin NFILE} {fields : File → File} {k : Prog P}
      (hp : s.proc p = .kernel (.setFile f fields k)) :
      Step s .other ((s.setFile f (fields (s.file f))).next p k)
  | fdalloc {s : State P} {p : P} {f : Fin NFILE} {fd : Fin NOFILE} {k : Option (Fin NOFILE) → Prog P}
      (hp : s.proc p = .kernel (.fdalloc f k)) (hfd : freeFd (s.ofile p) = some fd) :
      Step s .other ((s.setFd p fd (some f)).next p (k (some fd)))
  | noFd {s : State P} {p : P} {f : Fin NFILE} {k : Option (Fin NOFILE) → Prog P}
      (hp : s.proc p = .kernel (.fdalloc f k)) (hfd : freeFd (s.ofile p) = none) :
      Step s .other (s.next p (k none))
  | readFd {s : State P} {p : P} {fd : Fin NOFILE} {k : Option (Fin NFILE) → Prog P}
      (hp : s.proc p = .kernel (.readFd fd k)) : Step s .other (s.next p (k (s.ofile p fd)))
  | clearFd {s : State P} {p : P} {fd : Fin NOFILE} {k : Prog P} (hp : s.proc p = .kernel (.clearFd fd k)) :
      Step s .other ((s.setFd p fd none).next p k)
  | allocproc {s : State P} {p np : P} {k : Option P → Prog P} (hp : s.proc p = .kernel (.allocproc k))
      (hnp : s.proc np = .unused) : Step s .other ((s.setProc np .used).next p (k (some np)))
  | noProc {s : State P} {p : P} {k : Option P → Prog P} (hp : s.proc p = .kernel (.allocproc k)) :
      Step s .other (s.next p (k none))
  | freeproc {s : State P} {p np : P} {k : Prog P} (hp : s.proc p = .kernel (.freeproc np k)) :
      Step s .other ((s.setProc np .unused).next p k)
  | storeFd {s : State P} {p np : P} {fd : Fin NOFILE} {f : Fin NFILE} {k : Prog P}
      (hp : s.proc p = .kernel (.storeFd np fd f k)) :
      Step s .other ((s.setFd np fd (some f)).next p k)
  | run {s : State P} {p np : P} {k : Prog P} (hp : s.proc p = .kernel (.run np k)) :
      Step s .other ((s.setProc np .user).next p k)

/-- The system with one process and no open files. -/
def init (initproc : P) : State P where
  file := fun _ => ⟨.none, 0, false, false, 0, 0, 0, 0⟩
  pipe := fun _ => none
  ofile := fun _ _ => none
  proc := update (fun _ => .unused) initproc .user
  panic := none

end Steps

end Xv6.Files
