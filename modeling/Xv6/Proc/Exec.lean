import Xv6.Proc.Lifecycle

/-!
# Loading a program

`exec.c`: the ELF headers are read from the bytes of the file, the segments are loaded into a new page
table, the arguments are pushed on a new stack, and the new image replaces the old one. A failure at
any point frees the new page table with the size reached so far.
-/

namespace Xv6

open Library Vm

/-- The contents of an executable file. -/
structure ExecFile where
  size : ℕ
  byte : ℕ → UInt8

/-- The bytes that `readi` delivers from an offset on, at most `n` of them. -/
def ExecFile.readi (file : ExecFile) (off n : ℕ) : List UInt8 :=
  if file.size < off ∨ UINT32 ≤ off + n then []
  else (List.range (min n (file.size - off))).map fun k => file.byte (off + k)

/-- The number of `w` bytes at an offset of a header. -/
def field (header : List UInt8) (off w : ℕ) : ℕ :=
  wordOfBytes w fun k => header.getD (off + k) 0

/-- The fields of `struct elfhdr` that `exec` reads. -/
structure ElfHdr where
  magic : ℕ
  entry : ℕ
  phoff : ℕ
  phnum : ℕ

/-- The fields of `struct proghdr` that `exec` reads. -/
structure ProgHdr where
  type : ℕ
  flags : ℕ
  off : ℕ
  vaddr : ℕ
  filesz : ℕ
  memsz : ℕ

/-- The bytes of `struct elfhdr`. -/
def elfhdrBytes : ℕ := 64

/-- The bytes of `struct proghdr`. -/
def proghdrBytes : ℕ := 56

/-- The magic number of an ELF file. -/
def ELF_MAGIC : ℕ := 0x464C457F

/-- The type of a segment that is loaded. -/
def ELF_PROG_LOAD : ℕ := 1

/-- Take an ELF header apart. -/
def parseElfHdr (header : List UInt8) : ElfHdr where
  magic := field header 0 4
  entry := field header 24 8
  phoff := field header 32 8
  phnum := field header 56 2

/-- Take a program header apart. -/
def parseProgHdr (header : List UInt8) : ProgHdr where
  type := field header 0 4
  flags := field header 4 4
  off := field header 8 8
  vaddr := field header 16 8
  filesz := field header 32 8
  memsz := field header 40 8

/-- The permissions of a segment. -/
def flags2perm (flags : ℕ) : ℕ :=
  (if hasFlag flags 1 then PTE_X else 0) ||| (if hasFlag flags 2 then PTE_W else 0)

/-- The loop of `loadseg` with `n` pages left. -/
def loadsegLoop (pagetable va : ℕ) (file : ExecFile) (offset sz : ℕ) : ℕ → ℕ → VmM ℤ
  | 0, _ => pure 0
  | n + 1, i => do
    let pa ← walkaddr pagetable ((va + i) % UINT64)
    if pa = 0 then panic .loadsegAddressShouldExist
    else do
      let m := min (sz - i) PGSIZE
      let bytes := file.readi ((offset + i) % UINT32) m
      modify fun s => s.setPage pa (writeBytes (s.mem pa) 0 bytes)
      if bytes.length ≠ m then pure (-1)
      else loadsegLoop pagetable va file offset sz n (i + PGSIZE)

/-- Load `sz` bytes of the file at an offset into the pages from `va` on. -/
def loadseg (pagetable va : ℕ) (file : ExecFile) (offset sz : ℕ) : VmM ℤ :=
  loadsegLoop pagetable va file offset sz ((sz + (PGSIZE - 1)) / PGSIZE) 0

variable [KernelImage]

/-- The loop of `exec` over the program headers with `n` of them left. The result is the size reached
and whether all segments were loaded. -/
def loadSegments (file : ExecFile) (pagetable : ℕ) : ℕ → ℕ → ℕ → VmM (ℕ × Bool)
  | 0, _, sz => pure (sz, true)
  | n + 1, off, sz =>
    let header := file.readi off proghdrBytes
    let next := (off + proghdrBytes) % UINT32
    if header.length ≠ proghdrBytes then pure (sz, false)
    else
      let ph := parseProgHdr header
      if ph.type ≠ ELF_PROG_LOAD then loadSegments file pagetable n next sz
      else if ph.memsz < ph.filesz then pure (sz, false)
      else if (ph.vaddr + ph.memsz) % UINT64 < ph.vaddr then pure (sz, false)
      else if ph.vaddr % PGSIZE ≠ 0 then pure (sz, false)
      else do
        let sz1 ← uvmalloc pagetable sz ((ph.vaddr + ph.memsz) % UINT64) (flags2perm ph.flags)
        if sz1 = 0 then pure (sz, false)
        else do
          let r ← loadseg pagetable ph.vaddr file (ph.off % UINT32) (ph.filesz % UINT32)
          if r < 0 then pure (sz1, false)
          else loadSegments file pagetable n next sz1

/-- The loop of `exec` over the arguments: each string is pushed on the stack. The result is the stack
pointer and the addresses of the strings, the last one first. -/
def pushArgs (p : Proc) (pagetable stackbase : ℕ) :
    List (List UInt8) → ℕ → List ℕ → VmM (Option (ℕ × List ℕ))
  | [], sp, ustack => pure (some (sp, ustack))
  | arg :: rest, sp, ustack =>
    if MAXARG ≤ ustack.length then pure none
    else
      let sp1 := (sp + UINT64 - (arg.length + 1)) % UINT64
      let sp2 := sp1 - sp1 % 16
      if sp2 < stackbase then pure none
      else do
        let r ← copyout p pagetable sp2 (arg ++ [0])
        if r < 0 then pure none else pushArgs p pagetable stackbase rest sp2 (sp2 :: ustack)

/-- The eight bytes of a pointer. -/
def pointerBytes (x : ℕ) : List UInt8 := (List.range 8).map (byteOfWord x)

/-- Push the arguments and the array of their addresses; the result is the stack pointer. -/
def pushStack (p : Proc) (pagetable sz : ℕ) (argv : List (List UInt8)) : VmM (Option ℕ) := do
  let stackbase := sz - USERSTACK * PGSIZE
  match ← pushArgs p pagetable stackbase argv sz [] with
  | none => pure none
  | some (sp, ustack) =>
    let sp1 := (sp + UINT64 - (argv.length + 1) * 8) % UINT64
    let sp2 := sp1 - sp1 % 16
    if sp2 < stackbase then pure none
    else do
      let r ← copyout p pagetable sp2 ((ustack.reverse ++ [0]).flatMap pointerBytes)
      if r < 0 then pure none else pure (some sp2)

/-- The part of `exec` that fills a new page table: segments, stack and arguments. The result is the
size reached, and the stack pointer if nothing failed. -/
def buildImage (p : Proc) (pagetable : ℕ) (file : ExecFile) (elf : ElfHdr)
    (argv : List (List UInt8)) : VmM (ℕ × Option ℕ) := do
  let (sz, ok) ← loadSegments file pagetable elf.phnum (elf.phoff % UINT32) 0
  if !ok then pure (sz, none)
  else do
    let sz := PGROUNDUP sz
    let sz1 ← uvmalloc pagetable sz ((sz + (USERSTACK + 1) * PGSIZE) % UINT64) PTE_W
    if sz1 = 0 then pure (sz, none)
    else do
      uvmclear pagetable (sz1 - (USERSTACK + 1) * PGSIZE)
      let sp ← pushStack p pagetable sz1 argv
      pure (sz1, sp)

/-- The last component of a path, as the name of a process. -/
def programName (path : List UInt8) : List UInt8 :=
  ((path.reverse.takeWhile (· ≠ 47)).reverse).take 15

/-- The words of the trapframe that `exec` sets: program counter, stack pointer and `a1`. -/
def setEntry (trapframe entry sp : ℕ) : VmM Unit := modify fun s =>
  s.setPage trapframe
    ((((s.mem trapframe).setWord 8 15 sp).setWord 8 3 entry).setWord 8 6 sp)

/-- Replace the image of a process; the file is what the path leads to, if anything. -/
def kexec (p : Proc) (path : List UInt8) (file : Option ExecFile) (argv : List (List UInt8)) :
    VmM (ℤ × Proc) :=
  match file with
  | none => pure (-1, p)
  | some file =>
    let header := file.readi 0 elfhdrBytes
    if header.length ≠ elfhdrBytes then pure (-1, p)
    else
      let elf := parseElfHdr header
      if elf.magic ≠ ELF_MAGIC then pure (-1, p)
      else do
        match ← procPagetable p.trapframe with
        | none => pure (-1, p)
        | some pagetable => do
          let (sz, image) ← buildImage p pagetable file elf argv
          match image with
          | none => do
            procFreepagetable pagetable sz
            pure (-1, p)
          | some sp => do
            setEntry p.trapframe elf.entry sp
            procFreepagetable p.pagetable p.sz
            pure (argv.length, { p with
              name := programName path, pagetable := pagetable, sz := sz })

end Xv6
