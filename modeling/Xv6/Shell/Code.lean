import Mathlib.Data.Nat.Notation
import Mathlib.Logic.Function.Basic

/-!
# The parser of the shell

The recursive descent parser of `user/sh.c`. The text of a command is in memory, from an address up to a
NUL; tokens are pairs of addresses in it. The nodes of the command are allocated one after the other, so a
pointer to a node is its number, and a node is filled in while other nodes point to it already. A loop or
a recursion that runs out of fuel stops without a result.
-/

namespace Xv6.Shell

/-- The character that ends a string. -/
def NUL : Char := Char.ofNat 0

/-- The characters between tokens. -/
def whitespace : List Char := [' ', '\t', '\r', '\n', Char.ofNat 11]

/-- The characters that are tokens, or start them. -/
def symbols : List Char := ['<', '|', '>', '&', ';', '(', ')']

/-- The characters of memory. -/
abbrev Memory : Type := ℕ → Char

/-- Whether a string has a character. -/
def strchr (s : List Char) (c : Char) : Bool := s.contains c

/-- Go on while the characters are of a kind, at most `n` of them. -/
def skip (p : Char → Bool) (mem : Memory) : ℕ → ℕ → ℕ
  | 0, s => s
  | n + 1, s => if p (mem s) then skip p mem n (s + 1) else s

/-- Go on to the next token, or to the end of the text. -/
def skipSpace (mem : Memory) (es s : ℕ) : ℕ := skip (strchr whitespace) mem (es - s) s

/-- A character in the middle of a word. -/
def inWord (c : Char) : Bool := !strchr whitespace c && !strchr symbols c

/-- What `gettoken` has found: the kind of the token, where it starts and ends, and where the next one is. -/
structure Got where
  ret : Char
  q : ℕ
  eq : ℕ
  s : ℕ
deriving DecidableEq, Repr

/-- The kind of the token at an address, and where it ends. -/
def scan (mem : Memory) (es s : ℕ) : Char × ℕ :=
  if mem s = NUL then (mem s, s)
  else if strchr ['|', '(', ')', ';', '&', '<'] (mem s) then (mem s, s + 1)
  else if mem s = '>' then if mem (s + 1) = '>' then ('+', s + 2) else (mem s, s + 1)
  else ('a', skip inWord mem (es - s) s)

/-- Read a token. -/
def gettoken (mem : Memory) (es s : ℕ) : Got :=
  let s := skipSpace mem es s
  let t := scan mem es s
  ⟨t.1, s, t.2, skipSpace mem es t.2⟩

/-- Whether the next token starts with one of some characters, and where it is. -/
def peek (mem : Memory) (es s : ℕ) (toks : List Char) : Bool × ℕ :=
  let s := skipSpace mem es s
  (mem s ≠ NUL && strchr toks (mem s), s)

/-- The most entries of `argv`. -/
abbrev MAXARGS : ℕ := 10

/-- The nodes of a command. The arguments of `exec` are pairs from `argv` and `eargv`, up to the null
pointer. -/
inductive Node
  | exec (args : List (ℕ × ℕ))
  | redir (cmd file efile mode fd : ℕ)
  | pipe (left right : ℕ)
  | list (left right : ℕ)
  | back (cmd : ℕ)
deriving DecidableEq, Repr

/-- Why there is no command. -/
inductive Stop
  | fuel
  | fault
  | panic (msg : String)
deriving DecidableEq, Repr

/-- The cursor and the nodes. -/
structure Parser where
  s : ℕ
  nodes : List Node

/-- A step of the parser. -/
abbrev Parse : Type → Type := StateT Parser (Except Stop)

/-- Stop the shell. -/
def fail {α : Type} (e : Stop) : Parse α := fun _ => .error e

/-- Allocate a node. -/
def alloc (node : Node) : Parse ℕ := fun σ =>
  .ok (σ.nodes.length, { σ with nodes := σ.nodes ++ [node] })

/-- An `exec` node without arguments. -/
def execcmd : Parse ℕ := alloc (.exec [])

/-- A node for a redirection. -/
def redircmd (cmd file efile mode fd : ℕ) : Parse ℕ := alloc (.redir cmd file efile mode fd)

/-- A node for a pipe. -/
def pipecmd (left right : ℕ) : Parse ℕ := alloc (.pipe left right)

/-- A node for a list. -/
def listcmd (left right : ℕ) : Parse ℕ := alloc (.list left right)

/-- A node for a command in the background. -/
def backcmd (cmd : ℕ) : Parse ℕ := alloc (.back cmd)

/-- One more argument of an `exec` node. -/
def Node.addArg (arg : ℕ × ℕ) : Node → Node
  | .exec args => .exec (args ++ [arg])
  | node => node

/-- Write the next entries of `argv` and `eargv`. -/
def setArg (cmd : ℕ) (arg : ℕ × ℕ) : Parse Unit := fun σ =>
  .ok ((), { σ with nodes := σ.nodes.modify cmd (Node.addArg arg) })

abbrev O_RDONLY : ℕ := 0x000
abbrev O_WRONLY : ℕ := 0x001
abbrev O_CREATE : ℕ := 0x200
abbrev O_TRUNC : ℕ := 0x400

/-- The node for a redirection of a kind. -/
def redirect (tok : Char) (cmd file efile : ℕ) : Parse ℕ :=
  if tok = '<' then redircmd cmd file efile O_RDONLY 0
  else if tok = '>' then redircmd cmd file efile (O_WRONLY ||| O_CREATE ||| O_TRUNC) 1
  else if tok = '+' then redircmd cmd file efile (O_WRONLY ||| O_CREATE) 1
  else pure cmd

section Text

variable (mem : Memory) (es : ℕ)

/-- `peek` at the cursor. -/
def look (toks : List Char) : Parse Bool := fun σ =>
  let r := peek mem es σ.s toks
  .ok (r.1, { σ with s := r.2 })

/-- `gettoken` at the cursor. -/
def next : Parse Got := fun σ =>
  let t := gettoken mem es σ.s
  .ok (t, { σ with s := t.s })

/-- Redirections, around a command. -/
def parseredirs : ℕ → ℕ → Parse ℕ
  | 0, _ => fail .fuel
  | fuel + 1, cmd => do
    if ← look mem es ['<', '>'] then
      let tok ← next mem es
      let file ← next mem es
      if file.ret ≠ 'a' then fail (.panic "missing file for redirection")
      else
        let cmd ← redirect tok.ret cmd file.q file.eq
        parseredirs fuel cmd
    else pure cmd

/-- The loop of `parseexec`: arguments, with redirections between them. -/
def parseargs : ℕ → ℕ → ℕ → ℕ → Parse ℕ
  | 0, _, _, _ => fail .fuel
  | fuel + 1, cmd, argc, ret => do
    if ← look mem es ['|', ')', '&', ';'] then pure ret
    else
      let tok ← next mem es
      if tok.ret = NUL then pure ret
      else if tok.ret ≠ 'a' then fail (.panic "syntax")
      else
        setArg cmd (tok.q, tok.eq)
        if MAXARGS ≤ argc + 1 then fail (.panic "too many args")
        else
          let ret ← parseredirs mem es fuel ret
          parseargs fuel cmd (argc + 1) ret

/-- The loop of `parseline`: ampersands. -/
def parseamps : ℕ → ℕ → Parse ℕ
  | 0, _ => fail .fuel
  | fuel + 1, cmd => do
    if ← look mem es ['&'] then
      let _ ← next mem es
      let cmd ← backcmd cmd
      parseamps fuel cmd
    else pure cmd

mutual

/-- Commands with semicolons between them, and ampersands behind them. -/
def parseline : ℕ → Parse ℕ
  | 0 => fail .fuel
  | fuel + 1 => do
    let cmd ← parsepipe fuel
    let cmd ← parseamps mem es fuel cmd
    if ← look mem es [';'] then
      let _ ← next mem es
      let right ← parseline fuel
      listcmd cmd right
    else pure cmd

/-- Commands with bars between them. -/
def parsepipe : ℕ → Parse ℕ
  | 0 => fail .fuel
  | fuel + 1 => do
    let cmd ← parseexec fuel
    if ← look mem es ['|'] then
      let _ ← next mem es
      let right ← parsepipe fuel
      pipecmd cmd right
    else pure cmd

/-- A command in parentheses, with redirections behind it. -/
def parseblock : ℕ → Parse ℕ
  | 0 => fail .fuel
  | fuel + 1 => do
    if ← look mem es ['('] then
      let _ ← next mem es
      let cmd ← parseline fuel
      if ← look mem es [')'] then
        let _ ← next mem es
        parseredirs mem es fuel cmd
      else fail (.panic "syntax - missing )")
    else fail (.panic "parseblock")

/-- A command in parentheses, or arguments and redirections. -/
def parseexec : ℕ → Parse ℕ
  | 0 => fail .fuel
  | fuel + 1 => do
    if ← look mem es ['('] then parseblock fuel
    else
      let cmd ← execcmd
      let ret ← parseredirs mem es fuel cmd
      parseargs mem es fuel cmd 0 ret

end

end Text

/-- The length of a string. -/
def strlen (mem : Memory) : ℕ → ℕ → Except Stop ℕ
  | 0, _ => .error .fuel
  | fuel + 1, s => if mem s = NUL then .ok 0 else do
    let n ← strlen mem fuel (s + 1)
    .ok (n + 1)

/-- Write the NUL behind every word of a command. -/
def nulterminate (nodes : List Node) : ℕ → ℕ → Memory → Except Stop Memory
  | 0, _, _ => .error .fuel
  | fuel + 1, cmd, mem =>
    match nodes[cmd]? with
    | none => .error .fault
    | some (.exec args) => .ok (args.foldl (fun mem arg => Function.update mem arg.2 NUL) mem)
    | some (.redir cmd _ efile _ _) => do
      let mem ← nulterminate nodes fuel cmd mem
      .ok (Function.update mem efile NUL)
    | some (.pipe left right) => do
      let mem ← nulterminate nodes fuel left mem
      nulterminate nodes fuel right mem
    | some (.list left right) => do
      let mem ← nulterminate nodes fuel left mem
      nulterminate nodes fuel right mem
    | some (.back cmd) => nulterminate nodes fuel cmd mem

/-- Parse the string at an address: the node of the command, all nodes, and memory with the NULs. -/
def parsecmd (fuel : ℕ) (mem : Memory) (s : ℕ) : Except Stop (ℕ × List Node × Memory) := do
  let n ← strlen mem fuel s
  let es := s + n
  let (cmd, σ) ← parseline mem es fuel ⟨s, []⟩
  let (_, σ) ← look mem es [] σ
  if σ.s ≠ es then .error (.panic "syntax")
  else
    let mem ← nulterminate σ.nodes fuel cmd mem
    .ok (cmd, σ.nodes, mem)

end Xv6.Shell
