import Mathlib.Data.List.Induction
import Xv6.Shell.Tokens

/-!
# The grammar of commands

The token lists that stand for a command. A line is made of commands in the background, those of pipes, and
the parts of a pipe are simple commands or lines in parentheses; redirections may stand before, between and
behind the arguments of a simple command and behind the parentheses. Every command has a rendering, with
parentheses where a part could not be read back without them.
-/

namespace Xv6.Shell

open List

/-- The commands of the shell. -/
inductive Cmd
  | exec (argv : List (List Char))
  | redir (cmd : Cmd) (kind : Redirect) (file : List Char)
  | pipe (left right : Cmd)
  | list (left right : Cmd)
  | back (cmd : Cmd)
deriving DecidableEq, Repr

/-- The commands that can be written: with few arguments, and words for arguments and files. -/
def Cmd.Ok : Cmd → Prop
  | .exec argv => argv.length < MAXARGS ∧ ∀ w ∈ argv, WordOk w
  | .redir cmd _ file => cmd.Ok ∧ WordOk file
  | .pipe left right => left.Ok ∧ right.Ok
  | .list left right => left.Ok ∧ right.Ok
  | .back cmd => cmd.Ok

/-- A redirection with its file. -/
abbrev Redir : Type := Redirect × List Char

/-- The tokens of redirections. -/
def redirs (rs : List Redir) : List Token := rs.flatMap fun r => [.redirect r.1, .word r.2]

/-- A command with redirections around it, the first one inside. -/
def wrap (cmd : Cmd) (rs : List Redir) : Cmd := rs.foldl (fun cmd r => .redir cmd r.1 r.2) cmd

/-- Arguments, each with the redirections behind it. -/
abbrev Args : Type := List (List Char × List Redir)

/-- The tokens of arguments. -/
def argTokens (args : Args) : List Token := args.flatMap fun a => .word a.1 :: redirs a.2

/-- The levels of the grammar, from the tightest one on. -/
inductive Level
  | exec
  | pipe
  | amps
  | line
deriving DecidableEq, Repr

/-- The tokens are a text of the command, at a level of the grammar. -/
inductive Derives : Level → List Token → Cmd → Prop
  | simple (rs : List Redir) (args : Args) :
      Derives .exec (redirs rs ++ argTokens args)
        (wrap (.exec (args.map Prod.fst)) (rs ++ args.flatMap Prod.snd))
  | block {toks : List Token} {cmd : Cmd} (rs : List Redir) (h : Derives .line toks cmd) :
      Derives .exec (.left :: toks ++ .right :: redirs rs) (wrap cmd rs)
  | single {toks : List Token} {cmd : Cmd} (h : Derives .exec toks cmd) : Derives .pipe toks cmd
  | pipe {toks toks' : List Token} {left right : Cmd} (hleft : Derives .exec toks left)
      (hright : Derives .pipe toks' right) : Derives .pipe (toks ++ .bar :: toks') (.pipe left right)
  | front {toks : List Token} {cmd : Cmd} (h : Derives .pipe toks cmd) : Derives .amps toks cmd
  | back {toks : List Token} {cmd : Cmd} (h : Derives .amps toks cmd) :
      Derives .amps (toks ++ [.amp]) (.back cmd)
  | last {toks : List Token} {cmd : Cmd} (h : Derives .amps toks cmd) : Derives .line toks cmd
  | list {toks toks' : List Token} {left right : Cmd} (hleft : Derives .amps toks left)
      (hright : Derives .line toks' right) : Derives .line (toks ++ .semi :: toks') (.list left right)

/-- Tokens in parentheses, if they are needed. -/
def parens (needed : Bool) (toks : List Token) : List Token :=
  if needed then .left :: toks ++ [.right] else toks

/-- The tokens of a command at a level, with parentheses only where they are needed. -/
def render : Cmd → Level → List Token
  | .exec argv, _ => argv.map .word
  | .redir cmd kind file, _ => render cmd .exec ++ [.redirect kind, .word file]
  | .pipe left right, level =>
    parens (level = .exec) (render left .exec ++ .bar :: render right .pipe)
  | .back cmd, level => parens (level = .exec ∨ level = .pipe) (render cmd .amps ++ [.amp])
  | .list left right, level => parens (level ≠ .line) (render left .amps ++ .semi :: render right .line)

section Derivations

variable {toks : List Token} {cmd : Cmd} {kind : Redirect} {file : List Char}

theorem wrap_append (rs : List Redir) : wrap cmd (rs ++ [(kind, file)]) = .redir (wrap cmd rs) kind file := by
  rw [wrap, foldl_append]
  rfl

theorem redirs_append (rs : List Redir) :
    redirs (rs ++ [(kind, file)]) = redirs rs ++ [.redirect kind, .word file] := by
  rw [redirs, flatMap_append]
  rfl

/-- A redirection may be written behind a command of the tightest level. -/
theorem Derives.redir (h : Derives .exec toks cmd) :
    Derives .exec (toks ++ [.redirect kind, .word file]) (.redir cmd kind file) := by
  cases h with
  | simple rs args =>
    cases args using List.reverseRecOn with
    | nil =>
      have h := Derives.simple (rs ++ [(kind, file)]) []
      simp only [argTokens, flatMap_nil, append_nil] at h ⊢
      rwa [redirs_append, wrap_append] at h
    | append_singleton args a =>
      have h := Derives.simple rs (args ++ [(a.1, a.2 ++ [(kind, file)])])
      simp only [argTokens, flatMap_append, flatMap_singleton, map_append, map_cons,
        map_nil, redirs_append, ← append_assoc, wrap_append] at h ⊢
      rwa [← cons_append, ← append_assoc] at h
  | block rs h =>
    have h := Derives.block (rs ++ [(kind, file)]) h
    rw [redirs_append, wrap_append] at h
    simp only [cons_append, append_assoc] at h ⊢
    exact h

/-- A command of the tightest level is one of every level. -/
theorem Derives.lift (h : Derives .exec toks cmd) (level : Level) : Derives level toks cmd := by
  cases level with
  | exec => exact h
  | pipe => exact h.single
  | amps => exact h.single.front
  | line => exact h.single.front.last

/-- A line in parentheses is a command of every level. -/
theorem Derives.parens (h : Derives .line toks cmd) (level : Level) :
    Derives level (.left :: toks ++ [.right]) cmd :=
  (Derives.block [] h).lift level

/-- Every command has a rendering at every level. -/
theorem render_derives (cmd : Cmd) (level : Level) : Derives level (render cmd level) cmd := by
  induction cmd generalizing level with
  | exec argv =>
    have h := Derives.simple [] (argv.map (·, []))
    have hargs : argTokens (argv.map (·, [])) = argv.map .word := by
      rw [argTokens, flatMap_map, map_eq_flatMap]
      rfl
    have hnone : (argv.map (·, ([] : List Redir))).flatMap Prod.snd = [] := by
      rw [flatMap_map]
      exact flatMap_eq_nil_iff.2 fun _ _ => rfl
    rw [hargs, hnone, map_map] at h
    simp only [Function.comp_def, map_id'] at h
    exact h.lift level
  | redir cmd kind file ih => exact (ih .exec).redir.lift level
  | pipe left right ihl ihr =>
    have h := Derives.pipe (ihl .exec) (ihr .pipe)
    cases level with
    | exec => exact h.front.last.parens .exec
    | pipe => exact h
    | amps => exact h.front
    | line => exact h.front.last
  | list left right ihl ihr =>
    have h := Derives.list (ihl .amps) (ihr .line)
    cases level with
    | exec => exact h.parens .exec
    | pipe => exact h.parens .pipe
    | amps => exact h.parens .amps
    | line => exact h
  | back cmd ih =>
    have h := (ih .amps).back
    cases level with
    | exec => exact h.last.parens .exec
    | pipe => exact h.last.parens .pipe
    | amps => exact h
    | line => exact h.last

end Derivations

end Xv6.Shell
