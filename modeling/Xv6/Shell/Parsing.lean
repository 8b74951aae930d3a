import Mathlib.Data.List.Forall2
import Xv6.Library.Fuel
import Xv6.Shell.Grammar

/-!
# What the parser makes of tokens

With enough fuel the parser reads the tokens that the grammar derives for a command, up to what follows
them, and builds nodes that represent the command. The nodes that were there before stay as they are; the
node of a simple command is filled in while redirections point to it.
-/

namespace Xv6.Shell

open Library List

/-- The flags that a redirection opens its file with. -/
def Redirect.mode : Redirect → ℕ
  | .input => O_RDONLY
  | .output => O_WRONLY ||| O_CREATE ||| O_TRUNC
  | .append => O_WRONLY ||| O_CREATE

/-- The file descriptor of a redirection. -/
def Redirect.fd : Redirect → ℕ
  | .input => 0
  | .output => 1
  | .append => 1

/-- The node stands for the command, with its words in memory. -/
def Rep (mem : Memory) (nodes : List Node) : ℕ → Cmd → Prop
  | p, .exec argv => ∃ args, nodes[p]? = some (.exec args) ∧
      List.Forall₂ (fun a w => WordAt mem a.1 a.2 w) args argv
  | p, .redir cmd kind file => ∃ sub q eq, nodes[p]? = some (.redir sub q eq kind.mode kind.fd) ∧
      WordAt mem q eq file ∧ Rep mem nodes sub cmd
  | p, .pipe left right => ∃ a b, nodes[p]? = some (.pipe a b) ∧ Rep mem nodes a left ∧ Rep mem nodes b right
  | p, .list left right => ∃ a b, nodes[p]? = some (.list a b) ∧ Rep mem nodes a left ∧ Rep mem nodes b right
  | p, .back cmd => ∃ sub, nodes[p]? = some (.back sub) ∧ Rep mem nodes sub cmd

/-- The nodes of one list are in another one. -/
def Keeps (nodes nodes' : List Node) : Prop := ∀ (i : ℕ) (node : Node), nodes[i]? = some node → nodes'[i]? = some node

theorem Keeps.refl (nodes : List Node) : Keeps nodes nodes := fun _ _ h => h

theorem Keeps.trans {nodes nodes' nodes'' : List Node} (h : Keeps nodes nodes') (h' : Keeps nodes' nodes'') :
    Keeps nodes nodes'' := fun i node hi => h' i node (h i node hi)

theorem keeps_append (nodes : List Node) (node : Node) : Keeps nodes (nodes ++ [node]) := by
  intro i n hi
  rw [List.getElem?_append_left (List.getElem?_eq_some_iff.1 hi).1]
  exact hi

variable {mem : Memory} {es : ℕ} {nodes nodes' : List Node} {s : ℕ} {toks rest : List Token} {cmd : Cmd}

/-- More nodes do not change what a node stands for. -/
theorem Rep.keeps (hk : Keeps nodes nodes') {p : ℕ} (h : Rep mem nodes p cmd) : Rep mem nodes' p cmd := by
  induction cmd generalizing p with
  | exec argv =>
    obtain ⟨args, hp, hargs⟩ := h
    exact ⟨args, hk _ _ hp, hargs⟩
  | redir cmd kind file ih =>
    obtain ⟨sub, q, eq, hp, hfile, hsub⟩ := h
    exact ⟨sub, q, eq, hk _ _ hp, hfile, ih hsub⟩
  | pipe left right ihl ihr | list left right ihl ihr =>
    obtain ⟨a, b, hp, hl, hr⟩ := h
    exact ⟨a, b, hk _ _ hp, ihl hl, ihr hr⟩
  | back cmd ih =>
    obtain ⟨sub, hp, hsub⟩ := h
    exact ⟨sub, hk _ _ hp, ih hsub⟩

/-- Redirections around a node. -/
inductive Around (mem : Memory) (nodes : List Node) (cmd : ℕ) : ℕ → List Redir → Prop
  | nil : Around mem nodes cmd cmd []
  | snoc {p ret q eq : ℕ} {rs : List Redir} {kind : Redirect} {file : List Char}
      (h : Around mem nodes cmd p rs) (hret : nodes[ret]? = some (.redir p q eq kind.mode kind.fd))
      (hfile : WordAt mem q eq file) : Around mem nodes cmd ret (rs ++ [(kind, file)])

variable {rs : List Redir} {ret : ℕ}

/-- Redirections stay where they are if their nodes do. -/
theorem Around.keeps {cmd : ℕ}
    (hk : ∀ i sub q eq mode fd : ℕ, nodes[i]? = some (Node.redir sub q eq mode fd) →
      nodes'[i]? = some (Node.redir sub q eq mode fd))
    (h : Around mem nodes cmd ret rs) : Around mem nodes' cmd ret rs := by
  induction h with
  | nil => exact .nil
  | snoc h hret hfile ih => exact .snoc ih (hk _ _ _ _ _ _ hret) hfile

/-- The outermost redirection stands for the command with all of them around it. -/
theorem Around.rep {p : ℕ} (h : Around mem nodes p ret rs)
    (hcmd : Rep mem nodes p cmd) : Rep mem nodes ret (wrap cmd rs) := by
  induction h with
  | nil => exact hcmd
  | snoc h hret hfile ih =>
    rw [wrap_append]
    exact ⟨_, _, _, hret, hfile, ih⟩

/-- A step that succeeds is followed by the next one. -/
theorem bind_ok {α β : Type} {m : Parse α} {f : α → Parse β} {a : α} {σ σ' : Parser} (h : m σ = .ok (a, σ')) :
    (m >>= f) σ = f a σ' := by
  change (m σ >>= fun x => f x.1 x.2) = f a σ'
  rw [h]
  rfl

variable {chars : List Char}

/-- Looking at the first token. -/
theorem look_eq (h : At mem es s toks) (nodes : List Node) {b : Bool} (hb : starts chars toks = b) :
    ∃ s', look mem es chars ⟨s, nodes⟩ = .ok (b, ⟨s', nodes⟩) ∧ At mem es s' toks := by
  obtain ⟨hstarts, hready⟩ := peek_spec h chars
  exact ⟨_, congrArg (fun b => Except.ok (b, _)) (hstarts.trans hb), hready.at⟩

variable {tok : Token}

/-- Taking the first token. -/
theorem next_eq (h : At mem es s (tok :: toks)) (nodes : List Node) :
    ∃ g, next mem es ⟨s, nodes⟩ = .ok (g, ⟨g.s, nodes⟩) ∧ g.ret = tok.ret ∧ At mem es g.s toks ∧
      ∀ w, tok = .word w → WordAt mem g.q g.eq w := by
  obtain ⟨hret, hready, hword⟩ := gettoken_spec h
  exact ⟨_, rfl, hret, hready.at, hword⟩

/-- Taking the first token when it is the one looked for. -/
theorem take_eq (h : At mem es s (tok :: toks)) (nodes : List Node) (hb : starts chars [tok] = true) :
    ∃ s₁ g, look mem es chars ⟨s, nodes⟩ = .ok (true, ⟨s₁, nodes⟩) ∧
      next mem es ⟨s₁, nodes⟩ = .ok (g, ⟨g.s, nodes⟩) ∧ At mem es g.s toks := by
  obtain ⟨s₁, hlook, hat⟩ := look_eq h nodes hb
  obtain ⟨g, hnext, -, hat', -⟩ := next_eq hat nodes
  exact ⟨s₁, g, hlook, hnext, hat'⟩

variable {w : List Char}

theorem At.wordOk (h : At mem es s toks) (hw : .word w ∈ toks) : WordOk w := by
  obtain ⟨t, ht, -⟩ := h
  exact ht.wordOk hw

/-- A redirection makes the node for it. -/
theorem redirect_eq (kind : Redirect) (cmd q eq : ℕ) :
    redirect (Token.redirect kind).ret cmd q eq = alloc (.redir cmd q eq kind.mode kind.fd) := by
  cases kind <;> rfl

theorem alloc_eq (node : Node) : alloc node ⟨s, nodes⟩ = .ok (nodes.length, ⟨s, nodes ++ [node]⟩) := rfl

theorem getElem?_alloc (nodes : List Node) (node : Node) : (nodes ++ [node])[nodes.length]? = some node := by
  rw [List.getElem?_append_right le_rfl, Nat.sub_self]
  rfl

variable {done : List Redir}

/-- Redirections are read up to the first other token. -/
theorem parseredirs_spec {cmd : ℕ} (hat : At mem es s (redirs rs ++ rest))
    (hrest : starts ['<', '>'] rest = false) (haround : Around mem nodes cmd ret done) :
    ∃ ret' s' nodes', (Settles (parseredirs mem es · ret ⟨s, nodes⟩) (.ok (ret', ⟨s', nodes'⟩))) ∧
      At mem es s' rest ∧ Keeps nodes nodes' ∧ Around mem nodes' cmd ret' (done ++ rs) := by
  induction rs generalizing s nodes ret done with
  | nil =>
    have hat : At mem es s rest := hat
    obtain ⟨s', hlook, hat'⟩ := look_eq hat nodes hrest
    refine ⟨ret, s', nodes, ?_, hat', Keeps.refl _, ?_⟩
    · refine settles_of_succ fun n => ?_
      rw [parseredirs, bind_ok hlook]
      rfl
    · rw [append_nil]
      exact haround
  | cons r rs ih =>
    obtain ⟨kind, file⟩ := r
    have hat : At mem es s (.redirect kind :: .word file :: (redirs rs ++ rest)) := hat
    have hstarts : starts ['<', '>'] (.redirect kind :: .word file :: (redirs rs ++ rest)) = true := by
      cases kind <;> rfl
    obtain ⟨s₁, hlook, hat₁⟩ := look_eq hat nodes hstarts
    obtain ⟨tok, htok, hkind, hat₂, -⟩ := next_eq hat₁ nodes
    obtain ⟨g, hfile, hret, hat₃, hword⟩ := next_eq hat₂ nodes
    have hret : ¬ g.ret ≠ 'a' := fun hne => hne hret
    have hnew : Around mem (nodes ++ [.redir ret g.q g.eq kind.mode kind.fd]) cmd nodes.length
        (done ++ [(kind, file)]) := by
      refine .snoc (haround.keeps fun i _ _ _ _ _ h => keeps_append _ _ i _ h) ?_ (hword file rfl)
      exact getElem?_alloc _ _
    obtain ⟨ret', s', nodes', hrun, hend, hkeeps, haround'⟩ := ih hat₃ hnew
    refine ⟨ret', s', nodes', hrun.succ fun n hn => ?_, hend, (keeps_append _ _).trans hkeeps, ?_⟩
    · rw [parseredirs, bind_ok hlook, if_pos rfl, bind_ok htok, bind_ok hfile, if_neg hret, hkind,
        redirect_eq, bind_ok (alloc_eq _), hn]
    · rwa [append_assoc] at haround'

/-- The tokens that may follow a part of a line. -/
def Level.follow : Level → List Token
  | .exec => [.bar, .amp, .semi, .right]
  | .pipe | .amps => [.amp, .semi, .right]
  | .line => [.right]

/-- What follows a part of a line: nothing, or one of the tokens that may follow it. -/
def Follows (level : Level) (rest : List Token) : Prop := ∀ tok ∈ rest.head?, tok ∈ level.follow

variable {level : Level}

theorem Follows.cons (h : tok ∈ level.follow) : Follows level (tok :: rest) := by
  intro tok' htok
  exact Option.some.inj htok ▸ h

/-- What follows does not start with characters with which none of its tokens starts. -/
theorem Follows.starts_eq_false (h : Follows level rest)
    (hchars : ∀ tok ∈ level.follow, starts chars [tok] = false) : starts chars rest = false := by
  cases rest with
  | nil => rfl
  | cons tok toks => exact hchars tok (h tok rfl)

variable {args : Args}

/-- The next argument, or what follows the last one, is not one of some symbols. -/
theorem starts_args (hwords : ∀ a ∈ args, WordOk a.1) (hrest : Follows .exec rest)
    (hchars : chars.all (strchr symbols) = true)
    (hfollow : ∀ tok ∈ Level.follow .exec, starts chars [tok] = false) :
    starts chars (argTokens args ++ rest) = false := by
  cases args with
  | nil => exact hrest.starts_eq_false hfollow
  | cons a args => exact starts_word (hwords a mem_cons_self) hchars

/-- The arguments of a text are words. -/
theorem At.argsOk {before : List Token} (h : At mem es s (before ++ (argTokens args ++ rest))) :
    ∀ a ∈ args, WordOk a.1 := by
  intro a ha
  refine h.wordOk (mem_append_right _ (mem_append_left _ ?_))
  exact mem_flatMap.2 ⟨a, ha, mem_cons_self⟩

/-- The node of a simple command with the arguments that it has so far. -/
structure Filled (mem : Memory) (nodes : List Node) (cmd : ℕ) (argv : List (List Char)) (ret : ℕ)
    (rs : List Redir) : Prop where
  node : Rep mem nodes cmd (.exec argv)
  around : Around mem nodes cmd ret rs

variable {argv : List (List Char)}

/-- An argument goes into the node, and the redirections around it stay. -/
theorem Filled.addArg {cmd q eq : ℕ} (h : Filled mem nodes cmd argv ret rs) (hw : WordAt mem q eq w) :
    Filled mem (nodes.modify cmd (Node.addArg (q, eq))) cmd (argv ++ [w]) ret rs := by
  obtain ⟨args, hnode, hargs⟩ := h.node
  refine ⟨⟨args ++ [(q, eq)], ?_, ?_⟩, h.around.keeps fun i sub q' eq' mode fd hi => ?_⟩
  · rw [List.getElem?_modify_eq, hnode]
    rfl
  · exact rel_append hargs (.cons hw .nil)
  · rw [List.getElem?_modify, hi]
    split <;> rfl

/-- Arguments are read up to a token that ends the command. -/
theorem parseargs_spec {cmd argc : ℕ} (hat : At mem es s (argTokens args ++ rest)) (hrest : Follows .exec rest)
    (hfilled : Filled mem nodes cmd argv ret done) (hargc : argc + args.length < MAXARGS) :
    ∃ ret' s' nodes',
      (Settles (parseargs mem es · cmd argc ret ⟨s, nodes⟩) (.ok (ret', ⟨s', nodes'⟩))) ∧
      At mem es s' rest ∧ (∀ (i : ℕ) (node : Node), i ≠ cmd → nodes[i]? = some node → nodes'[i]? = some node) ∧
      Filled mem nodes' cmd (argv ++ args.map Prod.fst) ret' (done ++ args.flatMap Prod.snd) := by
  induction args generalizing s nodes ret argc argv done with
  | nil =>
    have hat : At mem es s rest := hat
    have hdone : Filled mem nodes cmd (argv ++ []) ret (done ++ []) := by
      rw [append_nil, append_nil]
      exact hfilled
    cases rest with
    | nil =>
      -- at the end of the text `gettoken` returns 0
      obtain ⟨s₁, hlook, hat₁⟩ := look_eq hat nodes (rfl : starts ['|', ')', '&', ';'] [] = false)
      obtain ⟨hret, hend⟩ := gettoken_end hat₁
      have hnext : next mem es ⟨s₁, nodes⟩ = .ok (gettoken mem es s₁, ⟨(gettoken mem es s₁).s, nodes⟩) := rfl
      refine ⟨ret, _, nodes, settles_of_succ fun n => ?_, hend.at, fun _ _ _ h => h, hdone⟩
      rw [parseargs, bind_ok hlook, if_neg (by decide), bind_ok hnext, if_pos hret]
      rfl
    | cons tok toks =>
      have hstarts : starts ['|', ')', '&', ';'] (tok :: toks) = true := by
        have hall : ∀ tok ∈ Level.follow .exec, starts ['|', ')', '&', ';'] [tok] = true := by decide
        exact hall tok (hrest tok rfl)
      obtain ⟨s₁, hlook, hat₁⟩ := look_eq hat nodes hstarts
      refine ⟨ret, s₁, nodes, settles_of_succ fun n => ?_, hat₁, fun _ _ _ h => h, hdone⟩
      rw [parseargs, bind_ok hlook, if_pos rfl]
      rfl
  | cons a args ih =>
    obtain ⟨w, rs⟩ := a
    have hat : At mem es s (.word w :: (redirs rs ++ (argTokens args ++ rest))) := by
      rw [← append_assoc]
      exact hat
    have hword : starts ['|', ')', '&', ';'] (.word w :: (redirs rs ++ (argTokens args ++ rest))) = false :=
      starts_word (hat.wordOk mem_cons_self) (by decide)
    obtain ⟨s₁, hlook, hat₁⟩ := look_eq hat nodes hword
    obtain ⟨tok, hnext, hret, hat₂, hword⟩ := next_eq hat₁ nodes
    have hret : tok.ret = 'a' := hret
    have hnul : tok.ret ≠ NUL := hret ▸ by decide
    have hset : setArg cmd (tok.q, tok.eq) ⟨tok.s, nodes⟩ =
        .ok ((), ⟨tok.s, nodes.modify cmd (Node.addArg (tok.q, tok.eq))⟩) := rfl
    have hadd := hfilled.addArg (hword w rfl)
    have hargc : argc + 1 + args.length < MAXARGS := by
      rw [length_cons] at hargc
      omega
    have hstarts : starts ['<', '>'] (argTokens args ++ rest) = false :=
      starts_args hat₂.argsOk hrest (by decide) (by decide)
    obtain ⟨ret₁, s₂, nodes₂, hredirs, hat₃, hkeeps, haround⟩ := parseredirs_spec hat₂ hstarts hadd.around
    obtain ⟨ret', s', nodes', hargs, hend, hothers, hfilled'⟩ := ih hat₃ ⟨hadd.node.keeps hkeeps, haround⟩ hargc
    refine ⟨ret', s', nodes', hredirs.succ₂ hargs fun n hn hn' => ?_, hend, ?_, ?_⟩
    · rw [parseargs, bind_ok hlook, if_neg (by decide), bind_ok hnext, if_neg hnul,
        if_neg (not_not.2 hret), bind_ok hset, if_neg (by omega), bind_ok hn, hn']
    · intro i node hne hi
      refine hothers i node hne (hkeeps i node ?_)
      rw [List.getElem?_modify, hi]
      exact congrArg some (if_neg hne.symm)
    · rw [append_assoc, append_assoc] at hfilled'
      exact hfilled'

/-- The parser gets from one state to another one by reading a part of a line. At the level of ampersands
it is in the middle of `parseline`, about to look for the next one. -/
def Reaches (mem : Memory) (es : ℕ) (level : Level) (p : ℕ) (σ σ' : Parser) : Prop :=
  match level with
  | .exec => Settles (parseexec mem es · σ) (.ok (p, σ'))
  | .pipe => Settles (parsepipe mem es · σ) (.ok (p, σ'))
  | .amps => ∀ r, (Settles (parseamps mem es · p σ') r) →
      Settles (fun n => (parsepipe mem es n >>= parseamps mem es n) σ) r
  | .line => Settles (parseline mem es · σ) (.ok (p, σ'))

/-- The parser reads the tokens as a text of the command, whatever may follow them. -/
def Parsed (mem : Memory) (es : ℕ) (level : Level) (toks : List Token) (cmd : Cmd) : Prop :=
  ∀ s nodes rest, Follows level rest → At mem es s (toks ++ rest) →
    ∃ p s' nodes', Reaches mem es level p ⟨s, nodes⟩ ⟨s', nodes'⟩ ∧ At mem es s' rest ∧
      Keeps nodes nodes' ∧ Rep mem nodes' p cmd

/-- A simple command. -/
theorem parsed_simple (hargs : args.length < MAXARGS) :
    Parsed mem es .exec (redirs rs ++ argTokens args)
      (wrap (.exec (args.map Prod.fst)) (rs ++ args.flatMap Prod.snd)) := by
  intro s nodes rest hrest hat
  rw [append_assoc] at hat
  have hleft : starts ['('] (redirs rs ++ (argTokens args ++ rest)) = false := by
    cases rs with
    | nil => exact starts_args hat.argsOk hrest (by decide) (by decide)
    | cons r rs =>
      obtain ⟨kind, file⟩ := r
      cases kind <;> rfl
  obtain ⟨s₁, hlook, hat₁⟩ := look_eq hat nodes hleft
  have hstarts : starts ['<', '>'] (argTokens args ++ rest) = false :=
    starts_args hat.argsOk hrest (by decide) (by decide)
  obtain ⟨ret, s₂, nodes₂, hredirs, hat₂, hkeeps, haround⟩ := parseredirs_spec hat₁ hstarts
    (.nil : Around mem (nodes ++ [.exec []]) nodes.length nodes.length [])
  have hnode : Rep mem nodes₂ nodes.length (.exec []) := Rep.keeps hkeeps ⟨[], getElem?_alloc _ _, .nil⟩
  obtain ⟨ret', s', nodes', hrun, hend, hothers, hfilled⟩ := parseargs_spec hat₂ hrest ⟨hnode, haround⟩
    ((Nat.zero_add _).trans_lt hargs)
  refine ⟨ret', s', nodes', hredirs.succ₂ hrun fun n hn hn' => ?_, hend, ?_, hfilled.around.rep hfilled.node⟩
  · have hexec : execcmd ⟨s₁, nodes⟩ = .ok (nodes.length, ⟨s₁, nodes ++ [.exec []]⟩) := rfl
    rw [parseexec, bind_ok hlook, if_neg (by decide), bind_ok hexec, bind_ok hn, hn']
  · intro i node hi
    have hlt : i < nodes.length := (List.getElem?_eq_some_iff.1 hi).1
    exact hothers i node hlt.ne (hkeeps i node (keeps_append _ _ i node hi))

/-- A line in parentheses, with redirections behind it. -/
theorem parsed_block (h : Parsed mem es .line toks cmd) :
    Parsed mem es .exec (.left :: toks ++ .right :: redirs rs) (wrap cmd rs) := by
  intro s nodes rest hrest hat
  have hat : At mem es s (.left :: (toks ++ .right :: (redirs rs ++ rest))) := by
    rw [cons_append, cons_append, append_assoc] at hat
    exact hat
  have hleft : starts ['('] [.left] = true := by decide
  obtain ⟨s₁, hlook₁, hat₁⟩ := look_eq hat nodes hleft
  obtain ⟨s₂, tok, hlook₂, hnext, hat₂⟩ := take_eq hat₁ nodes hleft
  have hright : Follows .line (.right :: (redirs rs ++ rest)) := .cons (by decide)
  obtain ⟨p, s₃, nodes₃, hline, hat₃, hkeeps, hrep⟩ := h tok.s nodes _ hright hat₂
  obtain ⟨s₄, tok', hlook₃, hnext', hat₄⟩ := take_eq hat₃ nodes₃ (by decide : starts [')'] [.right] = true)
  obtain ⟨ret, s', nodes', hredirs, hend, hkeeps', haround⟩ := parseredirs_spec hat₄
    (hrest.starts_eq_false (by decide)) (.nil : Around mem nodes₃ p p [])
  have hblock : Settles (parseblock mem es · ⟨s₁, nodes⟩) (.ok (ret, ⟨s', nodes'⟩)) := by
    have hline : Settles (parseline mem es · ⟨tok.s, nodes⟩) (.ok (p, ⟨s₃, nodes₃⟩)) := hline
    refine hline.succ₂ hredirs fun n hn hn' => ?_
    rw [parseblock, bind_ok hlook₂, if_pos rfl, bind_ok hnext, bind_ok hn, bind_ok hlook₃, if_pos rfl,
      bind_ok hnext', hn']
  refine ⟨ret, s', nodes', hblock.succ fun n hn => ?_, hend, hkeeps.trans hkeeps', haround.rep (hrep.keeps hkeeps')⟩
  rw [parseexec, bind_ok hlook₁, if_pos rfl, hn]

/-- A pipe of one part. -/
theorem parsed_single (h : Parsed mem es .exec toks cmd) : Parsed mem es .pipe toks cmd := by
  intro s nodes rest hrest hat
  have hfollow : Follows .exec rest := fun tok htok => mem_cons_of_mem _ (hrest tok htok)
  obtain ⟨p, s₁, nodes₁, hexec, hat₁, hkeeps, hrep⟩ := h s nodes rest hfollow hat
  have hbar : starts ['|'] rest = false := hrest.starts_eq_false (by decide)
  obtain ⟨s₂, hlook, hat₂⟩ := look_eq hat₁ nodes₁ hbar
  have hexec : Settles (parseexec mem es · ⟨s, nodes⟩) (.ok (p, ⟨s₁, nodes₁⟩)) := hexec
  refine ⟨p, s₂, nodes₁, hexec.succ fun n hn => ?_, hat₂, hkeeps, hrep⟩
  rw [parsepipe, bind_ok hn, bind_ok hlook]
  rfl

variable {toks' : List Token} {right : Cmd}

/-- A pipe of more parts. -/
theorem parsed_pipe {left : Cmd} (hleft : Parsed mem es .exec toks left)
    (hright : Parsed mem es .pipe toks' right) :
    Parsed mem es .pipe (toks ++ .bar :: toks') (.pipe left right) := by
  intro s nodes rest hrest hat
  rw [append_assoc] at hat
  have hbar : Follows .exec (.bar :: toks' ++ rest) := .cons (by decide)
  obtain ⟨p, s₁, nodes₁, hexec, hat₁, hkeeps₁, hrep₁⟩ := hleft s nodes _ hbar hat
  obtain ⟨s₂, tok, hlook, hnext, hat₂⟩ := take_eq hat₁ nodes₁ (by decide : starts ['|'] [.bar] = true)
  obtain ⟨q, s', nodes₂, hpipe, hend, hkeeps₂, hrep₂⟩ := hright tok.s nodes₁ rest hrest hat₂
  have hkeeps₃ := keeps_append nodes₂ (.pipe p q)
  have hexec : Settles (parseexec mem es · ⟨s, nodes⟩) (.ok (p, ⟨s₁, nodes₁⟩)) := hexec
  have hpipe : Settles (parsepipe mem es · ⟨tok.s, nodes₁⟩) (.ok (q, ⟨s', nodes₂⟩)) := hpipe
  refine ⟨nodes₂.length, s', nodes₂ ++ [.pipe p q], hexec.succ₂ hpipe fun n hn hn' => ?_, hend,
    (hkeeps₁.trans hkeeps₂).trans hkeeps₃, p, q, getElem?_alloc _ _, hrep₁.keeps (hkeeps₂.trans hkeeps₃),
    hrep₂.keeps hkeeps₃⟩
  rw [parsepipe, bind_ok hn, bind_ok hlook, if_pos rfl, bind_ok hnext, bind_ok hn']
  rfl

/-- A pipe, before the first ampersand. -/
theorem parsed_front (h : Parsed mem es .pipe toks cmd) : Parsed mem es .amps toks cmd := by
  intro s nodes rest hrest hat
  obtain ⟨p, s', nodes', hpipe, hend, hkeeps, hrep⟩ := h s nodes rest hrest hat
  have hpipe : Settles (parsepipe mem es · ⟨s, nodes⟩) (.ok (p, ⟨s', nodes'⟩)) := hpipe
  refine ⟨p, s', nodes', fun r hr => ?_, hend, hkeeps, hrep⟩
  refine hpipe.and_then hr fun n hn hr => ?_
  rw [bind_ok hn, hr]

/-- An ampersand. -/
theorem parsed_back (h : Parsed mem es .amps toks cmd) : Parsed mem es .amps (toks ++ [.amp]) (.back cmd) := by
  intro s nodes rest hrest hat
  rw [append_assoc] at hat
  have hamp : Follows .amps ([.amp] ++ rest) := .cons (by decide)
  obtain ⟨p, s₁, nodes₁, hamps, hat₁, hkeeps, hrep⟩ := h s nodes _ hamp hat
  obtain ⟨s₂, tok, hlook, hnext, hat₂⟩ := take_eq hat₁ nodes₁ (by decide : starts ['&'] [.amp] = true)
  have hkeeps' := keeps_append nodes₁ (.back p)
  refine ⟨nodes₁.length, tok.s, nodes₁ ++ [.back p], fun r hr => hamps r ?_, hat₂, hkeeps.trans hkeeps', p,
    getElem?_alloc _ _, hrep.keeps hkeeps'⟩
  refine hr.succ fun n hn => ?_
  have hback : backcmd p ⟨tok.s, nodes₁⟩ = .ok (nodes₁.length, ⟨tok.s, nodes₁ ++ [.back p]⟩) := rfl
  rw [parseamps, bind_ok hlook, if_pos rfl, bind_ok hnext, bind_ok hback, hn]

/-- A command that is followed by no other one, and the ampersands behind it. -/
theorem parseamps_end (hamp : starts ['&'] rest = false) (hat : At mem es s rest) (nodes : List Node) (p : ℕ) :
    ∃ s', (Settles (parseamps mem es · p ⟨s, nodes⟩) (.ok (p, ⟨s', nodes⟩))) ∧ At mem es s' rest := by
  obtain ⟨s', hlook, hat'⟩ := look_eq hat nodes hamp
  refine ⟨s', settles_of_succ fun n => ?_, hat'⟩
  rw [parseamps, bind_ok hlook]
  rfl

/-- The last command of a line. -/
theorem parsed_last (h : Parsed mem es .amps toks cmd) : Parsed mem es .line toks cmd := by
  intro s nodes rest hrest hat
  have hfollow : Follows .amps rest := fun tok htok =>
    mem_cons_of_mem _ (mem_cons_of_mem _ (hrest tok htok))
  obtain ⟨p, s₁, nodes₁, hamps, hat₁, hkeeps, hrep⟩ := h s nodes rest hfollow hat
  obtain ⟨s₂, hend, hat₂⟩ := parseamps_end (hrest.starts_eq_false (by decide)) hat₁ nodes₁ p
  have hsemi : starts [';'] rest = false := hrest.starts_eq_false (by decide)
  obtain ⟨s₃, hlook, hat₃⟩ := look_eq hat₂ nodes₁ hsemi
  refine ⟨p, s₃, nodes₁, (hamps _ hend).succ fun n hn => ?_, hat₃, hkeeps, hrep⟩
  rw [parseline, ← bind_assoc, bind_ok hn, bind_ok hlook]
  rfl

/-- A command that is followed by a semicolon and another line. -/
theorem parsed_list {left : Cmd} (hleft : Parsed mem es .amps toks left)
    (hright : Parsed mem es .line toks' right) :
    Parsed mem es .line (toks ++ .semi :: toks') (.list left right) := by
  intro s nodes rest hrest hat
  rw [append_assoc] at hat
  have hsemi : Follows .amps (.semi :: toks' ++ rest) := .cons (by decide)
  obtain ⟨p, s₁, nodes₁, hamps, hat₁, hkeeps₁, hrep₁⟩ := hleft s nodes _ hsemi hat
  have hamp : starts ['&'] (.semi :: toks' ++ rest) = false := rfl
  obtain ⟨s₂, hend, hat₂⟩ := parseamps_end hamp hat₁ nodes₁ p
  obtain ⟨s₃, tok, hlook, hnext, hat₃⟩ := take_eq hat₂ nodes₁ (by decide : starts [';'] [.semi] = true)
  obtain ⟨q, s', nodes₂, hline, hat', hkeeps₂, hrep₂⟩ := hright tok.s nodes₁ rest hrest hat₃
  have hline : Settles (parseline mem es · ⟨tok.s, nodes₁⟩) (.ok (q, ⟨s', nodes₂⟩)) := hline
  have hkeeps₃ := keeps_append nodes₂ (.list p q)
  refine ⟨nodes₂.length, s', nodes₂ ++ [.list p q], (hamps _ hend).succ₂ hline fun n hn hn' => ?_,
    hat', (hkeeps₁.trans hkeeps₂).trans hkeeps₃, p, q, getElem?_alloc _ _,
    hrep₁.keeps (hkeeps₂.trans hkeeps₃), hrep₂.keeps hkeeps₃⟩
  rw [parseline, ← bind_assoc, bind_ok hn, bind_ok hlook, if_pos rfl, bind_ok hnext, bind_ok hn']
  rfl

/-- A command inside redirections can be written if the whole can. -/
theorem Cmd.Ok.of_wrap (h : (wrap cmd rs).Ok) : cmd.Ok := by
  induction rs generalizing cmd with
  | nil => exact h
  | cons r rs ih => exact (ih h).1

/-- The parser reads what the grammar derives. -/
theorem Derives.parsed (h : Derives level toks cmd) (hok : cmd.Ok) : Parsed mem es level toks cmd := by
  induction h with
  | simple rs args =>
    have hargs := (Cmd.Ok.of_wrap hok).1
    rw [length_map] at hargs
    exact parsed_simple hargs
  | block rs h ih => exact parsed_block (ih (Cmd.Ok.of_wrap hok))
  | single h ih => exact parsed_single (ih hok)
  | pipe hleft hright ihl ihr => exact parsed_pipe (ihl hok.1) (ihr hok.2)
  | front h ih => exact parsed_front (ih hok)
  | back h ih => exact parsed_back (ih hok)
  | last h ih => exact parsed_last (ih hok)
  | list hleft hright ihl ihr => exact parsed_list (ihl hok.1) (ihr hok.2)

end Xv6.Shell
