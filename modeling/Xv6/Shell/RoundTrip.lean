import Xv6.Shell.Parsing

/-!
# The round trip of a command

A command that is written as text, with any spaces and with redirections and parentheses wherever they may
stand, is read back by `parsecmd`. The NULs that `nulterminate` writes are where a word has ended, so no
character of a word is lost, and every pointer to a word reads as that word.
-/

namespace Xv6.Shell

open Function Library List

/-- The node stands for the command, and its pointers to words read as these. -/
def Reads (mem : Memory) (nodes : List Node) : ℕ → Cmd → Prop
  | p, .exec argv => ∃ args, nodes[p]? = some (.exec args) ∧
      List.Forall₂ (fun a w => Holds mem a.1 w) args argv
  | p, .redir cmd kind file => ∃ sub q eq, nodes[p]? = some (.redir sub q eq kind.mode kind.fd) ∧
      Holds mem q file ∧ Reads mem nodes sub cmd
  | p, .pipe left right => ∃ a b, nodes[p]? = some (.pipe a b) ∧ Reads mem nodes a left ∧
      Reads mem nodes b right
  | p, .list left right => ∃ a b, nodes[p]? = some (.list a b) ∧ Reads mem nodes a left ∧
      Reads mem nodes b right
  | p, .back cmd => ∃ sub, nodes[p]? = some (.back sub) ∧ Reads mem nodes sub cmd

/-- A character that is not part of a word. -/
def Ends (c : Char) : Prop := inWord c = false ∨ c = NUL

/-- Memory has been changed only by NULs at places where the text has no word. -/
def Cuts (mem m m' : Memory) : Prop := ∀ i, m' i = m i ∨ m' i = NUL ∧ Ends (mem i)

variable {mem m m' m'' : Memory} {nodes : List Node}

theorem Cuts.refl (mem m : Memory) : Cuts mem m m := fun _ => .inl rfl

theorem Cuts.trans (h : Cuts mem m m') (h' : Cuts mem m' m'') : Cuts mem m m'' := by
  intro i
  cases h' i with
  | inl heq => exact heq ▸ h i
  | inr hcut => exact .inr hcut

/-- A NUL stays. -/
theorem Cuts.nul (h : Cuts mem m m') {i : ℕ} (hi : m i = NUL) : m' i = NUL := by
  cases h i with
  | inl heq => exact heq.trans hi
  | inr hcut => exact hcut.1

variable {w : List Char}

/-- One NUL at the end of a word. -/
theorem cuts_update {q eq : ℕ} (hw : WordAt mem q eq w) : Cuts mem m (update m eq NUL) := by
  intro i
  by_cases hi : i = eq
  · subst hi
    exact .inr ⟨update_self _ _ _, hw.ends⟩
  · exact .inl (update_of_ne hi _ _)

variable {s : ℕ}

theorem holds_of_get (hget : ∀ i (h : i < w.length), mem (s + i) = w[i])
    (hend : mem (s + w.length) = NUL) : Holds mem s w := by
  induction w generalizing s with
  | nil => exact hend
  | cons c w ih =>
    refine ⟨hget 0 (Nat.succ_pos _), ih (fun i hi => ?_) ?_⟩
    · rw [Nat.add_assoc, Nat.add_comm 1]
      exact hget (i + 1) (Nat.succ_lt_succ hi)
    · rw [Nat.add_assoc, Nat.add_comm 1]
      exact hend

/-- A word whose end has become NUL reads as the word, whatever else has been cut. -/
theorem WordAt.holds {q eq : ℕ} (hw : WordAt mem q eq w) (hcut : Cuts mem mem m)
    (hnul : m eq = NUL) : Holds m q w := by
  refine holds_of_get (fun i hi => ?_) (hw.stop ▸ hnul)
  have hchar := hw.ok.2 w[i] (getElem_mem hi)
  have htext := hw.text i hi
  cases hcut (q + i) with
  | inl heq => exact heq.trans htext
  | inr hend =>
    rw [htext] at hend
    cases hend.2 with
    | inl hin => exact absurd (hchar.1.symm.trans hin) (by decide)
    | inr hnul => exact absurd hnul hchar.2

/-- The loop over the arguments of a command writes a NUL behind each of them. -/
theorem cuts_args {args : List (ℕ × ℕ)} {argv : List (List Char)}
    (h : List.Forall₂ (fun a w => WordAt mem a.1 a.2 w) args argv) (m : Memory) :
    Cuts mem m (args.foldl (fun mem arg => update mem arg.2 NUL) m) ∧
      ∀ m'', Cuts mem (args.foldl (fun mem arg => update mem arg.2 NUL) m) m'' →
        Cuts mem mem m'' → List.Forall₂ (fun a w => Holds m'' a.1 w) args argv := by
  induction h generalizing m with
  | nil => exact ⟨Cuts.refl mem m, fun _ _ _ => .nil⟩
  | @cons a w args argv hw h ih =>
    obtain ⟨hcut, hreads⟩ := ih (update m a.2 NUL)
    refine ⟨(cuts_update hw).trans hcut, fun m'' hmore hall => .cons (hw.holds hall ?_) (hreads m'' hmore hall)⟩
    exact (hcut.trans hmore).nul (update_self _ _ _)

variable {cmd : Cmd}

/-- `nulterminate` cuts the words of a command, which then read as they should, also after more cuts. -/
theorem nulterminate_spec {p : ℕ} (h : Rep mem nodes p cmd) (m : Memory) :
    ∃ m', (Settles (nulterminate nodes · p m) (.ok m')) ∧ Cuts mem m m' ∧
      ∀ m'', Cuts mem m' m'' → Cuts mem mem m'' → Reads m'' nodes p cmd := by
  induction cmd generalizing p m with
  | exec argv =>
    obtain ⟨args, hnode, hargs⟩ := h
    obtain ⟨hcut, hreads⟩ := cuts_args hargs m
    refine ⟨_, settles_of_succ fun n => ?_, hcut, fun m'' hmore hall =>
      ⟨args, hnode, hreads m'' hmore hall⟩⟩
    rw [nulterminate, hnode]
  | redir cmd kind file ih =>
    obtain ⟨sub, q, eq, hnode, hfile, hsub⟩ := h
    obtain ⟨m', hrun, hcut, hreads⟩ := ih hsub m
    have hlast : Cuts mem m' (update m' eq NUL) := cuts_update hfile
    refine ⟨_, hrun.succ fun n hn => ?_, hcut.trans hlast, fun m'' hmore hall => ?_⟩
    · rw [nulterminate, hnode]
      change (nulterminate nodes n sub m >>= _) = _
      rw [hn]
      rfl
    · refine ⟨sub, q, eq, hnode, hfile.holds hall ?_, hreads m'' (hlast.trans hmore) hall⟩
      exact hmore.nul (update_self _ _ _)
  | pipe left right ihl ihr | list left right ihl ihr =>
    obtain ⟨a, b, hnode, hl, hr⟩ := h
    obtain ⟨m₁, hrun₁, hcut₁, hreads₁⟩ := ihl hl m
    obtain ⟨m₂, hrun₂, hcut₂, hreads₂⟩ := ihr hr m₁
    refine ⟨m₂, hrun₁.succ₂ hrun₂ fun n hn hn' => ?_, hcut₁.trans hcut₂, fun m'' hmore hall =>
      ⟨a, b, hnode, hreads₁ m'' (hcut₂.trans hmore) hall, hreads₂ m'' hmore hall⟩⟩
    rw [nulterminate, hnode]
    change (nulterminate nodes n a m >>= _) = _
    rw [hn]
    exact hn'
  | back cmd ih =>
    obtain ⟨sub, hnode, hsub⟩ := h
    obtain ⟨m', hrun, hcut, hreads⟩ := ih hsub m
    refine ⟨m', hrun.succ fun n hn => ?_, hcut, fun m'' hmore hall =>
      ⟨sub, hnode, hreads m'' hmore hall⟩⟩
    rw [nulterminate, hnode]
    exact hn

variable {t : List Char} {tok : Token}

theorem Token.text_ne_nul (h : tok.Parts t) : ∀ c ∈ tok.text, c ≠ NUL := by
  match tok with
  | .word w => exact fun c hc => (h.1.2 c hc).2
  | .redirect .input | .redirect .output | .redirect .append | .bar | .amp | .semi | .left | .right =>
    exact fun c hc heq => absurd (heq ▸ hc) (by decide)

variable {toks : List Token}

/-- A text that spells tokens has no NUL in it. -/
theorem Spelled.ne_nul (h : Spelled toks t) : ∀ c ∈ t, c ≠ NUL := by
  have hspace : ∀ c ∈ whitespace, c ≠ NUL := fun c hc heq => absurd (heq ▸ hc) (by decide)
  induction h with
  | nil hw => exact fun c hc => hspace c (strchr_iff.1 (hw c hc))
  | @cons w t tok toks hw hparts ht ih =>
    intro c hc
    simp only [mem_append] at hc
    rcases hc with hc | hc | hc
    · exact hspace c (strchr_iff.1 (hw c hc))
    · exact Token.text_ne_nul hparts c hc
    · exact ih c hc

theorem strlen_spec (hmem : Holds mem s t) (ht : ∀ c ∈ t, c ≠ NUL) : Settles (strlen mem · s) (.ok t.length) := by
  induction t generalizing s with
  | nil =>
    have hnul : mem s = NUL := hmem
    refine settles_of_succ fun n => ?_
    rw [strlen, if_pos hnul]
    rfl
  | cons c t ih =>
    obtain ⟨hc, hrest⟩ := hmem
    have hne : mem s ≠ NUL := hc ▸ ht c mem_cons_self
    refine (ih hrest fun d hd => ht d (mem_cons_of_mem c hd)).succ fun n hn => ?_
    rw [strlen, if_neg hne, hn]
    rfl

/-- `parsecmd` reads back what the grammar derives for a command, and every pointer to a word of the command
reads as that word. -/
theorem parsecmd_spec (hok : cmd.Ok) {text : List Char}
    (hderives : Derives .line toks cmd) (hspelled : Spelled toks text) (hmem : Holds mem s text) :
    ∃ p nodes mem', (Settles (parsecmd · mem s) (.ok (p, nodes, mem'))) ∧ Reads mem' nodes p cmd := by
  have hat : At mem (s + text.length) s (toks ++ []) := by
    rw [append_nil]
    exact ⟨text, hspelled, hmem, rfl⟩
  obtain ⟨p, s₁, nodes, hline, hend, -, hrep⟩ := hderives.parsed hok s [] [] (fun tok htok => nomatch htok) hat
  have hline : Settles (parseline mem (s + text.length) · ⟨s, []⟩) (.ok (p, ⟨s₁, nodes⟩)) := hline
  obtain ⟨-, hes, -⟩ := peek_spec hend []
  obtain ⟨mem', hrun, hcut, hreads⟩ := nulterminate_spec hrep mem
  refine ⟨p, nodes, mem', ?_, hreads mem' (Cuts.refl _ _) hcut⟩
  have hlen := strlen_spec hmem hspelled.ne_nul
  filter_upwards [hlen, hline, hrun] with n hlen hline hrun
  rw [parsecmd, hlen]
  change (parseline mem (s + text.length) n ⟨s, []⟩ >>= _) = _
  rw [hline]
  change (if (peek mem (s + text.length) s₁ []).2 ≠ s + text.length then _ else _) = _
  rw [if_neg (not_not.2 hes)]
  change (nulterminate nodes n p mem >>= _) = _
  rw [hrun]
  rfl

/-- Tokens with a space before each of them. -/
def spell (toks : List Token) : List Char := toks.flatMap fun tok => ' ' :: tok.text

/-- Tokens with spaces between them spell the tokens. -/
theorem spell_spelled (hwords : ∀ w, .word w ∈ toks → WordOk w) : Spelled toks (spell toks) := by
  have hspace : ∀ c ∈ [' '], strchr whitespace c = true := all_eq_true.1 (by decide)
  induction toks with
  | nil => exact .nil fun c hc => absurd hc not_mem_nil
  | cons tok toks ih =>
    have hrest : ∀ c ∈ (spell toks).head?, c = ' ' := by
      cases toks with
      | nil => exact fun c hc => nomatch hc
      | cons tok' toks => exact fun c hc => (Option.some.inj hc).symm
    have hparts : tok.Parts (spell toks) := by
      match tok with
      | .word w =>
        refine ⟨hwords w mem_cons_self, fun c hc => ?_⟩
        rw [hrest c hc]
        decide
      | .redirect .output =>
        intro c hc
        rw [hrest c hc]
        decide
      | .redirect .input | .redirect .append | .bar | .amp | .semi | .left | .right => exact trivial
    exact .cons hspace hparts (ih fun w hw => hwords w (mem_cons_of_mem tok hw))

theorem mem_parens {needed : Bool} (h : tok ∈ parens needed toks) : tok = .left ∨ tok = .right ∨ tok ∈ toks := by
  cases needed with
  | false => exact .inr (.inr h)
  | true =>
    simp only [parens, if_true, cons_append, mem_cons, mem_append, not_mem_nil, or_false] at h
    tauto

/-- The words of a rendering are words. -/
theorem render_wordOk (hok : cmd.Ok) (level : Level) (hw : .word w ∈ render cmd level) : WordOk w := by
  induction cmd generalizing level with
  | exec argv =>
    obtain ⟨v, hv, heq⟩ := mem_map.1 hw
    cases heq
    exact hok.2 w hv
  | redir cmd kind file ih =>
    simp only [render, mem_append, mem_cons, not_mem_nil, or_false, Token.word.injEq, reduceCtorEq, false_or] at hw
    cases hw with
    | inl hw => exact ih hok.1 .exec hw
    | inr heq => exact heq ▸ hok.2
  | pipe left right ihl ihr =>
    have hw := mem_parens hw
    simp only [mem_append, mem_cons, reduceCtorEq, false_or] at hw
    cases hw with
    | inl hw => exact ihl hok.1 .exec hw
    | inr hw => exact ihr hok.2 .pipe hw
  | list left right ihl ihr =>
    have hw := mem_parens hw
    simp only [mem_append, mem_cons, reduceCtorEq, false_or] at hw
    cases hw with
    | inl hw => exact ihl hok.1 .amps hw
    | inr hw => exact ihr hok.2 .line hw
  | back cmd ih =>
    have hw := mem_parens hw
    simp only [mem_append, mem_cons, reduceCtorEq, false_or, not_mem_nil, or_false] at hw
    exact ih hok .amps hw

/-- Every command that can be written has a text, and from each of its texts, with parentheses and redirections
wherever the grammar allows them and with any spaces, `parsecmd` makes the same command again, without a panic
and with pointers that read as the words. -/
theorem parsecmd_roundTrip (cmd : Cmd) (hok : cmd.Ok) :
    (Derives .line (render cmd .line) cmd ∧ Spelled (render cmd .line) (spell (render cmd .line))) ∧
      ∀ toks text, Derives .line toks cmd → Spelled toks text → ∀ mem s, Holds mem s text →
        ∃ p nodes mem', (Settles (parsecmd · mem s) (.ok (p, nodes, mem'))) ∧ Reads mem' nodes p cmd :=
  ⟨⟨render_derives cmd .line, spell_spelled fun _ hw => render_wordOk hok .line hw⟩,
    fun _ _ hderives hspelled _ _ hmem => parsecmd_spec hok hderives hspelled hmem⟩

/-- A file without spaces, a bar and an empty command in the background in parentheses. -/
theorem parsecmd_roundTrip_block :
    ∃ p nodes mem',
      Settles (parsecmd · (fun i => ['a', '>', 'f', '|', '(', '&', ')'].getD i NUL) 0)
        (.ok (p, nodes, mem')) ∧
      Reads mem' nodes p (.pipe (.redir (.exec [['a']]) .output ['f']) (.back (.exec []))) := by
  have hok : (Cmd.pipe (.redir (.exec [['a']]) .output ['f']) (.back (.exec []))).Ok :=
    ⟨⟨⟨by decide, by decide⟩, by decide⟩, by decide, by decide⟩
  have hspace : ∀ c ∈ ([] : List Char), strchr whitespace c = true := fun c hc => absurd hc not_mem_nil
  have hspelled : Spelled [.word ['a'], .redirect .output, .word ['f'], .bar, .left, .amp, .right]
      ['a', '>', 'f', '|', '(', '&', ')'] :=
    .cons hspace ⟨by decide, fun c hc => Option.some.inj hc ▸ by decide⟩
      (.cons hspace (fun c hc => Option.some.inj hc ▸ by decide)
        (.cons hspace ⟨by decide, fun c hc => Option.some.inj hc ▸ by decide⟩ (.cons hspace trivial
          (.cons hspace trivial (.cons hspace trivial (.cons hspace trivial (.nil hspace)))))))
  exact (parsecmd_roundTrip _ hok).2 _ _ (render_derives _ .line) hspelled _ 0
    ⟨rfl, rfl, rfl, rfl, rfl, rfl, rfl, rfl⟩

end Xv6.Shell
