import Renumber.Proofs.Grammar.Seam
import Renumber.Proofs.Layout.Seam
import Renumber.Proofs.Numbering.Behind
import Renumber.Proofs.Numbering.Patch

/-!
# Numbering two sources as one

When a source without problems ends with a logical line, another one may follow: together they have no
problems, and numbering the two as one is numbering each in its turn with the codes of one series
(`fixText_append`). The text, its lexemes and its tree are put together from those of the two sources, but for
one thing: the blocks that the first one leaves open are closed behind the comments and blank lines that the
second one starts with, so these move into the last of the blocks (`exists_children_append`). Calls do not.
-/

namespace Renumber

open Grammar (Reads readFile nextKind)
open Lexeme (sound)
open Token (significant textOf)
open Renumber.Tree (AtEnd Coded bareOf leavesOf)

/-! ## Tokens -/

theorem Grammar.Ends.significant {ts : List Token} (h : Grammar.Ends ts) :
    Grammar.Ends (significant ts) := by
  obtain ⟨xs, t, rfl, ht⟩ := h
  have htrivia : t.kind.isTrivia = false := by
    rcases ht with h | h <;> rw [h] <;> rfl
  refine ⟨Token.significant xs, t, ?_, ht⟩
  rw [Token.significant_append, Token.significant_cons_of_not_trivia htrivia, Token.significant_nil]

section
variable {a b : String}

theorem lex_empty : lex "" = [] := by
  rw [lex, Layout.lexFrom_fresh_of_blank rfl]
  rfl

/-- The tokens of two texts, one behind the other: the marks that the first one ends with stand behind the
trivia that the second one starts with. -/
theorem exists_tokensOf_append (ha : a = "" ∨ EndsLine a) (hb : nextKind (tokensOf b) ≠ .indent) :
    ∃ us n ws vs, (us = [] ∨ Grammar.Ends us) ∧ (∀ w ∈ ws, w.kind.isTrivia = true) ∧
      tokensOf a = us ++ List.replicate n ⟨.dedent, ""⟩ ∧ tokensOf b = ws ++ vs ∧
      tokensOf (a ++ b) = us ++ (ws ++ List.replicate n ⟨.dedent, ""⟩) ++ vs := by
  rcases ha with rfl | ha
  · refine ⟨[], 0, [], tokensOf b, .inl rfl, List.forall_mem_nil _, ?_, rfl, ?_⟩
    · rw [tokensOf, lex_empty]
      rfl
    · rw [String.empty_append]
      rfl
  · obtain ⟨as, l, n, ws, ls, hnewline, hws, hlexa, hlexb, hlex⟩ := exists_lex_append ha hb
    have hmarks : (List.replicate n (Lexeme.mark .dedent none)).map Lexeme.token =
        List.replicate n ⟨.dedent, ""⟩ := List.map_replicate
    refine ⟨as.map Lexeme.token ++ [l.token], n, ws.map Lexeme.token, ls.map Lexeme.token,
      .inr ⟨_, _, rfl, .inl hnewline⟩, List.forall_mem_map.2 hws, ?_, ?_, ?_⟩
    · rw [tokensOf, hlexa, List.append_cons, List.map_append, List.map_append, hmarks]
      rfl
    · rw [tokensOf, hlexb, List.map_append]
    · rw [tokensOf, hlex]
      simp only [List.map_append, List.map_cons, hmarks, List.append_assoc, List.cons_append,
        List.nil_append]

/-- What is lexed of two texts, one behind the other, is lexed of one of them. -/
theorem mem_lex_append (ha : a = "" ∨ EndsLine a) (hb : nextKind (tokensOf b) ≠ .indent) {l : Lexeme}
    (hl : l ∈ lex (a ++ b)) : l ∈ lex a ∨ l ∈ lex b := by
  rcases ha with rfl | ha
  · rw [String.empty_append] at hl
    exact .inr hl
  · obtain ⟨as, m, n, ws, ls, -, -, hlexa, hlexb, hlex⟩ := exists_lex_append ha hb
    rw [hlex] at hl
    rw [hlexa, hlexb]
    simp only [List.mem_append, List.mem_cons] at hl ⊢
    tauto

theorem significant_tokensOf_append (ha : a = "" ∨ EndsLine a) (hb : nextKind (tokensOf b) ≠ .indent) :
    significant (tokensOf (a ++ b)) = significant (tokensOf a) ++ significant (tokensOf b) := by
  obtain ⟨us, n, ws, vs, -, hws, htokensa, htokensb, htokens⟩ := exists_tokensOf_append ha hb
  rw [htokens, htokensa, htokensb]
  simp only [Token.significant_append, Token.significant_of_trivia hws, List.nil_append,
    List.append_assoc]

/-- The tokens of a text that ends with a logical line end with the end of one, or with that of a block. -/
theorem ends_significant (ha : a = "" ∨ EndsLine a) :
    significant (tokensOf a) = [] ∨ Grammar.Ends (significant (tokensOf a)) := by
  have hempty : nextKind (tokensOf "") ≠ .indent := by
    rw [tokensOf, lex_empty]
    exact Kind.noConfusion
  obtain ⟨us, n, -, -, hus, -, htokens, -, -⟩ := exists_tokensOf_append ha hempty
  cases n with
  | zero =>
    rw [htokens, List.replicate_zero, List.append_nil]
    exact hus.imp (fun h => by rw [h, Token.significant_nil]) Grammar.Ends.significant
  | succ n =>
    rw [htokens, List.replicate_succ', ← List.append_assoc]
    exact .inr (Grammar.Ends.significant ⟨_, ⟨.dedent, ""⟩, rfl, .inr rfl⟩)

end

/-! ## Readings without trivia -/

namespace Grammar

/-- A clean reading without trivia. -/
theorem Reads.bare {p : P} {ts us : List Token} {as : List Tree} (h : Reads p ts as us) :
    Reads p (significant ts) (bareOf as) (significant us) :=
  h.makes.bare.reads rfl

end Grammar

theorem Token.Closes.significant {d : Nat} {ts : List Token} (h : Token.Closes d ts) :
    Token.Closes d (significant ts) where
  nest := by
    rw [← h.nest]
    clear h
    induction ts generalizing d with
    | nil => rfl
    | cons t ts ih =>
      cases ht : t.kind.isTrivia with
      | true =>
        rw [Token.significant_cons_of_trivia ht, ih,
          Token.nest_cons_of_not_isMark (Kind.isMark_of_isTrivia ht)]
      | false =>
        rw [Token.significant_cons_of_not_trivia ht, Token.nest_cons, Token.nest_cons]
        congr 1
        funext e
        exact ih
  ne_eof t ht := h.ne_eof t (List.mem_of_mem_filter ht)

section
variable {a b : String}

/-- A source without problems is read cleanly. -/
theorem reads_parse (h : (parse a).errors = []) :
    Reads (.rule .file) (tokensOf a) (parse a).tree.children [] := by
  have hreads := Grammar.reads_readFile (errors_parse_eq_nil_iff.1 h).2
  rwa [Grammar.rest_readFile fun t => kind_ne_eof_of_mem_tokensOf] at hreads

/-- A source whose lexemes have no problems, and whose tokens are read cleanly without trivia. -/
theorem parse_of_reads_bare {cs : List Tree} (hlex : lex a = Lexeme.sound (tokensOf a))
    (h : Reads (.rule .file) (significant (tokensOf a)) cs []) :
    (parse a).errors = [] ∧ bareOf (parse a).tree.children = cs := by
  have hfile := Grammar.readFile_of_reads h
  rw [Grammar.readFile_significant] at hfile
  refine ⟨errors_parse_eq_nil_iff.2 ⟨hlex, ?_⟩, congrArg Grammar.Reading.trees hfile⟩
  exact List.map_eq_nil_iff.1 (congrArg Grammar.Reading.faults hfile)

theorem leavesOf_children_parse (a : String) : leavesOf (parse a).tree.children = tokensOf a := by
  rw [← leaves_parse]
  rfl

/-- The trees of two sources, one behind the other: the trivia that the second one starts with stand in front
of the marks that the first one ends with. -/
theorem exists_children_append (ha : (parse a).errors = []) (hb : (parse b).errors = [])
    (hline : EndsLine a) : (parse (a ++ b)).errors = [] ∧ ∃ ws us vs,
      AtEnd [] ws (parse a).tree.children us ∧
      (parse b).tree.children = ws.map .token ++ vs ∧ (parse (a ++ b)).tree.children = us ++ vs := by
  have hlexa := (errors_parse_eq_nil_iff.1 ha).1
  have hlexb := (errors_parse_eq_nil_iff.1 hb).1
  have hmargin := Grammar.nextKind_ne_indent (reads_parse hb)
  obtain ⟨us₀, n, ws, vs₀, hends, hws, htokensa, htokensb, htokens⟩ :=
    exists_tokensOf_append (.inr hline) hmargin
  have hsound : lex (a ++ b) = Lexeme.sound (tokensOf (a ++ b)) :=
    Lexeme.eq_sound fun m hm => (mem_lex_append (.inr hline) hmargin hm).elim
      (fun h => problem?_of_mem_sound (hlexa ▸ h)) fun h => problem?_of_mem_sound (hlexb ▸ h)
  -- Together they are read as the first and then the second.
  have hreads := Grammar.reads_file_append (reads_parse ha).bare (closes_tokensOf a).significant
    (ends_significant (.inr hline)) (Grammar.pending_of_significant _) (reads_parse hb).bare
  rw [← significant_tokensOf_append (.inr hline) hmargin] at hreads
  obtain ⟨herrors, hbare⟩ := parse_of_reads_bare hsound hreads
  -- Where the trivia stand in the trees follows from the tokens.
  obtain ⟨us, hend, hleaves, hbareus, htrimus⟩ := Tree.exists_atEnd (formed_parse ha) (trim_parse ha)
    hws (fun d hd => (List.mem_replicate.1 hd).2) ((leavesOf_children_parse a).trans htokensa)
  obtain ⟨vs, hvs, hleavesvs⟩ := Tree.exists_of_leaves_append (trim_parse hb) hws
    ((leavesOf_children_parse b).trans htokensb)
  refine ⟨herrors, _, us, vs, hend, hvs, Tree.eq_of_bareOf (trim_parse herrors) ?_ ?_ ?_⟩
  · intro t ht
    rcases List.mem_append.1 ht with ht | ht
    · exact htrimus t ht
    · exact trim_parse hb t (hvs ▸ List.mem_append_right _ ht)
  · rw [hbare, Tree.bareOf_append, hbareus, hvs, Tree.bareOf_append, Tree.bareOf_map_token,
      Token.significant_of_trivia hws, List.map_nil, List.nil_append]
  · rw [leavesOf_children_parse, htokens, Tree.leavesOf_append, hleaves, hleavesvs]

/-- What numbering makes of a source without problems, by the trees of it. -/
theorem exists_fixText_iff (h : (parse a).errors = []) {s s' : Series} {text : String}
    {fs : List (UInt64 × FixKind × Shape)} :
    (∃ o, fixText false a s = (.ok o, s') ∧ o.output = text ∧ o.fixes.map Fix.facts = fs) ↔
      ∃ cs, Coded s.current (parse a).tree.children cs fs s'.current ∧ textOf (leavesOf cs) = text := by
  constructor
  · rintro ⟨o, ho, rfl, rfl⟩
    obtain ⟨-, hcoded⟩ := Tree.coded_of_fixText ho
    obtain ⟨cs, hcs, hcoded⟩ := Tree.coded_module_iff.1 hcoded
    refine ⟨cs, hcoded, ?_⟩
    rw [Outcome.output, List.singleton_inj.1 hcs, Tree.text, Tree.leaves_node]
  · rintro ⟨cs, hcoded, rfl⟩
    have hroot : Coded s.current [(parse a).tree] [.node .module cs] fs s'.current :=
      Tree.coded_module_iff.2 ⟨cs, rfl, hcoded⟩
    obtain ⟨o, ho, hcs, hfs⟩ := @Tree.fixText_of_coded false _ _ _ _ _ h hroot
    refine ⟨o, ho, ?_, hfs⟩
    rw [Outcome.output, ← List.singleton_inj.1 hcs, Tree.text, Tree.leaves_node]

/-- Numbering distributes over two sources, one behind the other: if neither has a problem and the first one
ends with the line feed of a logical line, both together have none. Numbering both together gives a text, codes
and a series just when numbering the first one, and the second one with the series as it is then, gives the
same: the two texts one behind the other, and the codes of both in order. -/
theorem fixText_append (ha : (parse a).errors = []) (hb : (parse b).errors = [])
    (hline : EndsLine a) : (parse (a ++ b)).errors = [] ∧
      ∀ (s s' : Series) (text : String) (fs : List (UInt64 × FixKind × Shape)),
        (∃ o, fixText false (a ++ b) s = (.ok o, s') ∧ o.output = text ∧ o.fixes.map Fix.facts = fs) ↔
          ∃ o₁ s₁ o₂, fixText false a s = (.ok o₁, s₁) ∧ fixText false b s₁ = (.ok o₂, s') ∧
            o₁.output ++ o₂.output = text ∧ (o₁.fixes ++ o₂.fixes).map Fix.facts = fs := by
  obtain ⟨herrors, ws, us, vs, hend, hvs, happend⟩ := exists_children_append ha hb hline
  refine ⟨herrors, fun s s' text fs => ?_⟩
  rw [exists_fixText_iff herrors, happend]
  constructor
  · rintro ⟨cs, hcoded, rfl⟩
    obtain ⟨us', vs', f₁, f₂, s₁, rfl, rfl, hus, hvs'⟩ := Tree.coded_append_iff.1 hcoded
    obtain ⟨as', has, hend'⟩ := hus.atEnd hend.symm
    have hbs : Coded s₁ (parse b).tree.children (ws.map .token ++ vs') f₂ s'.current := by
      rw [hvs]
      exact (Tree.coded_map_token_iff.2 ⟨rfl, rfl, rfl⟩ : Coded s₁ (ws.map .token) _ [] s₁).append hvs'
    obtain ⟨o₁, ho₁, htext₁, rfl⟩ := (@exists_fixText_iff a ha s ⟨s₁⟩ _ _).2 ⟨as', has, rfl⟩
    obtain ⟨o₂, ho₂, htext₂, rfl⟩ := (@exists_fixText_iff b hb ⟨s₁⟩ s' _ _).2 ⟨_, hbs, rfl⟩
    refine ⟨o₁, _, o₂, ho₁, ho₂, ?_, List.map_append⟩
    obtain ⟨text, htext, htext'⟩ := hend'.exists_textOf
    rw [htext₁, htext₂]
    simp [htext, htext', String.append_assoc]
  · rintro ⟨o₁, s₁, o₂, ho₁, ho₂, rfl, rfl⟩
    obtain ⟨as', has, htext₁⟩ := (exists_fixText_iff ha).1 ⟨o₁, ho₁, rfl, rfl⟩
    obtain ⟨bs', hbs, htext₂⟩ := (exists_fixText_iff hb).1 ⟨o₂, ho₂, rfl, rfl⟩
    obtain ⟨us', hus, hend'⟩ := has.atEnd hend
    rw [hvs] at hbs
    obtain ⟨ws', vs', f₁, f₂, s₂, rfl, hfs, hws, hvs'⟩ := Tree.coded_append_iff.1 hbs
    obtain ⟨rfl, rfl, rfl⟩ := Tree.coded_map_token_iff.1 hws
    refine ⟨us' ++ vs', ?_, ?_⟩
    · rw [List.map_append, hfs]
      exact hus.append hvs'
    · obtain ⟨text, htext, htext'⟩ := hend'.exists_textOf
      rw [← htext₁, ← htext₂]
      simp [htext, htext', String.append_assoc]

end

set_option maxRecDepth 4000 in
/-- A source that ends inside a block, and one that starts with a comment: the block is closed behind the
comment, and the codes go on. -/
theorem fixText_append_block :
    (parse "if x:\n result.error(a)\n").errors = [] ∧ (parse "# c\nresult.error(b)\n").errors = [] ∧
      EndsLine "if x:\n result.error(a)\n" ∧ ∃ o s' o₁ s₁ o₂,
        fixText false ("if x:\n result.error(a)\n" ++ "# c\nresult.error(b)\n") ⟨6⟩ = (.ok o, s') ∧
        o.output = "if x:\n result.error(7, a)\n# c\nresult.error(8, b)\n" ∧
        fixText false "if x:\n result.error(a)\n" ⟨6⟩ = (.ok o₁, s₁) ∧
        fixText false "# c\nresult.error(b)\n" s₁ = (.ok o₂, s') ∧
        o₁.output ++ o₂.output = o.output ∧
        (o₁.fixes ++ o₂.fixes).map Fix.facts = o.fixes.map Fix.facts := by
  have hlexa : lex "if x:\n result.error(a)\n" = sound [⟨.ifKw, "if"⟩, ⟨.whitespace, " "⟩, ⟨.ident, "x"⟩,
      ⟨.colon, ":"⟩, ⟨.newline, "\n"⟩, ⟨.whitespace, " "⟩, ⟨.indent, ""⟩, ⟨.ident, "result"⟩, ⟨.dot, "."⟩,
      ⟨.ident, "error"⟩, ⟨.lParen, "("⟩, ⟨.ident, "a"⟩, ⟨.rParen, ")"⟩, ⟨.newline, "\n"⟩,
      ⟨.dedent, ""⟩] := by cbv
  have hlexb : lex "# c\nresult.error(b)\n" = sound [⟨.comment, "# c"⟩, ⟨.nl, "\n"⟩, ⟨.ident, "result"⟩,
      ⟨.dot, "."⟩, ⟨.ident, "error"⟩, ⟨.lParen, "("⟩, ⟨.ident, "b"⟩, ⟨.rParen, ")"⟩,
      ⟨.newline, "\n"⟩] := by cbv
  have ha := errors_parse_of_lex hlexa (by decide +kernel)
  have hb := errors_parse_of_lex hlexb (by decide +kernel)
  have hline : EndsLine "if x:\n result.error(a)\n" :=
    ⟨[_, _, _, _, _, _, _, _, _, _, _, _, _], _, [_], tokensOf_of_lex hlexa, rfl, by decide, rfl⟩
  have hlex : lex ("if x:\n result.error(a)\n" ++ "# c\nresult.error(b)\n") = sound [⟨.ifKw, "if"⟩,
      ⟨.whitespace, " "⟩, ⟨.ident, "x"⟩, ⟨.colon, ":"⟩, ⟨.newline, "\n"⟩, ⟨.whitespace, " "⟩, ⟨.indent, ""⟩,
      ⟨.ident, "result"⟩, ⟨.dot, "."⟩, ⟨.ident, "error"⟩, ⟨.lParen, "("⟩, ⟨.ident, "a"⟩, ⟨.rParen, ")"⟩,
      ⟨.newline, "\n"⟩, ⟨.comment, "# c"⟩, ⟨.nl, "\n"⟩, ⟨.dedent, ""⟩, ⟨.ident, "result"⟩, ⟨.dot, "."⟩,
      ⟨.ident, "error"⟩, ⟨.lParen, "("⟩, ⟨.ident, "b"⟩, ⟨.rParen, ")"⟩, ⟨.newline, "\n"⟩] := by cbv
  have hpatched : Patched 0 [⟨20, "", "7, "⟩, ⟨40, "", "8, "⟩]
      ("if x:\n result.error(a)\n" ++ "# c\nresult.error(b)\n")
      "if x:\n result.error(7, a)\n# c\nresult.error(8, b)\n" :=
    ⟨"if x:\n result.error(", "a)\n# c\nresult.error(b)\n", "a)\n# c\nresult.error(8, b)\n", by decide,
      by decide, rfl, "a)\n# c\nresult.error(", "b)\n", "b)\n", by decide, by decide, rfl, rfl⟩
  obtain ⟨o, s', hfix, hout⟩ := exists_output_of_lex false ⟨6⟩ rfl hlex (by decide +kernel)
    (by decide +kernel) (by decide) hpatched
  obtain ⟨o₁, s₁, o₂, ho₁, ho₂, htext, hfs⟩ :=
    ((fixText_append ha hb hline).2 ⟨6⟩ s' _ _).1 ⟨o, hfix, rfl, rfl⟩
  exact ⟨ha, hb, hline, o, s', o₁, s₁, o₂, hfix, hout, ho₁, ho₂, htext, hfs⟩

end Renumber
