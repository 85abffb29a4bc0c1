import Renumber.Proofs.Concatenation
import Renumber.Proofs.Formatting
import Renumber.Proofs.Grammar.Line

/-!
# A broken line between two sources

A logical line that stands between two sources without problems, and that does not start like a statement of
several lines, is read as one simple statement whatever is on it; what comes before it and what comes behind
it are read as they are without it, and all problems are on the line (`errors_of_line`).

A problem points at one of the tokens, and which one is known when the tokens that are not trivia are counted
from the end (`suffix_of_significant`): there are at most as many as the line and the second source have, and
more than the second source has.
-/

namespace Renumber

open Grammar (nextKind upcoming)
open Layout (lexFrom)
open Lexeme (sound)
open Token (significant)
open Renumber.Tree (bareOf leavesOf)

/-! ## Logical lines -/

namespace Layout

/-- A logical line does not start with its end. -/
theorem nextKind_lexFrom_ne_newline {blocks : List Nat} {mode : Mode} {text : List Char}
    (hmode : ∀ d, mode ≠ .inLine d true) :
    nextKind ((lexFrom blocks mode text).map Lexeme.token) ≠ .newline := by
  have hblanks {cs : List Char} : ∀ t ∈ (blanks cs).map Lexeme.token, t.kind ≠ .newline := by
    intro t ht
    obtain ⟨l, hl, rfl⟩ := List.mem_map.1 ht
    obtain ⟨-, rfl⟩ := mem_blanks hl
    exact Kind.noConfusion
  have hfinish {blocks : List Nat} :
      nextKind ((finish blocks false).map Lexeme.token) ≠ .newline := by
    cases blocks <;> exact Kind.noConfusion
  fun_induction lexFrom blocks mode text with
  | case1 =>
    rw [List.map_append]
    exact Grammar.nextKind_append_ne hblanks hfinish
  | case2 blocks text indentation c cs hd hb r ih | case3 blocks text indentation c cs hd hb hc r ih =>
    rw [List.map_append, List.map_cons]
    refine Grammar.nextKind_append_ne hblanks ?_
    exact ih fun d => Mode.noConfusion
  | case4 blocks text indentation c cs hd hb hc before blocks' hm ih =>
    have hbefore : ∀ t ∈ before.map Lexeme.token, t.kind ≠ .newline := by
      intro t ht
      obtain ⟨l, hl, rfl⟩ := List.mem_map.1 ht
      have hl : l ∈ (marks blocks (columnOf indentation)).1 := by rwa [hm]
      obtain ⟨k, p, rfl, rfl | rfl⟩ := mem_marks hl <;> exact Kind.noConfusion
    rw [List.map_append, List.map_append, List.append_assoc]
    exact Grammar.nextKind_append_ne hblanks
      (Grammar.nextKind_append_ne hbefore (ih fun d h => by cases h))
  | case5 blocks d content =>
    cases content with
    | true => exact absurd rfl (hmode d)
    | false => exact hfinish
  | case6 blocks depth content c cs hb hd r ih =>
    simp only [Bool.and_eq_true] at hd
    rw [hd.2] at hmode
    exact absurd rfl (hmode depth)
  | case7 blocks depth content c cs hb hd r ih => exact ih hmode
  | case8 blocks depth content c cs hb r ih =>
    have hcontent : content = false := by
      cases content with
      | true => exact absurd rfl (hmode depth)
      | false => rfl
    have hkind : r.kind ≠ .newline := fun h => by
      have hscanned := isScanned_scan c cs
      rw [show (Reach.scan c cs).kind = .newline from h] at hscanned
      cases hscanned
    by_cases hr : r.kind.isContent = true
    · simp only [Kind.isContent, Bool.and_eq_true, Bool.not_eq_true'] at hr
      rw [List.map_cons, Grammar.nextKind_cons hr.1]
      exact hkind
    · have htaken : ∀ t ∈ [(r.taken c cs).token], t.kind ≠ .newline := List.forall_mem_singleton.2 hkind
      refine Grammar.nextKind_append_ne htaken (ih fun d h => hr ?_)
      rw [hcontent, Bool.false_or] at h
      exact (Mode.inLine.inj h).2

end Layout

/-- The text is one logical line: tokens none of which is of the layout, and behind them the line feed. -/
def LogicalLine (m : String) : Prop :=
  ∃ us t, tokensOf m = us ++ [t] ∧ t.kind = .newline ∧ t.text.toList.getLast? = some '\n' ∧
    ∀ u ∈ us, u.kind.isLayout = false

namespace LogicalLine

variable {m b : String}

theorem endsLine (h : LogicalLine m) : EndsLine m := by
  obtain ⟨us, t, htokens, ht, hfeed, -⟩ := h
  exact ⟨us, t, [], htokens, ht, hfeed, rfl⟩

/-- The tokens of a logical line that are not trivia: one at least, and the end of the line. -/
theorem exists_significant (h : LogicalLine m) :
    ∃ u us t, significant (tokensOf m) = u :: us ++ [t] ∧ nextKind (tokensOf m) = u.kind ∧
      u.kind.isTrivia = false ∧ (∀ v ∈ u :: us, v.kind ∉ Grammar.betweenLines) ∧ t.kind = .newline := by
  obtain ⟨us, t, htokens, ht, -, hus⟩ := h
  have htrivia : t.kind.isTrivia = false := ht ▸ rfl
  have hsig : significant (tokensOf m) = significant us ++ [t] := by
    rw [htokens, Token.significant_append, Token.significant_cons_of_not_trivia htrivia,
      Token.significant_nil]
  have hnext := Grammar.nextKind_significant (tokensOf m)
  cases hline : significant us with
  | nil =>
    rw [hsig, hline, List.nil_append, Grammar.nextKind_cons htrivia, ht] at hnext
    exact absurd hnext.symm (Layout.nextKind_lexFrom_ne_newline fun d => Layout.Mode.noConfusion)
  | cons u vs =>
    have hmem {v : Token} (hv : v ∈ u :: vs) : v ∈ us ∧ v.kind.isTrivia = false := by
      rw [← hline] at hv
      simpa [significant] using hv
    have hu := (hmem List.mem_cons_self).2
    rw [hsig, hline, List.cons_append, Grammar.nextKind_cons hu] at hnext
    refine ⟨u, vs, t, by rw [hsig, hline], hnext.symm, hu, fun v hv hbetween => ?_, ht⟩
    have hlayout := hus v (hmem hv).1
    have heof : v.kind ≠ .eof :=
      kind_ne_eof_of_mem_tokensOf (htokens ▸ List.mem_append_left _ (hmem hv).1)
    simp only [Grammar.betweenLines, List.mem_cons, List.not_mem_nil, or_false] at hbetween
    rcases hbetween with h | h | h | h
    · rw [h] at hlayout; cases hlayout
    · rw [h] at hlayout; cases hlayout
    · rw [h] at hlayout; cases hlayout
    · exact heof h

/-- A logical line opens no block, so a text behind it has the tokens that it has by itself. -/
theorem tokensOf_append (h : LogicalLine m) (hb : nextKind (tokensOf b) ≠ .indent) :
    tokensOf (m ++ b) = tokensOf m ++ tokensOf b := by
  obtain ⟨us, n, ws, vs, -, -, htokensm, htokensb, htokens⟩ := exists_tokensOf_append (.inr h.endsLine) hb
  obtain rfl : n = 0 := by
    obtain ⟨xs, t, htokens, ht, -, hxs⟩ := h
    by_contra hn
    have hmem : (⟨.dedent, ""⟩ : Token) ∈ xs ++ [t] := by
      rw [← htokens, htokensm]
      exact List.mem_append_right _ (List.mem_replicate.2 ⟨hn, rfl⟩)
    rcases List.mem_append.1 hmem with hmem | hmem
    · cases hxs _ hmem
    · rw [← List.mem_singleton.1 hmem] at ht
      cases ht
  rw [htokens, htokensm, htokensb]
  simp

end LogicalLine

/-! ## Where a fault is -/

section
variable {ts us vs : List Token}

/-- Of two ends of some tokens, the one that starts with a token that is not trivia, and has no more of them
than the other, is an end of the other. -/
theorem suffix_of_significant (hus : us <:+ ts) (hvs : vs <:+ ts) (hhead : upcoming us = us)
    (hle : (significant us).length ≤ (significant vs).length) : us <:+ vs := by
  rcases List.suffix_or_suffix_of_suffix hus hvs with h | ⟨zs, rfl⟩
  · exact h
  · cases zs with
    | nil => exact List.suffix_rfl
    | cons z zs =>
      rw [List.cons_append, Token.significant_cons_of_not_trivia (Grammar.not_trivia_of_upcoming hhead),
        Token.significant_append, List.length_cons, List.length_append] at hle
      omega

/-- Of two ends of some tokens, the one that has fewer tokens that are not trivia comes behind the first token
of the other. -/
theorem exists_cons_of_significant (hus : us <:+ ts) (hvs : vs <:+ ts)
    (hlt : (significant vs).length < (significant us).length) : ∃ z zs, us = z :: zs ∧ vs <:+ zs := by
  rcases List.suffix_or_suffix_of_suffix hus hvs with ⟨zs, rfl⟩ | ⟨zs, rfl⟩
  · rw [Token.significant_append, List.length_append] at hlt
    omega
  · cases zs with
    | nil => exact absurd hlt (lt_irrefl _)
    | cons z zs => exact ⟨z, zs ++ vs, rfl, zs, rfl⟩

theorem Token.sizeOf_le_of_suffix (h : us <:+ ts) : Token.sizeOf us ≤ Token.sizeOf ts := by
  obtain ⟨zs, rfl⟩ := h
  rw [Token.sizeOf_append]
  omega

end

/-! ## The line between the sources -/

section
variable {s₁ m s₂ : String}

theorem utf8ByteSize_eq (source : String) : source.utf8ByteSize = Token.sizeOf (tokensOf source) := by
  rw [← Token.utf8ByteSize_textOf, textOf_tokensOf]

/-- The line is read as one simple statement, and the faults are in front of its tokens. -/
theorem exists_bare_readFile (h₁ : (parse s₁).errors = []) (h₂ : (parse s₂).errors = [])
    (hs₁ : s₁ = "" ∨ EndsLine s₁) (hm : LogicalLine m) (hstart : nextKind (tokensOf m) ∉ Grammar.blockStarts)
    (hmargin : nextKind (tokensOf (m ++ s₂)) ≠ .indent) :
    ∃ cs fs, (Grammar.readFile (tokensOf (s₁ ++ (m ++ s₂)))).bare =
        ⟨bareOf (parse s₁).tree.children ++ .node .simpleStmt cs :: bareOf (parse s₂).tree.children, [], fs⟩ ∧
      leavesOf cs = significant (tokensOf m) ∧
      ∀ f ∈ fs, (significant (tokensOf s₂)).length < f.rest.length ∧
        f.rest.length ≤ (significant (tokensOf (m ++ s₂))).length := by
  obtain ⟨u, us, t, hsig, hnext, hu, hline, ht⟩ := hm.exists_significant
  rw [hnext] at hstart
  have hmargin₂ := Grammar.nextKind_ne_indent (reads_parse h₂)
  obtain ⟨cs, fs, hfile, hleaves, hfaults⟩ := Grammar.exists_makes_file_line (reads_parse h₁).bare
    (closes_tokensOf s₁).significant (ends_significant hs₁) (reads_parse h₂).bare hu hstart hline ht
  have hboth : significant (tokensOf (m ++ s₂)) = u :: us ++ t :: significant (tokensOf s₂) := by
    rw [significant_tokensOf_append (.inr hm.endsLine) hmargin₂, hsig,
      List.append_assoc]
    rfl
  rw [← hboth, ← significant_tokensOf_append hs₁ hmargin] at hfile
  refine ⟨cs, fs, (Grammar.readFile_significant _).symm.trans hfile.readFile_eq, hleaves.trans hsig.symm,
    fun f hf => ?_⟩
  obtain ⟨hfrom, hto⟩ := hfaults f hf
  exact ⟨hfrom.length_le, hboth ▸ hto.length_le⟩

/-- An error in front of a token of the line is on the line. -/
theorem span_of_line (hs₁ : s₁ = "" ∨ EndsLine s₁) (hm : LogicalLine m)
    (hmargin₂ : nextKind (tokensOf s₂) ≠ .indent) (hmargin : nextKind (tokensOf (m ++ s₂)) ≠ .indent)
    {f : Fault} (hf : f.rest <:+ tokensOf (s₁ ++ (m ++ s₂))) (hhead : upcoming f.rest = f.rest)
    (hfrom : (significant (tokensOf s₂)).length < (significant f.rest).length)
    (hto : (significant f.rest).length ≤ (significant (tokensOf (m ++ s₂))).length) :
    s₁.utf8ByteSize ≤ (f.error (Token.sizeOf (tokensOf (s₁ ++ (m ++ s₂))))).span.start ∧
      (f.error (Token.sizeOf (tokensOf (s₁ ++ (m ++ s₂))))).span.stop ≤
        s₁.utf8ByteSize + m.utf8ByteSize := by
  have hline := hm.tokensOf_append hmargin₂
  obtain ⟨us, n, ws, vs, -, hws, -, hboth, htokens⟩ := exists_tokensOf_append hs₁ hmargin
  have hsig : significant (tokensOf (m ++ s₂)) = significant vs := by
    rw [hboth, Token.significant_append, Token.significant_of_trivia hws, List.nil_append]
  have hvs : vs <:+ tokensOf (s₁ ++ (m ++ s₂)) := ⟨_, htokens.symm⟩
  have hs₂ : tokensOf s₂ <:+ tokensOf (s₁ ++ (m ++ s₂)) := by
    have hin : tokensOf s₂ <:+ ws ++ vs := ⟨tokensOf m, hline.symm.trans hboth⟩
    obtain ⟨z, zs, rfl, hzs⟩ := exists_cons_of_significant ⟨ws, rfl⟩ hin
      (hsig ▸ hfrom.trans_le hto)
    exact (hzs.trans ⟨[z], rfl⟩).trans hvs
  -- Behind it the second source comes, and from it on there is no more than that and the line.
  obtain ⟨z, zs, hz, hzs⟩ := exists_cons_of_significant hf hs₂ hfrom
  have hle := Token.sizeOf_le_of_suffix (suffix_of_significant hf hvs hhead (hsig ▸ hto))
  have hle₂ := Token.sizeOf_le_of_suffix hzs
  have hsize : Token.sizeOf (ws ++ vs) = m.utf8ByteSize + s₂.utf8ByteSize := by
    rw [← hboth, ← utf8ByteSize_eq, String.utf8ByteSize_append]
  rw [Token.sizeOf_append] at hsize
  have htotal : Token.sizeOf (tokensOf (s₁ ++ (m ++ s₂))) =
      s₁.utf8ByteSize + (m.utf8ByteSize + s₂.utf8ByteSize) := by
    rw [← utf8ByteSize_eq, String.utf8ByteSize_append, String.utf8ByteSize_append]
  rw [← utf8ByteSize_eq] at hle₂
  rw [htotal, Fault.error, hz, Token.sizeOf, List.head?_cons, Option.map_some, Option.getD_some]
  rw [hz, Token.sizeOf] at hle
  constructor <;> dsimp only <;> omega

/-- Error recovery is local to a logical line: between two sources without problems, of which the first one is
empty or ends with a logical line, all errors are in the span of the line, and the tree is that of the first
source, one simple statement that holds the tokens of the line, and that of the second source, trivia left
out. -/
theorem errors_of_line (h₁ : (parse s₁).errors = []) (h₂ : (parse s₂).errors = [])
    (hs₁ : s₁ = "" ∨ EndsLine s₁) (hm : LogicalLine m) (hlex : lexicalErrors (lex m) = [])
    (hstart : nextKind (tokensOf m) ∉ Grammar.blockStarts) :
    (∀ e ∈ (parse (s₁ ++ m ++ s₂)).errors,
      s₁.utf8ByteSize ≤ e.span.start ∧ e.span.stop ≤ s₁.utf8ByteSize + m.utf8ByteSize) ∧
    ∃ cs, bareOf (parse (s₁ ++ m ++ s₂)).tree.children =
        bareOf (parse s₁).tree.children ++ .node .simpleStmt cs :: bareOf (parse s₂).tree.children ∧
      leavesOf cs = significant (tokensOf m) := by
  rw [String.append_assoc]
  have hmargin₂ := Grammar.nextKind_ne_indent (reads_parse h₂)
  have hmargin : nextKind (tokensOf (m ++ s₂)) ≠ .indent := by
    obtain ⟨u, us, t, hsig, -, hu, hline, -⟩ := hm.exists_significant
    rw [← Grammar.nextKind_significant, significant_tokensOf_append (.inr hm.endsLine) hmargin₂, hsig,
      List.append_assoc, List.cons_append, Grammar.nextKind_cons hu]
    exact fun h => hline u List.mem_cons_self (h ▸ by decide)
  have hlexall : lexicalErrors (lex (s₁ ++ (m ++ s₂))) = [] := by
    have hnone {s : String} (h : (parse s).errors = []) : ∀ l ∈ lex s, l.problem? = none := fun l hl =>
      problem?_of_mem_sound ((errors_parse_eq_nil_iff.1 h).1 ▸ hl)
    refine lexicalErrors_eq_nil_iff.2 fun l hl => ?_
    rcases mem_lex_append hs₁ hmargin hl with hl | hl
    · exact hnone h₁ l hl
    · exact (mem_lex_append (.inr hm.endsLine) hmargin₂ hl).elim (lexicalErrors_eq_nil_iff.1 hlex l)
        (hnone h₂ l)
  obtain ⟨cs, fs, hbare, hleaves, hfaults⟩ := exists_bare_readFile h₁ h₂ hs₁ hm hstart hmargin
  refine ⟨fun e he => ?_, cs, congrArg Grammar.Reading.trees hbare, hleaves⟩
  rw [errors_parse hlexall] at he
  obtain ⟨f, hf, rfl⟩ := List.mem_map.1 he
  have horder := Grammar.inOrder_readFile (tokensOf (s₁ ++ (m ++ s₂)))
  have hfs : (Grammar.readFile (tokensOf (s₁ ++ (m ++ s₂)))).faults.map Fault.bare = fs :=
    congrArg Grammar.Reading.faults hbare
  obtain ⟨hfrom, hto⟩ := hfaults f.bare (hfs ▸ List.mem_map_of_mem hf)
  exact span_of_line hs₁ hm hmargin₂ hmargin ((horder.within f hf).trans (Grammar.upcoming_suffix _))
    (horder.head f hf) hfrom hto

end

set_option maxRecDepth 4000 in
/-- Brackets that do not match, behind an open block. -/
theorem errors_of_line_brackets :
    (parse "if a:\n b\n").errors = [] ∧ (parse "c\n").errors = [] ∧ EndsLine "if a:\n b\n" ∧
      LogicalLine "(]\n" ∧ lexicalErrors (lex "(]\n") = [] ∧
      nextKind (tokensOf "(]\n") ∉ Grammar.blockStarts ∧
      (parse ("if a:\n b\n" ++ "(]\n" ++ "c\n")).errors.map (·.span) = [⟨10, 11⟩, ⟨10, 11⟩, ⟨10, 11⟩] ∧
      (∀ e ∈ (parse ("if a:\n b\n" ++ "(]\n" ++ "c\n")).errors, 9 ≤ e.span.start ∧ e.span.stop ≤ 12) ∧
      ∃ cs, bareOf (parse ("if a:\n b\n" ++ "(]\n" ++ "c\n")).tree.children =
          bareOf (parse "if a:\n b\n").tree.children ++
            .node .simpleStmt cs :: bareOf (parse "c\n").tree.children ∧
        leavesOf cs = [⟨.lParen, "("⟩, ⟨.rBracket, "]"⟩, ⟨.newline, "\n"⟩] := by
  have hlex₁ : lex "if a:\n b\n" = sound [⟨.ifKw, "if"⟩, ⟨.whitespace, " "⟩, ⟨.ident, "a"⟩, ⟨.colon, ":"⟩,
      ⟨.newline, "\n"⟩, ⟨.whitespace, " "⟩, ⟨.indent, ""⟩, ⟨.ident, "b"⟩, ⟨.newline, "\n"⟩,
      ⟨.dedent, ""⟩] := by cbv
  have hlex₂ : lex "c\n" = sound [⟨.ident, "c"⟩, ⟨.newline, "\n"⟩] := by cbv
  have hlexm : lex "(]\n" = sound [⟨.lParen, "("⟩, ⟨.rBracket, "]"⟩, ⟨.newline, "\n"⟩] := by cbv
  have hlex : lex ("if a:\n b\n" ++ "(]\n" ++ "c\n") = sound [⟨.ifKw, "if"⟩, ⟨.whitespace, " "⟩,
      ⟨.ident, "a"⟩, ⟨.colon, ":"⟩, ⟨.newline, "\n"⟩, ⟨.whitespace, " "⟩, ⟨.indent, ""⟩, ⟨.ident, "b"⟩,
      ⟨.newline, "\n"⟩, ⟨.dedent, ""⟩, ⟨.lParen, "("⟩, ⟨.rBracket, "]"⟩, ⟨.newline, "\n"⟩, ⟨.ident, "c"⟩,
      ⟨.newline, "\n"⟩] := by cbv
  have h₁ := errors_parse_of_lex hlex₁ (by decide +kernel)
  have h₂ := errors_parse_of_lex hlex₂ (by decide +kernel)
  have hs₁ : EndsLine "if a:\n b\n" :=
    ⟨[_, _, _, _, _, _, _, _], _, [_], tokensOf_of_lex hlex₁, rfl, by decide, rfl⟩
  have htokens := tokensOf_of_lex hlexm
  have hm : LogicalLine "(]\n" := ⟨[_, _], _, htokens, rfl, by decide, by decide⟩
  have hclean := lexicalErrors_of_lex hlexm
  have hstart : nextKind (tokensOf "(]\n") ∉ Grammar.blockStarts := htokens ▸ by decide
  have hspans : (parse ("if a:\n b\n" ++ "(]\n" ++ "c\n")).errors.map (·.span) =
      [⟨10, 11⟩, ⟨10, 11⟩, ⟨10, 11⟩] := by
    rw [errors_parse (lexicalErrors_of_lex hlex), tokensOf_of_lex hlex]
    decide +kernel
  obtain ⟨hin, cs, htree, hleaves⟩ := errors_of_line h₁ h₂ (.inr hs₁) hm hclean hstart
  rw [htokens] at hleaves
  exact ⟨h₁, h₂, hs₁, hm, hclean, hstart, hspans, hin, cs, htree, hleaves⟩

end Renumber
