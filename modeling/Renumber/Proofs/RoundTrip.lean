import Renumber.Proofs.Grammar.Balance
import Renumber.Proofs.Grammar.Bare
import Renumber.Proofs.Grammar.Readable
import Renumber.Proofs.Layout.Lines

/-!
# Round trip of expressions

An expression that is written down is parsed as the tree of the expression (`parse_fitted`). Its tokens stand
apart from each other by single blanks, so each is scanned as it is by itself (`Layout.lexFrom_spacedOut`);
its brackets are balanced, so the break at the end is the end of its logical line. What the grammar makes of
the tokens is `Expr.readable_fitted`.
-/

namespace Renumber

open Text (isBreak)
open Lexeme (isSpace isBoundary sound)

/-! ## Tokens with spaces between them -/

/-- The token is content, and the scan takes its whole text as one token. -/
def Token.Plain (t : Token) : Prop := t.Whole ∧ t.kind.isContent = true

theorem Kind.not_isTrivia_of_isContent {k : Kind} (h : k.isContent = true) : k.isTrivia = false := by
  rw [isContent, Bool.and_eq_true, Bool.not_eq_true'] at h
  exact h.1

/-- No token without a problem starts with a line break. -/
theorem Lexeme.not_isBreak_of_scan {c : Char} {cs : List Char}
    (h : (Reach.scan c cs).problem? = none) : isBreak c = false := by
  rw [← Bool.not_eq_true]
  intro hc
  rw [isBreak, Bool.or_eq_true, beq_iff_eq, beq_iff_eq] at hc
  rcases hc with rfl | rfl <;> cases h

/-- The first character of a token, which starts no trivia. -/
theorem Token.Plain.exists_cons {t : Token} (h : t.Plain) : ∃ c cs, t.text.toList = c :: cs ∧
    isSpace c = false ∧ (c == '#') = false ∧ isBreak c = false ∧
    Reach.scan c cs = ⟨t.kind, cs.length, none⟩ := by
  obtain ⟨⟨c, cs, htext, hscan⟩, hcontent⟩ := h
  have htriv := Kind.not_isTrivia_of_isContent hcontent
  have hspace : isSpace c = false := by
    rw [← Bool.not_eq_true]
    intro hc
    rw [Reach.scan, if_pos hc] at hscan
    rw [← (Reach.mk.inj hscan).1] at htriv
    cases htriv
  have hcomment : (c == '#') = false := by
    rw [← Bool.not_eq_true]
    intro hc
    rw [Reach.scan, if_neg (by rw [hspace]; exact Bool.false_ne_true), if_pos hc] at hscan
    rw [← (Reach.mk.inj hscan).1] at htriv
    cases htriv
  exact ⟨c, cs, htext, hspace, hcomment, Lexeme.not_isBreak_of_scan (by rw [hscan]), hscan⟩

/-- The blank between two tokens. -/
def Token.blank : Token := ⟨.whitespace, " "⟩

namespace Layout

section
variable {t : Token} {ts : List Token} {blocks : List Nat} {d e : Nat} {content : Bool}

/-- A token in front of a boundary. -/
theorem lexFrom_plain (h : t.Plain) {rest : List Char} (hrest : ∀ a ∈ rest.head?, isBoundary a = true) :
    lexFrom blocks (.inLine d content) (t.text.toList ++ rest) =
      ⟨t, none⟩ :: lexFrom blocks (.inLine (depthAfter d t.kind) true) rest := by
  obtain ⟨c, cs, htext, -, -, hbreak, hscan⟩ := h.exists_cons
  have hscan' : Reach.scan c (cs ++ rest) = ⟨t.kind, cs.length, none⟩ := by
    cases rest with
    | nil => rw [List.append_nil, hscan]
    | cons a as =>
      rw [← hscan]
      refine Lexeme.scan_append (hrest a rfl) (by rw [hscan]) (fun htriv => ?_) as
      rw [hscan, Kind.not_isTrivia_of_isContent h.2] at htriv
      cases htriv
  rw [lexFrom_of_scan htext hbreak hscan', h.2, Bool.or_true]

/-- A single blank. -/
theorem lexFrom_blank {rest : List Char} (hrest : ∀ a ∈ rest.head?, isSpace a = false) :
    lexFrom blocks (.inLine d true) (' ' :: rest) =
      ⟨Token.blank, none⟩ :: lexFrom blocks (.inLine d true) rest := by
  have hmore : Lexeme.runLength isSpace rest = 0 := by
    cases rest with
    | nil => rfl
    | cons a as => rw [Lexeme.runLength, List.takeWhile_cons, hrest a rfl]; rfl
  have hscan : Reach.scan ' ' ([] ++ rest) = ⟨.whitespace, 0, none⟩ := by
    rw [Reach.scan, if_pos (show isSpace ' ' = true from rfl), List.nil_append, hmore]
  exact lexFrom_of_scan (t := Token.blank) rfl rfl hscan blocks d true

/-- The characters of some tokens with a blank between every two. -/
def spacedOut (ts : List Token) : List Char := [' '].intercalate (ts.map fun t => t.text.toList)

theorem spacedOut_singleton (t : Token) : spacedOut [t] = t.text.toList :=
  List.intercalate_singleton

theorem spacedOut_cons_cons (t u : Token) (us : List Token) :
    spacedOut (t :: u :: us) = t.text.toList ++ ' ' :: spacedOut (u :: us) := by
  rw [spacedOut, List.map_cons, List.map_cons, List.intercalate_cons_cons, List.append_assoc]
  rfl

theorem exists_spacedOut (h : t.Plain) (ts : List Token) : ∃ c cs, spacedOut (t :: ts) = c :: cs ∧
    isSpace c = false ∧ (c == '#') = false ∧ isBreak c = false := by
  obtain ⟨c, cs, htext, hspace, hcomment, hbreak, -⟩ := h.exists_cons
  cases ts with
  | nil => exact ⟨c, cs, (spacedOut_singleton t).trans htext, hspace, hcomment, hbreak⟩
  | cons u us =>
    refine ⟨c, cs ++ ' ' :: spacedOut (u :: us), ?_, hspace, hcomment, hbreak⟩
    rw [spacedOut_cons_cons, htext, List.cons_append]

/-- Tokens with blanks between them, in front of the end of their line. -/
theorem lexFrom_spacedOut {ending : List Char} (hending : ∀ b ∈ ending.head?, isBreak b = true)
    (hplain : ∀ u ∈ t :: ts, u.Plain) :
    lexFrom blocks (.inLine d content) (spacedOut (t :: ts) ++ ending) =
      sound ((t :: ts).intersperse Token.blank) ++
        lexFrom blocks (.inLine (depthPast d (t :: ts)) true) ending := by
  induction ts generalizing t d content with
  | nil =>
    rw [spacedOut_singleton, lexFrom_plain (hplain t List.mem_cons_self)
      fun a ha => Lexeme.isBoundary_of_isBreak (hending a ha)]
    rfl
  | cons u us ih =>
    have hmore : ∀ v ∈ u :: us, v.Plain := fun v hv => hplain v (List.mem_cons_of_mem _ hv)
    obtain ⟨c, cs, hcs, hspace, -, -⟩ := exists_spacedOut (hmore u List.mem_cons_self) us
    have hhead : ∀ a ∈ (spacedOut (u :: us) ++ ending).head?, isSpace a = false := by
      rw [hcs]
      rintro _ ⟨⟩
      exact hspace
    rw [spacedOut_cons_cons, List.append_assoc, List.cons_append,
      lexFrom_plain (hplain t List.mem_cons_self) (by rintro _ ⟨⟩; rfl), lexFrom_blank hhead, ih hmore]
    rfl

/-- A line of tokens with blanks between them. -/
theorem lexFrom_fresh_spacedOut {ending : List Char} (hending : ∀ b ∈ ending.head?, isBreak b = true)
    (hplain : ∀ u ∈ t :: ts, u.Plain) :
    lexFrom [] .fresh (spacedOut (t :: ts) ++ ending) =
      sound ((t :: ts).intersperse Token.blank) ++
        lexFrom [] (.inLine (depthPast 0 (t :: ts)) true) ending := by
  obtain ⟨c, cs, hcs, hspace, hcomment, hbreak⟩ :=
    exists_spacedOut (hplain t List.mem_cons_self) ts
  have hfresh : lexFrom [] .fresh ([] ++ c :: (cs ++ ending)) = _ :=
    lexFrom_fresh_cons (List.forall_mem_nil _) hspace _
  rw [if_neg (by rw [hbreak]; exact Bool.false_ne_true),
    if_neg (by rw [hcomment]; exact Bool.false_ne_true), ← List.cons_append, ← hcs] at hfresh
  have hline : lexFrom [] (.inLine 0 false) (spacedOut (t :: ts) ++ ending) = _ :=
    lexFrom_spacedOut hending hplain
  rw [← hline]
  exact hfresh

/-- The end of a line outside brackets. -/
theorem lexFrom_lineEnd {ending : List Char} (h : ending ∈ [] :: endings) :
    (∀ b ∈ ending.head?, isBreak b = true) ∧
      lexFrom [] (.inLine 0 true) ending = sound [⟨.newline, String.ofList ending⟩] := by
  rcases List.mem_cons.1 h with rfl | h
  · exact ⟨by rintro _ ⟨⟩, by rw [lexFrom]; rfl⟩
  · obtain ⟨b, bs, rfl, hb, hreach⟩ := exists_break h
    have hbreak := hreach .newline []
    rw [List.append_nil] at hbreak
    refine ⟨by rintro _ ⟨⟩; exact hb, ?_⟩
    rw [lexFrom_inLine_cons, if_pos hb, if_pos (show (decide (0 = 0) && true) = true from rfl),
      hbreak.1, hbreak.2, lexFrom]
    rfl

end

end Layout

namespace Expr

/-- An expression as it is written: its tokens with single blanks between them. -/
def text (e : Expr) : String := " ".intercalate (e.tokens.map Token.text)

theorem toList_text (e : Expr) : e.text.toList = Layout.spacedOut e.tokens := by
  rw [text, String.toList_intercalate, List.map_map]
  rfl

/-- The tokens that are in an expression besides operands and operators. -/
def marks : List Token :=
  [⟨.lParen, "("⟩, ⟨.rParen, ")"⟩, ⟨.dot, "."⟩, ⟨.comma, ","⟩, ⟨.doubleStar, "**"⟩, ⟨.ifKw, "if"⟩,
   ⟨.elseKw, "else"⟩]

theorem plain_marks : ∀ t ∈ marks, t.Plain := by
  simp only [marks, List.forall_mem_cons]
  refine ⟨?_, ?_, ?_, ?_, ?_, ?_, ?_, List.forall_mem_nil _⟩ <;>
    exact ⟨⟨_, _, rfl, rfl⟩, rfl⟩

theorem plain_operator (op : Operator) : ∀ t ∈ op.tokens, t.Plain := by
  cases op with
  | isNot | notElem =>
    exact List.forall_mem_cons.2 ⟨⟨⟨_, _, rfl, rfl⟩, rfl⟩,
      List.forall_mem_singleton.2 ⟨⟨_, _, rfl, rfl⟩, rfl⟩⟩
  | _ => exact List.forall_mem_singleton.2 ⟨⟨_, _, rfl, rfl⟩, rfl⟩

theorem plain_unary (op : UnaryOperator) : op.token.Plain := by
  cases op <;> exact ⟨⟨_, _, rfl, rfl⟩, rfl⟩

theorem plain_operand (o : Operand) : o.token.Plain :=
  ⟨o.whole, (by decide : ∀ k ∈ operandKinds, k.isContent = true) _ o.kind_mem⟩

mutual

/-- Every token of an expression is one by itself. -/
theorem plain_tokens : (e : Expr) → ∀ t ∈ e.tokens, t.Plain
  | operand o => List.forall_mem_singleton.2 (plain_operand o)
  | paren e => List.forall_mem_cons.2 ⟨plain_marks _ (by decide), List.forall_mem_append.2
      ⟨plain_tokens e, List.forall_mem_singleton.2 (plain_marks _ (by decide))⟩⟩
  | attr e name => List.forall_mem_append.2 ⟨plain_tokens e, List.forall_mem_cons.2
      ⟨plain_marks _ (by decide), List.forall_mem_singleton.2 (plain_operand name.1)⟩⟩
  | call e arguments => List.forall_mem_append.2 ⟨plain_tokens e, List.forall_mem_cons.2
      ⟨plain_marks _ (by decide), List.forall_mem_append.2
        ⟨plain_arguments arguments, List.forall_mem_singleton.2 (plain_marks _ (by decide))⟩⟩⟩
  | power base exponent => List.forall_mem_append.2 ⟨plain_tokens base, List.forall_mem_cons.2
      ⟨plain_marks _ (by decide), plain_tokens exponent⟩⟩
  | unary op e => List.forall_mem_cons.2 ⟨plain_unary op, plain_tokens e⟩
  | binary op left right => List.forall_mem_append.2 ⟨plain_tokens left, List.forall_mem_append.2
      ⟨plain_operator op, plain_tokens right⟩⟩
  | ternary e condition otherwise => List.forall_mem_append.2 ⟨plain_tokens e,
      List.forall_mem_cons.2 ⟨plain_marks _ (by decide), List.forall_mem_append.2
        ⟨plain_tokens condition, List.forall_mem_cons.2
          ⟨plain_marks _ (by decide), plain_tokens otherwise⟩⟩⟩⟩

theorem plain_arguments : (es : List Expr) → ∀ t ∈ argumentTokens es, t.Plain
  | [] => List.forall_mem_nil _
  | e :: es => List.forall_mem_append.2 ⟨plain_tokens e, plain_more es⟩

theorem plain_more : (es : List Expr) → ∀ t ∈ moreTokens es, t.Plain
  | [] => List.forall_mem_nil _
  | e :: es => List.forall_mem_cons.2 ⟨plain_marks _ (by decide),
      List.forall_mem_append.2 ⟨plain_tokens e, plain_more es⟩⟩

end

/-- The tokens of an expression close the parentheses that they open. -/
theorem Readable.climb_tokens {e : Expr} (h : e.Readable) : Token.climb 0 e.tokens = some 0 := by
  have hread : Grammar.Reads (.rule .argument) (e.tokens ++ [⟨.rParen, ")"⟩]) _ _ :=
    h.reads_argument List.mem_cons_self
  have hleaves := List.append_cancel_right hread.leaves_append
  rw [← hleaves]
  exact (Grammar.climb_argument hread 0).1

end Expr

/-- The blanks between tokens are trivia. -/
theorem significant_intersperse {ts : List Token} (h : ∀ t ∈ ts, t.Plain) :
    Token.significant (ts.intersperse Token.blank) = ts := by
  induction ts with
  | nil => rfl
  | cons t ts ih =>
    have ht := Kind.not_isTrivia_of_isContent (h t List.mem_cons_self).2
    cases ts with
    | nil => exact Token.significant_cons_of_not_trivia ht []
    | cons u us =>
      rw [List.intersperse_cons_cons, Token.significant_cons_of_not_trivia ht,
        Token.significant_cons_of_trivia rfl, ih fun v hv => h v (List.mem_cons_of_mem _ hv)]

/-- An expression in a line of its own, with parentheses where its levels need them, is parsed without a
problem, and as a statement with the tree of the expression. -/
theorem parse_fitted (e : Expr) {ending : List Char} (hending : ending ∈ [] :: Layout.endings) :
    (parse (e.fitted.text ++ String.ofList ending)).errors = [] ∧
      (parse (e.fitted.text ++ String.ofList ending)).tree.bare =
        .node .module [.node .simpleStmt
          [.node .exprStmt [e.fitted.tree], .token ⟨.newline, String.ofList ending⟩]] := by
  have hreadable := e.readable_fitted
  have hplain := e.fitted.plain_tokens
  have hlex : lex (e.fitted.text ++ String.ofList ending) =
      sound (e.fitted.tokens.intersperse Token.blank ++ [⟨.newline, String.ofList ending⟩]) := by
    have hdepth := Layout.depthPast_of_climb hreadable.climb_tokens
    obtain ⟨hbreak, hline⟩ := Layout.lexFrom_lineEnd hending
    obtain ⟨t, ts, htokens, -⟩ := hreadable.starts
    rw [htokens] at hplain hdepth ⊢
    rw [lex, String.toList_append, Expr.toList_text, String.toList_ofList, htokens,
      Layout.lexFrom_fresh_spacedOut hbreak hplain, hdepth, hline, ← Lexeme.sound_append]
  generalize e.fitted.text ++ String.ofList ending = source at hlex ⊢
  have htokens : tokensOf source =
      e.fitted.tokens.intersperse Token.blank ++ [⟨.newline, String.ofList ending⟩] :=
    tokensOf_of_lex hlex
  have hread : (Grammar.readFile (tokensOf source)).bare = ⟨[.node .simpleStmt
      [.node .exprStmt [e.fitted.tree], .token ⟨.newline, String.ofList ending⟩]], [], []⟩ := by
    rw [← Grammar.readFile_significant, htokens, Token.significant_append,
      significant_intersperse hplain, Token.significant_cons_of_not_trivia rfl,
      Token.significant_nil, Grammar.readFile_of_reads (hreadable.reads_file _)]
  refine ⟨errors_parse_eq_nil_iff.2 ⟨by rw [htokens, hlex], ?_⟩, ?_⟩
  · exact List.map_eq_nil_iff.1 (congrArg Grammar.Reading.faults hread)
  · show Tree.bare (.node .module (Grammar.readFile (tokensOf source)).trees) = _
    rw [Tree.bare_node, show Tree.bareOf _ = _ from congrArg Grammar.Reading.trees hread]

/-- A sign belongs to its operand alone, and the base of a power needs parentheses. -/
theorem parse_fitted_product : ∃ e : Expr, ['\n'] ∈ [] :: Layout.endings ∧
    e.fitted.text ++ "\n" = "- a * ( b + 1 ) ** c\n" ∧
    (parse "- a * ( b + 1 ) ** c\n").errors = [] ∧
    (parse "- a * ( b + 1 ) ** c\n").tree.bare =
      .node .module [.node .simpleStmt
        [.node .exprStmt [.node .binExpr
          [.node .unaryExpr [.token ⟨.minus, "-"⟩, .node .name [.token ⟨.ident, "a"⟩]],
           .token ⟨.star, "*"⟩,
           .node .powerExpr
             [.node .parenExpr
                [.token ⟨.lParen, "("⟩,
                 .node .binExpr
                   [.node .name [.token ⟨.ident, "b"⟩], .token ⟨.plus, "+"⟩,
                    .node .literal [.token ⟨.number, "1"⟩]],
                 .token ⟨.rParen, ")"⟩],
              .token ⟨.doubleStar, "**"⟩, .node .name [.token ⟨.ident, "c"⟩]]]],
         .token ⟨.newline, "\n"⟩]] := by
  have hending : ['\n'] ∈ [] :: Layout.endings := by decide
  let a : Operand := ⟨⟨.ident, "a"⟩, by decide, _, _, rfl, rfl⟩
  let b : Operand := ⟨⟨.ident, "b"⟩, by decide, _, _, rfl, rfl⟩
  let c : Operand := ⟨⟨.ident, "c"⟩, by decide, _, _, rfl, rfl⟩
  let one : Operand := ⟨⟨.number, "1"⟩, by decide, _, _, rfl, rfl⟩
  let e := Expr.binary .star (.unary .minus (.operand a))
    (.power (.binary .plus (.operand b) (.operand one)) (.operand c))
  have htokens : e.fitted.tokens.map Token.text =
      ["-", "a", "*", "(", "b", "+", "1", ")", "**", "c"] := rfl
  have htext : e.fitted.text ++ "\n" = "- a * ( b + 1 ) ** c\n" := by
    rw [Expr.text, htokens]
    decide
  obtain ⟨herrors, htree⟩ := parse_fitted e hending
  rw [show String.ofList ['\n'] = "\n" from rfl, htext] at herrors htree
  exact ⟨e, hending, htext, herrors, htree⟩

end Renumber
