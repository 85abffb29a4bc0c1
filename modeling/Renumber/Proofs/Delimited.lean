import Renumber.Proofs.Layout.Cut
import Renumber.Proofs.Layout.Lexemes
import Renumber.Proofs.RoundTrip

/-!
# Tokens delimit themselves

The content of a logical line may be written anew, with single blanks between its tokens: it is lexed as the
same tokens (`delimited_lines`). Each of them is scanned as it is by itself (`plain_of_mem_lex`), whatever stood
behind it in its source, and so it is in front of a blank (`Layout.lexFrom_plain`). Brackets need not match in
such a line, which has no break that they could take in.
-/

namespace Renumber

open Lexeme (sound)
open Layout (spacedOut)

/-- The logical lines of some tokens: what stands between the marks at their ends. -/
def Token.lines (ts : List Token) : List (List Token) := ts.splitOnP fun t => t.kind == .newline

theorem Token.mem_of_mem_lines {ts line : List Token} {t : Token} (h : line ∈ lines ts) (ht : t ∈ line) :
    t ∈ ts := by
  induction ts generalizing line with
  | nil =>
    obtain rfl : line = [] := List.mem_singleton.1 h
    exact ht
  | cons u us ih =>
    obtain ⟨first, rest, hus⟩ : ∃ first rest, lines us = first :: rest :=
      List.exists_cons_of_ne_nil (List.splitOnP_ne_nil _ us)
    rw [lines, List.splitOnP_cons_eq_if_modifyHead, ← lines, hus] at h
    rw [hus] at ih
    split at h
    · rcases List.mem_cons.1 h with rfl | h
      · cases ht
      · exact List.mem_cons_of_mem u (ih h ht)
    · rw [List.modifyHead_cons] at h
      rcases List.mem_cons.1 h with rfl | h
      · exact List.mem_cons.2 ((List.mem_cons.1 ht).imp_right (ih List.mem_cons_self))
      · exact List.mem_cons_of_mem u (ih (List.mem_cons_of_mem first h) ht)

/-- Content that has been scanned without a problem is scanned as it is by itself. -/
theorem plain_of_mem_lex {source : String} {l : Lexeme} (h : l ∈ lex source) (hproblem : l.problem? = none)
    (hcontent : l.token.kind.isContent = true) : l.token.Plain := by
  obtain ⟨htriv, hmark⟩ := Bool.and_eq_true_iff.1 hcontent
  rw [Bool.not_eq_true'] at htriv hmark
  obtain ⟨c, cs, rfl⟩ := Layout.exists_scan_of_mem_lexFrom h htriv hmark
  refine ⟨⟨c, cs.take (Reach.scan c cs).more, String.toList_ofList, ?_⟩, hcontent⟩
  rw [Reach.scan_take (Nat.le_refl _), List.length_take, Nat.min_eq_left (Lexeme.more_scan_le c cs)]
  exact congrArg (Reach.mk _ _) hproblem

/-- Content tokens with single blanks between them. -/
theorem lex_spacedOut {t : Token} {ts : List Token} (hplain : ∀ u ∈ t :: ts, u.Plain) :
    lex (" ".intercalate ((t :: ts).map Token.text)) =
      sound ((t :: ts).intersperse Token.blank ++ [⟨.newline, ""⟩]) := by
  have htext : (" ".intercalate ((t :: ts).map Token.text)).toList = spacedOut (t :: ts) := by
    rw [String.toList_intercalate, List.map_map]
    rfl
  have hend (d : Nat) : Layout.lexFrom [] (.inLine d true) [] = sound [⟨.newline, ""⟩] := by
    rw [Layout.lexFrom]
    rfl
  have hline : Layout.lexFrom [] .fresh (spacedOut (t :: ts) ++ []) = _ :=
    Layout.lexFrom_fresh_spacedOut (by simp) hplain
  rw [hend, List.append_nil] at hline
  rw [lex, htext, hline, Lexeme.sound_append]

/-- The content of a logical line, written with single blanks between its tokens, is lexed as these tokens and
without problems. -/
theorem delimited_lines {source : String} (h : lexicalErrors (lex source) = []) {line : List Token}
    (hline : line ∈ Token.lines (tokensOf source))
    (hcontent : line.filter (fun t => t.kind.isContent) ≠ []) :
    let ts := line.filter fun t => t.kind.isContent
    let text := " ".intercalate (ts.map Token.text)
    lexicalErrors (lex text) = [] ∧ tokensOf text = ts.intersperse Token.blank ++ [⟨.newline, ""⟩] := by
  intro ts text
  have hplain : ∀ t ∈ ts, t.Plain := by
    intro t ht
    obtain ⟨hmem, hkind⟩ := List.mem_filter.1 ht
    obtain ⟨l, hl, rfl⟩ := List.mem_map.1 (Token.mem_of_mem_lines hline hmem)
    exact plain_of_mem_lex hl (lexicalErrors_eq_nil_iff.1 h l hl) hkind
  have hlex : lex text = sound (ts.intersperse Token.blank ++ [⟨.newline, ""⟩]) := by
    obtain ⟨u, us, hts⟩ := List.exists_cons_of_ne_nil hcontent
    simp only [text, ts] at hplain ⊢
    rw [hts] at hplain ⊢
    exact lex_spacedOut hplain
  exact ⟨lexicalErrors_of_lex hlex, tokensOf_of_lex hlex⟩

set_option maxRecDepth 4000 in
/-- The blocks and the comment go, and what stood without blanks stays apart. -/
theorem delimited_lines_block :
    let source := "if x:\n    f(.5j, rb\x27a\x27,\n      [y])  # z\n"
    let ts : List Token := [⟨.ident, "f"⟩, ⟨.lParen, "("⟩, ⟨.number, ".5j"⟩, ⟨.comma, ","⟩,
      ⟨.str, "rb\x27a\x27"⟩, ⟨.comma, ","⟩, ⟨.lBracket, "["⟩, ⟨.ident, "y"⟩, ⟨.rBracket, "]"⟩, ⟨.rParen, ")"⟩]
    lexicalErrors (lex source) = [] ∧
    (∃ line ∈ Token.lines (tokensOf source), (line.filter fun t => t.kind.isContent) = ts) ∧
    " ".intercalate (ts.map Token.text) = "f ( .5j , rb\x27a\x27 , [ y ] )" ∧
    lexicalErrors (lex "f ( .5j , rb\x27a\x27 , [ y ] )") = [] ∧
    tokensOf "f ( .5j , rb\x27a\x27 , [ y ] )" = ts.intersperse Token.blank ++ [⟨.newline, ""⟩] := by
  have hlex : lex "if x:\n    f(.5j, rb\x27a\x27,\n      [y])  # z\n" = sound [⟨.ifKw, "if"⟩, ⟨.whitespace, " "⟩, ⟨.ident, "x"⟩, ⟨.colon, ":"⟩,
      ⟨.newline, "\n"⟩, ⟨.whitespace, "    "⟩, ⟨.indent, ""⟩, ⟨.ident, "f"⟩, ⟨.lParen, "("⟩, ⟨.number, ".5j"⟩,
      ⟨.comma, ","⟩, ⟨.whitespace, " "⟩, ⟨.str, "rb\x27a\x27"⟩, ⟨.comma, ","⟩, ⟨.nl, "\n"⟩,
      ⟨.whitespace, "      "⟩, ⟨.lBracket, "["⟩, ⟨.ident, "y"⟩, ⟨.rBracket, "]"⟩, ⟨.rParen, ")"⟩,
      ⟨.whitespace, "  "⟩, ⟨.comment, "# z"⟩, ⟨.newline, "\n"⟩, ⟨.dedent, ""⟩] := by cbv
  intro source ts
  have hclean : lexicalErrors (lex source) = [] := lexicalErrors_of_lex hlex
  have hlines : (Token.lines (tokensOf source)).map (List.filter fun t => t.kind.isContent) =
      [[⟨.ifKw, "if"⟩, ⟨.ident, "x"⟩, ⟨.colon, ":"⟩], ts, []] := by
    rw [tokensOf_of_lex hlex]
    rfl
  have htext : " ".intercalate (ts.map Token.text) = "f ( .5j , rb\x27a\x27 , [ y ] )" := by decide
  obtain ⟨line, hline, hts⟩ : ∃ line ∈ Token.lines (tokensOf source),
      (line.filter fun t => t.kind.isContent) = ts :=
    List.mem_map.1 (hlines ▸ List.mem_cons_of_mem _ List.mem_cons_self)
  obtain ⟨herrors, htokens⟩ := delimited_lines hclean hline (by rw [hts]; exact List.cons_ne_nil _ _)
  rw [hts, htext] at herrors htokens
  exact ⟨hclean, ⟨line, hline, hts⟩, htext, herrors, htokens⟩

end Renumber
