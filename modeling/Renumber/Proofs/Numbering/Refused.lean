import Renumber.Proofs.Margin
import Renumber.Proofs.Numbering.Exhaust
import Renumber.Proofs.Positions

/-!
# Where a refused source has its problem

Numbering refuses a source with the position of the first problem in the text that is numbered. That text
may have lost its margin, and each of its lines is then the end of the line of the source at the same place.
So the line that is named is the one of the source, and the column is as many characters too small as were
taken off the front of that line (`position_of_refused`): the margin, or what an empty line had on it.
-/

namespace Renumber

open Text (linesOf Lined Position upTo)

/-! ## Positions in lines -/

namespace Text

/-- Lines with others behind them end in line feeds. -/
theorem Lined.flatten_above {above lines : List (List Char)} (h : Lined (above ++ lines))
    (hlines : lines ≠ []) : above.flatten.count '\n' = above.length ∧
      (above = [] ∨ above.flatten.getLast? = some '\n') := by
  induction above with
  | nil => exact ⟨rfl, .inl rfl⟩
  | cons line above ih =>
    rw [List.cons_append] at h
    generalize hbelow : above ++ lines = below at h
    cases h with
    | last _ => exact absurd (List.append_eq_nil_iff.1 hbelow).2 hlines
    | @cons line _ hline hs =>
      rw [← hbelow] at hs
      obtain ⟨hcount, hlast⟩ := ih hs
      refine ⟨?_, .inr ?_⟩
      · rw [List.flatten_cons, List.count_append, List.count_append, List.count_eq_zero.2 hline, hcount,
          List.length_cons]
        simp [Nat.add_comm]
      · rw [List.flatten_cons, List.getLast?_append, List.getLast?_concat]
        rcases hlast with rfl | hlast
        · rfl
        · rw [hlast]
          rfl

/-- The position behind some lines and the beginning of another. -/
theorem Position.after_lines {above lines : List (List Char)} (h : Lined (above ++ lines))
    (hlines : lines ≠ []) {a : List Char} (ha : '\n' ∉ a) :
    Position.after (above.flatten ++ a) = ⟨above.length + 1, a.length + 1⟩ := by
  obtain ⟨hcount, hlast⟩ := h.flatten_above hlines
  have hfree : ∀ c ∈ a.reverse, (decide (c ≠ '\n')) = true := fun c hc => by
    rw [decide_eq_true_eq]
    rintro rfl
    exact ha (List.mem_reverse.1 hc)
  have hline : ((above.flatten ++ a).reverse.takeWhile (· ≠ '\n')).length = a.length := by
    rw [List.reverse_append, List.takeWhile_append_of_pos hfree, List.length_append,
      List.length_reverse]
    rcases hlast with rfl | hlast
    · rfl
    · obtain ⟨xs, hxs⟩ := List.getLast?_eq_some_iff.1 hlast
      rw [hxs, List.reverse_concat, List.takeWhile_cons_of_neg (by simp)]
      rfl
  rw [Position.after, hline, List.count_append, hcount, List.count_eq_zero.2 ha, Nat.add_zero]

/-- A place in a text is in one of its lines. It is at the end of a line only if that is the last one. -/
theorem Lined.exists_line {lines : List (List Char)} (h : Lined lines) {before rest : List Char}
    (htext : lines.flatten = before ++ rest) : ∃ above a b below,
      lines = above ++ (a ++ b) :: below ∧ before = above.flatten ++ a ∧ rest = b ++ below.flatten ∧
        '\n' ∉ a ∧ (b = [] → below = []) := by
  induction h generalizing before with
  | last h =>
    rw [List.flatten_singleton] at htext
    refine ⟨[], before, rest, [], by rw [htext]; rfl, rfl, by simp, ?_, fun _ => rfl⟩
    exact fun hmem => h (htext ▸ List.mem_append_left _ hmem)
  | @cons line lines h hs ih =>
    rw [List.flatten_cons, List.append_eq_append_iff] at htext
    rcases htext with ⟨before', rfl, hbehind⟩ | ⟨b, hline, rfl⟩
    · obtain ⟨above, a, b, below, rfl, rfl, rfl, ha, hb⟩ := ih hbehind
      exact ⟨(line ++ ['\n']) :: above, a, b, below, rfl, by simp, rfl, ha, hb⟩
    · rcases List.eq_nil_or_concat b with rfl | ⟨b, c, rfl⟩
      · rw [List.append_nil] at hline
        subst hline
        obtain ⟨above, a, b, below, rfl, habove, hrest, ha, hb⟩ := 
          ih (show lines.flatten = [] ++ lines.flatten from rfl)
        refine ⟨(line ++ ['\n']) :: above, a, b, below, rfl, ?_, hrest, ha, hb⟩
        rw [List.flatten_cons, List.append_assoc, ← habove, List.append_nil]
      · rw [List.concat_eq_append] at hline ⊢
        rw [← List.append_assoc] at hline
        obtain ⟨rfl, hc⟩ := List.append_inj' hline rfl
        exact ⟨[], before, b ++ [c], lines, by rw [hc, List.append_assoc]; rfl, rfl, rfl,
          fun hmem => h (List.mem_append_left _ hmem), by simp⟩

end Text

/-! ## What is taken off a line -/

namespace Margin

/-- How many characters taking off a margin takes off the front of a line. -/
def taken (m line : List Char) : Nat :=
  if isEmptyLine line then line.length - (lineEnd line).length else m.length

/-- A line is what is taken off it and what is left. -/
theorem Left.exists_front {m line line' : List Char} (h : Left m line line') :
    ∃ front, line = front ++ line' ∧ front.length = taken m line := by
  unfold Left at h
  split at h
  · rename_i hempty
    obtain ⟨front, hfront⟩ := lineEnd_suffix line
    refine ⟨front, by rw [h, hfront], ?_⟩
    have hlength := congrArg List.length hfront
    rw [List.length_append] at hlength
    rw [taken, if_pos hempty]
    omega
  · rename_i hfull
    exact ⟨m, h, by rw [taken, if_neg hfull]⟩

/-- How many characters of a line, the lines counted from one, are not in the text that is numbered. -/
def lost (dedent : Bool) (source : String) (n : Nat) : Nat :=
  if dedent = true ∧ ofText source ≠ [] then
    taken (ofText source) ((linesOf source.toList)[n - 1]?.getD [])
  else 0

/-- A place in the text without the margin, and the same place in the source. -/
theorem exists_place {source : String} (hmargin : ofText source ≠ []) {before' rest' : List Char}
    (htext : (strip source).toList = before' ++ rest') : ∃ before rest line column,
      source.toList = before ++ rest ∧ Position.after before' = ⟨line, column⟩ ∧
        Position.after before = ⟨line, column + lost true source line⟩ ∧ rest.head? = rest'.head? := by
  have hlined := Text.lined_linesOf source.toList
  have hlined' := Text.lined_linesOf (strip source).toList
  obtain ⟨above', a, b, below', hlines', rfl, rfl, ha, hb⟩ :=
    hlined'.exists_line ((Text.flatten_linesOf _).trans htext)
  have hafter' := Position.after_lines (hlines' ▸ hlined') (List.cons_ne_nil _ _) ha
  rw [linesOf_strip hmargin, List.map_eq_append_iff] at hlines'
  obtain ⟨above, lines, hlines, rfl, hbehind⟩ := hlines'
  obtain ⟨line, below, rfl, hline, rfl⟩ := List.map_eq_cons_iff.1 hbehind
  have hmem : line ∈ linesOf source.toList := by simp [hlines]
  obtain ⟨front, hfront, hlength⟩ := (left_of_mem hmem).exists_front
  have hcount := ((left_of_mem hmem).feedsAlike (not_mem_ofText source) (hlined.mem hmem)).1
  rw [hline] at hfront hcount
  have hfree : '\n' ∉ front := by
    simp only [hfront, List.count_append] at hcount
    exact List.count_eq_zero.1 (by omega)
  have hflat := Text.flatten_linesOf source.toList
  rw [hlines, hfront] at hflat
  rw [hlines] at hlined
  have hafter := Position.after_lines hlined (List.cons_ne_nil _ _) (a := front ++ a) (by simp [hfree, ha])
  refine ⟨above.flatten ++ (front ++ a), b ++ below.flatten, above.length + 1, a.length + 1, ?_, ?_, ?_, ?_⟩
  · rw [← hflat]
    simp
  · rw [hafter', List.length_map]
  · rw [hafter, lost, if_pos ⟨rfl, hmargin⟩, Nat.add_sub_cancel, hlines]
    simp [hlength]
    omega
  · cases b with
    | nil =>
      have hbelow := List.map_eq_nil_iff.1 (hb rfl)
      rw [hbelow]
      rfl
    | cons c b => rfl

end Margin

/-! ## Refused sources -/

/-- A source that is refused for a problem. The failure is the first error of the text that is numbered,
and names the position of it in that text. The character at which the error starts is at the same place of
the source, on the line that is named, but its column there is greater by as many characters as were taken
off the front of the line. So the position is that of the source exactly if nothing was. -/
theorem position_of_refused {dedent : Bool} {source : String} {s s' : Series}
    {origin message : String} {line column : Nat}
    (h : fixText dedent source s = (.error (.parse origin message line column), s')) :
    ∃ e es before rest before' rest',
      (parse (numberedText dedent source)).errors = e :: es ∧ message = e.problem.message ∧
      (numberedText dedent source).toList = before' ++ rest' ∧
      String.utf8Len before' = e.span.start ∧ Position.after before' = ⟨line, column⟩ ∧
      source.toList = before ++ rest ∧ rest.head? = rest'.head? ∧
      Position.after before = ⟨line, column + Margin.lost dedent source line⟩ := by
  cases herrors : (parse (numberedText dedent source)).errors with
  | nil => cases (exhausted_of_fixText herrors h).1
  | cons e es =>
    obtain ⟨before', rest', htext, hstart, hposition⟩ :=
      exists_text_of_mem_errors (herrors ▸ List.mem_cons_self)
    rw [fixText_of_cons_errors herrors, ParseError.failure, hposition] at h
    obtain ⟨rfl, rfl, rfl, rfl⟩ : origin = Failure.inMemory ∧ message = e.problem.message ∧
      line = (Position.after before').line ∧ column = (Position.after before').column := by
      cases h
      exact ⟨rfl, rfl, rfl, rfl⟩
    by_cases hlost : dedent = true ∧ Margin.ofText source ≠ []
    · obtain ⟨rfl, hmargin⟩ := hlost
      obtain ⟨before, rest, line, column, hsource, hafter', hafter, hhead⟩ :=
        Margin.exists_place hmargin htext
      rw [hafter']
      exact ⟨e, es, before, rest, before', rest', rfl, rfl, htext, hstart, hafter', hsource, hhead, hafter⟩
    · have hself : numberedText dedent source = source := by
        cases dedent with
        | false => rfl
        | true =>
          refine (Margin.strip_eq_self_iff source).2 ?_
          by_contra hmargin
          exact hlost ⟨rfl, hmargin⟩
      rw [hself] at htext
      refine ⟨e, es, before', rest', before', rest', rfl, rfl, ?_, hstart, rfl, htext, rfl, ?_⟩
      · rw [hself, htext]
      · rw [Margin.lost, if_neg hlost, Nat.add_zero]

/-- The error is in the third column without the tab, and in the fourth with it. -/
theorem position_of_refused_tab :
    fixText true "\n\tx )\n" ⟨0⟩ =
      (.error (.parse Failure.inMemory "invalid syntax" 2 3), ⟨0⟩) ∧
    ∃ before rest, "\n\tx )\n".toList = before ++ rest ∧ Position.after before = ⟨2, 4⟩ := by
  have htext : numberedText true "\n\tx )\n" = "\nx )\n" := by decide
  have hlex : lex "\nx )\n" = Lexeme.sound [⟨.nl, "\n"⟩, ⟨.ident, "x"⟩, ⟨.whitespace, " "⟩, ⟨.rParen, ")"⟩,
      ⟨.newline, "\n"⟩] := by cbv
  have herrors : (parse (numberedText true "\n\tx )\n")).errors =
      [⟨.syntactic .invalidSyntax, ⟨3, 4⟩⟩] := by
    rw [htext, errors_parse (lexicalErrors_of_lex hlex), tokensOf_of_lex hlex]
    decide +kernel
  have hfix : fixText true "\n\tx )\n" ⟨0⟩ =
      (.error (.parse Failure.inMemory "invalid syntax" 2 3), ⟨0⟩) := by
    rw [fixText_of_cons_errors herrors, htext]
    rfl
  obtain ⟨-, -, before, rest, -, -, -, -, -, -, -, hsource, -, hafter⟩ := position_of_refused hfix
  exact ⟨hfix, before, rest, hsource, hafter.trans (by decide)⟩

/-- The third column of the source has the first name on it. The error is at the second one, in the fifth
column of the source and in the third one of the text without the margin. -/
theorem column_of_refused :
    (∀ s, fixText true "  a b\n" s =
      (.error (.parse Failure.inMemory "invalid syntax" 1 3), s)) ∧
    (numberedText true "  a b\n").toList = "a ".toList ++ "b\n".toList ∧
    (parse (numberedText true "  a b\n")).errors.map (fun e => e.span.start) =
      [String.utf8Len "a ".toList] ∧
    "  a b\n".toList = "  ".toList ++ "a b\n".toList ∧ Position.after "  ".toList = ⟨1, 3⟩ ∧
    "  a b\n".toList = "  a ".toList ++ "b\n".toList ∧ Position.after "  a ".toList = ⟨1, 5⟩ := by
  have htext : numberedText true "  a b\n" = "a b\n" := by decide
  have hlex : lex "a b\n" = Lexeme.sound [⟨.ident, "a"⟩, ⟨.whitespace, " "⟩, ⟨.ident, "b"⟩,
      ⟨.newline, "\n"⟩] := by cbv
  have herrors : (parse (numberedText true "  a b\n")).errors =
      [⟨.syntactic .invalidSyntax, ⟨2, 3⟩⟩] := by
    rw [htext, errors_parse (lexicalErrors_of_lex hlex), tokensOf_of_lex hlex]
    decide +kernel
  refine ⟨fun s => ?_, by rw [htext]; rfl, by rw [herrors]; rfl, rfl, by decide, rfl, by decide⟩
  rw [fixText_of_cons_errors herrors, htext]
  rfl

end Renumber
