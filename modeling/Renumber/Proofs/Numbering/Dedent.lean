import Renumber.Proofs.Grammar.Seam
import Renumber.Proofs.Margin
import Renumber.Proofs.Numbering.Exhaust
import Renumber.Proofs.Numbering.Reparse

/-!
# Taking off a margin

A margin is a matter of lines that end in line feeds, whatever stands on them; the scan measures
columns, and only those of lines with code. The two agree on the first code of a source without
problems: it starts a physical line (`Layout.first_code`), so there is no margin, unless a form feed or
a carriage return hides that (`Margin.ofText_eq_nil`). Without a margin numbering does not depend on
whether one is to be taken off (`fixText_dedent`); a source of comments may have one and lose it
(`margin_taken_off`).
-/

namespace Renumber

open Text (isBlank isBreak feedLines)

/-! ## Margins and lines -/

namespace Text

theorem feedLines_cons {c : Char} (hc : c ≠ '\n') (cs : List Char) :
    ∃ line lines, feedLines (c :: cs) = (c :: line) :: lines := by
  rw [feedLines, if_neg hc]
  cases feedLines cs with
  | nil => exact ⟨[], [], rfl⟩
  | cons line lines => exact ⟨line, lines, rfl⟩

theorem feedLines_append_feed (xs ys : List Char) :
    feedLines (xs ++ '\n' :: ys) = feedLines (xs ++ ['\n']) ++ feedLines ys := by
  induction xs with
  | nil => rfl
  | cons x xs ih =>
    rw [List.cons_append, List.cons_append, feedLines, feedLines, ih]
    split
    · rfl
    · cases hlines : feedLines (xs ++ ['\n']) with
      | nil =>
        have hflat := flatten_feedLines (xs ++ ['\n'])
        rw [hlines] at hflat
        cases xs <;> cases hflat
      | cons line lines => rfl

end Text

namespace Margin

/-- There is no margin if a line starts with anything but a blank. -/
theorem ofText_eq_nil_of_append {text : String} {pre : List Char} {c : Char} {cs : List Char}
    (htext : text.toList = pre ++ c :: cs) (hpre : pre = [] ∨ pre.getLast? = some '\n')
    (hc : isBlank c = false) : ofText text = [] := by
  have hbreak : c ≠ '\n' := by
    rintro rfl
    cases hc
  obtain ⟨line, lines, hlines⟩ := Text.feedLines_cons hbreak cs
  have hmem : c :: line ∈ feedLines text.toList := by
    rw [htext]
    rcases hpre with rfl | hpre
    · rw [List.nil_append, hlines]
      exact List.mem_cons_self
    · obtain ⟨xs, rfl⟩ := List.getLast?_eq_some_iff.1 hpre
      rw [List.append_assoc, List.singleton_append, Text.feedLines_append_feed, hlines]
      exact List.mem_append_right _ List.mem_cons_self
  have hindent : indentOf (c :: line) = [] := by
    refine List.takeWhile_cons_of_neg ?_
    rw [Bool.or_eq_true, beq_iff_eq, beq_iff_eq]
    rintro (rfl | rfl) <;> cases hc
  have hstart := (isMargin_ofLines _).starts hmem (by rw [isEmptyLine, List.all_cons, hc]; rfl)
  rw [hindent] at hstart
  exact List.prefix_nil.1 hstart

end Margin

/-! ## The first code -/

namespace Lexeme

/-- The code points of blanks. -/
def blankCodes : List Nat :=
  [0x09, 0x0a, 0x0b, 0x0c, 0x0d, 0x20, 0x85, 0xa0, 0x1680, 0x2000, 0x2001, 0x2002, 0x2003, 0x2004,
   0x2005, 0x2006, 0x2007, 0x2008, 0x2009, 0x200a, 0x2028, 0x2029, 0x202f, 0x205f, 0x3000]

theorem mem_blankCodes {c : Char} (h : isBlank c = true) : c.toNat ∈ blankCodes := by
  unfold isBlank at h
  simp only [blankCodes, List.mem_cons, List.not_mem_nil, or_false]
  split at h
  · rw [Bool.or_eq_true, beq_iff_eq, Bool.and_eq_true, decide_eq_true_iff, decide_eq_true_iff] at h
    rcases h with rfl | ⟨hlow, hhigh⟩
    · decide
    · have hlow' : 9 ≤ c.toNat := hlow
      have hhigh' : c.toNat ≤ 13 := hhigh
      omega
  · simp only [Text.Ranges.holds, Text.blankRanges, List.any_cons, List.any_nil, Bool.or_false,
      Bool.or_eq_true, Bool.and_eq_true, decide_eq_true_iff] at h
    omega

/-- No token starts with a character, unless it is of trivia. -/
def startsNone (c : Char) : Bool :=
  !c.isDigit && c != '.' && !isQuote c && !startsName c &&
    operators.all fun o => o.1.head?.any (· != c)

theorem startsNone_of_blank : blankCodes.all (fun n => startsNone (Char.ofNat n)) = true := by
  decide +kernel

theorem operator_of_startsNone {c : Char} (h : operators.all (fun o => o.1.head?.any (· != c)) = true)
    (cs : List Char) : operator c cs = ⟨.errorToken, 0, some (.unexpectedCharacter c)⟩ := by
  unfold operator
  split
  · rename_i text kind hfind
    have hhead := List.all_eq_true.1 h _ (List.mem_of_find?_eq_some hfind)
    have hstart := List.find?_some hfind
    dsimp only at hhead hstart
    cases text with
    | nil => cases hhead
    | cons a as =>
      rw [List.isPrefixOf_iff_prefix, List.cons_prefix_cons] at hstart
      simp [hstart.1] at hhead
  · rfl

/-- A token without a problem that starts with a blank is one of trivia. -/
theorem not_isBlank_of_scan {c : Char} {cs : List Char} (hspace : isSpace c = false)
    (h : (Reach.scan c cs).problem? = none) : isBlank c = false := by
  by_contra hblank
  rw [Bool.not_eq_false] at hblank
  have hstarts := List.all_eq_true.1 startsNone_of_blank _ (mem_blankCodes hblank)
  rw [Char.ofNat_toNat] at hstarts
  have hcomment : (c == '#') = false := by
    rw [beq_eq_false_iff_ne]
    rintro rfl
    cases hblank
  have hslash : (c == '\\') = false := by
    rw [beq_eq_false_iff_ne]
    rintro rfl
    cases hblank
  simp only [startsNone, Bool.and_eq_true, Bool.not_eq_true', bne_iff_ne, ne_eq] at hstarts
  obtain ⟨⟨⟨⟨hdigit, hdot⟩, hquote⟩, hname⟩, hoperators⟩ := hstarts
  replace hdot := beq_eq_false_iff_ne.2 hdot
  simp only [Reach.scan, hspace, hcomment, hslash, hdigit, hdot, hquote, hname, Bool.false_and,
    Bool.or_false, Bool.false_eq_true, if_false, operator_of_startsNone hoperators] at h
  cases h

end Lexeme

namespace Layout

theorem columnOf_eq_zero {cs : List Char} (hcs : ∀ c ∈ cs, Lexeme.isSpace c = true)
    (h : columnOf cs = 0) : cs = [] ∨ '\x0c' ∈ cs := by
  rcases List.eq_nil_or_concat cs with rfl | ⟨init, c, rfl⟩
  · exact .inl rfl
  · have hc := hcs c (by simp)
    rw [columnOf, List.concat_eq_append, List.foldl_append, List.foldl_cons, List.foldl_nil] at h
    simp only [Lexeme.isSpace, Bool.or_eq_true, beq_iff_eq] at hc
    rcases hc with (rfl | rfl) | rfl
    · exact absurd h (Nat.succ_ne_zero _)
    · simp [advance] at h
    · exact .inr (by simp)

/-- The kinds of what may stand in front of the first code. -/
def isSpacing (k : Kind) : Bool := k == .whitespace || k == .comment || k == .nl

/-- What code that is not indented may come after: blanks with a form feed, or a line break. -/
def StartsLine (t : Token) : Prop :=
  t.kind = .whitespace ∧ '\x0c' ∈ t.text.toList ∨
    t.kind = .nl ∧ (t.text = "\r" ∨ t.text.toList.getLast? = some '\n')

theorem startsLine_break {c : Char} (hc : isBreak c = true) (cs : List Char) :
    StartsLine (Reach.taken ⟨.nl, Lexeme.breakMore c cs, none⟩ c cs).token := by
  refine .inr ⟨rfl, ?_⟩
  simp only [Reach.taken, String.toList_ofList]
  rw [isBreak, Bool.or_eq_true, beq_iff_eq, beq_iff_eq] at hc
  rcases hc with rfl | rfl
  · exact .inr rfl
  · unfold Lexeme.breakMore
    split
    · rename_i hfeed
      rw [Bool.and_eq_true, beq_iff_eq, beq_iff_eq] at hfeed
      obtain ⟨ds, rfl⟩ := List.head?_eq_some_iff.1 hfeed.2
      exact .inr rfl
    · exact .inl rfl

theorem isSpacing_scan {c : Char} {cs : List Char} (hspace : Lexeme.isSpace c = false)
    (hbreak : isBreak c = false) (hcomment : (c == '#') = false) :
    isSpacing (Reach.scan c cs).kind = false := by
  have hinside : Reach.inside c cs = Reach.scan c cs := by
    rw [Reach.inside, if_neg (by rw [hbreak]; exact Bool.false_ne_true)]
  by_contra hspacing
  rw [Bool.not_eq_false] at hspacing
  have htrivia : (Reach.inside c cs).kind.isTrivia = true := by
    rw [hinside]
    rw [isSpacing, Bool.or_eq_true, Bool.or_eq_true, beq_iff_eq, beq_iff_eq, beq_iff_eq] at hspacing
    rcases hspacing with (hk | hk) | hk <;> rw [hk] <;> rfl
  rcases Reach.inside_of_trivia htrivia with ⟨hb, -⟩ | ⟨hs, -⟩ | ⟨rfl, -⟩ | ⟨-, b, bs, -, -, heq⟩
  · rw [hb] at hbreak
    cases hbreak
  · rw [hs] at hspace
    cases hspace
  · cases hcomment
  · rw [← hinside, heq] at hspacing
    cases hspacing

/-- The first code behind a line without code is that of the lines after it. -/
theorem exists_behind {indentation : List Char} {as bs ls : List Lexeme} {u l : Lexeme}
    (h : blanks indentation ++ u :: ls = as ++ l :: bs) (hu : isSpacing u.token.kind = true)
    (hl : isSpacing l.token.kind = false) : ∃ as', as = blanks indentation ++ u :: as' ∧
      ls = as' ++ l :: bs ∧ ∀ v, as.getLast? = some v → as'.getLast? = some v ∨ as' = [] ∧ v = u := by
  obtain ⟨as', rfl, hcut⟩ := append_eq_append_cons h fun hmem => by
    rw [(mem_blanks hmem).2] at hl
    cases hl
  cases as' with
  | nil =>
    obtain ⟨rfl, -⟩ := List.cons.inj hcut
    rw [hu] at hl
    cases hl
  | cons w as' =>
    obtain ⟨rfl, hls⟩ := List.cons.inj hcut
    refine ⟨as', rfl, hls, fun v hv => ?_⟩
    rw [List.getLast?_append_cons, List.getLast?_cons] at hv
    cases hlast : as'.getLast? with
    | none =>
      rw [hlast] at hv
      exact .inr ⟨List.getLast?_eq_none_iff.1 hlast, (Option.some.inj hv).symm⟩
    | some w =>
      rw [hlast] at hv
      exact .inl hv

/-- A comment is followed by a line break, if by anything. -/
theorem isSpacing_behind_comment {blocks : List Nat} {cs : List Char} {l : Lexeme} {bs : List Lexeme}
    (hblocks : blocks = []) (h : lexFrom blocks .fresh (cs.drop (Lexeme.commentMore cs)) = l :: bs) :
    isSpacing l.token.kind = true := by
  have hdrop : cs.drop (Lexeme.commentMore cs) = cs.dropWhile fun c => !isBreak c :=
    (congrArg (List.drop _) List.takeWhile_append_dropWhile.symm).trans (List.drop_left' rfl)
  subst hblocks
  rw [hdrop] at h
  have hhead := List.head?_dropWhile_not (fun c => !isBreak c) cs
  cases hrest : cs.dropWhile fun c => !isBreak c with
  | nil =>
    rw [hrest, lexFrom] at h
    cases h
  | cons c rest =>
    rw [hrest] at h hhead
    have hbreak : isBreak c = true := by simpa using hhead
    have hspace : Lexeme.isSpace c = false := by
      by_contra hspace
      rw [Bool.not_eq_false] at hspace
      rw [Lexeme.not_isBreak_of_isSpace hspace] at hbreak
      cases hbreak
    rw [← List.nil_append (c :: rest), lexFrom_fresh_cons (List.forall_mem_nil _) hspace rest,
      if_pos hbreak] at h
    obtain ⟨rfl, -⟩ := List.cons.inj h
    rfl

section
variable {as bs : List Lexeme} {l : Lexeme} (has : ∀ u ∈ as, isSpacing u.token.kind = true)
  (hl : isSpacing l.token.kind = false) (hsound : l.problem? = none)
include has hl hsound

/-- The first code of a line is indented, or it starts with a character that is no blank, and nothing is
in front of it in the line but perhaps blanks with a form feed. -/
theorem first_code_of_line {indentation : List Char}
    (hspaces : ∀ a ∈ indentation, Lexeme.isSpace a = true) {c : Char} {cs : List Char}
    (hspace : Lexeme.isSpace c = false) (hbreak : isBreak c = false) (hcomment : (c == '#') = false)
    (h : blanks indentation ++ ((marks [] (columnOf indentation)).1 ++
      lexFrom (marks [] (columnOf indentation)).2 (.inLine 0 false) (c :: cs)) = as ++ l :: bs) :
    l.token.kind = .indent ∨ (∃ c cs, l.token.text.toList = c :: cs ∧ isBlank c = false) ∧
      ∀ u, as.getLast? = some u → StartsLine u.token := by
  obtain ⟨as', rfl, hcut⟩ := append_eq_append_cons h fun hmem => by
    rw [(mem_blanks hmem).2] at hl
    cases hl
  by_cases hcolumn : innermost [] < columnOf indentation
  · rw [marks, if_pos hcolumn] at hcut
    cases as' with
    | nil =>
      obtain ⟨rfl, -⟩ := List.cons.inj hcut
      exact .inl rfl
    | cons u as' =>
      obtain ⟨rfl, -⟩ := List.cons.inj hcut
      cases has (.mark .indent none) (by simp)
  · have hzero : columnOf indentation = 0 := Nat.eq_zero_of_not_pos hcolumn
    rw [hzero, show marks [] 0 = ([], []) from rfl, List.nil_append, lexFrom_inLine_cons,
      if_neg (by rw [hbreak]; exact Bool.false_ne_true)] at hcut
    cases as' with
    | nil =>
      obtain ⟨rfl, -⟩ := List.cons.inj hcut
      refine .inr ⟨⟨c, _, String.toList_ofList, Lexeme.not_isBlank_of_scan hspace hsound⟩, ?_⟩
      intro u hu
      rw [List.append_nil] at hu
      obtain ⟨hne, rfl⟩ := mem_blanks (List.mem_of_getLast? hu)
      refine .inl ⟨rfl, ?_⟩
      rw [String.toList_ofList]
      exact (columnOf_eq_zero hspaces hzero).resolve_left hne
    | cons u as' =>
      obtain ⟨rfl, -⟩ := List.cons.inj hcut
      have hspacing := has ((Reach.scan c cs).taken c cs) (by simp)
      rw [Reach.taken, isSpacing_scan hspace hbreak hcomment] at hspacing
      cases hspacing

/-- The first code is indented, or it starts with a character that is no blank, and the text or a line
starts in front of it. -/
theorem first_code {text : List Char} (h : lexFrom [] .fresh text = as ++ l :: bs) :
    l.token.kind = .indent ∨ (∃ c cs, l.token.text.toList = c :: cs ∧ isBlank c = false) ∧
      ∀ u, as.getLast? = some u → StartsLine u.token := by
  generalize hblocks : ([] : List Nat) = blocks at h
  generalize hmode : Mode.fresh = mode at h
  revert as
  fun_induction lexFrom blocks mode text with
  | case1 blocks text indentation hrest =>
    intro as has h
    subst hblocks
    have hmem : l ∈ as ++ l :: bs := by simp
    rw [← h, show finish [] false = [] from rfl, List.append_nil] at hmem
    rw [(mem_blanks hmem).2] at hl
    cases hl
  | case2 blocks text indentation c cs hrest hbreak r ih =>
    intro as has h
    obtain ⟨as', rfl, hbehind, hlast⟩ := exists_behind h rfl hl
    refine (ih hblocks hmode (fun u hu => has u (by simp [hu])) hbehind).imp_right
      (And.imp_right fun hstarts u hu => ?_)
    rcases hlast u hu with hu | ⟨-, rfl⟩
    · exact hstarts u hu
    · exact startsLine_break hbreak cs
  | case3 blocks text indentation c cs hrest hbreak hcomment r ih =>
    intro as has h
    obtain ⟨as', rfl, hbehind, hlast⟩ := exists_behind h rfl hl
    refine (ih hblocks hmode (fun u hu => has u (by simp [hu])) hbehind).imp_right
      (And.imp_right fun hstarts u hu => ?_)
    rcases hlast u hu with hu | ⟨rfl, -⟩
    · exact hstarts u hu
    · rw [isSpacing_behind_comment hblocks.symm hbehind] at hl
      cases hl
  | case4 blocks text indentation c cs hrest hbreak hcomment before blocks' hmarks ih =>
    intro as has h
    subst hblocks
    rw [Bool.not_eq_true] at hbreak hcomment
    have hline : blanks indentation ++ ((marks [] (columnOf indentation)).1 ++
        lexFrom (marks [] (columnOf indentation)).2 (.inLine 0 false) (c :: cs)) = as ++ l :: bs := by
      rw [hmarks, ← List.append_assoc]
      exact h
    exact first_code_of_line has hl hsound isSpace_of_mem_takeWhile (not_isSpace_of_dropWhile hrest)
      hbreak hcomment hline
  | case5 | case6 | case7 | case8 => cases hmode

end

end Layout

/-- A source without problems has no margin, unless there is no code, or the first code comes right
after a form feed or a lone carriage return. -/
theorem Margin.ofText_eq_nil {source : String} (h : (parse source).errors = [])
    {front rest : List Token} {t : Token} (hcut : tokensOf source = front ++ t :: rest)
    (hfront : ∀ u ∈ front, Layout.isSpacing u.kind = true) (ht : Layout.isSpacing t.kind = false)
    (hlast : ∀ u, front.getLast? = some u → '\x0c' ∉ u.text.toList ∧ u.text ≠ "\r") :
    Margin.ofText source = [] := by
  obtain ⟨hlex, hfaults⟩ := errors_parse_eq_nil_iff.1 h
  have hspelled := Layout.spelled_of_lexFrom hlex
  rw [hcut, Lexeme.sound_append, Lexeme.sound_cons] at hlex
  have htrivia (u : Token) (hu : u ∈ front) : u.kind.isTrivia = true := by
    have hspacing := hfront u hu
    rw [Layout.isSpacing, Bool.or_eq_true, Bool.or_eq_true, beq_iff_eq, beq_iff_eq, beq_iff_eq]
      at hspacing
    rcases hspacing with (hk | hk) | hk <;> rw [hk] <;> rfl
  have hindent : t.kind ≠ .indent := by
    intro hindent
    refine Grammar.nextKind_ne_indent (Grammar.reads_readFile hfaults) ?_
    rw [hcut, Grammar.nextKind, Grammar.upcoming_append_of_trivia htrivia,
      Grammar.upcoming_cons_of_not_trivia (by rw [hindent]; rfl)]
    exact hindent
  have hspacing (u : Lexeme) (hu : u ∈ Lexeme.sound front) :
      Layout.isSpacing u.token.kind = true := by
    obtain ⟨v, hv, rfl⟩ := List.mem_map.1 hu
    exact hfront v hv
  obtain ⟨⟨c, cs, htext, hc⟩, hstarts⟩ :=
    (Layout.first_code hspacing ht rfl hlex).resolve_left hindent
  have htext' : source.toList = Token.spelled front ++ c :: (cs ++ Token.spelled rest) := by
    rw [hspelled, hcut, Token.spelled_append, Token.spelled_cons, htext, List.cons_append]
  refine Margin.ofText_eq_nil_of_append htext' ?_ hc
  rcases List.eq_nil_or_concat front with rfl | ⟨init, u, rfl⟩
  · exact .inl rfl
  · rw [List.concat_eq_append] at hlast hstarts ⊢
    obtain ⟨hfeed, hreturn⟩ := hlast u List.getLast?_concat
    have hu : (Lexeme.sound (init ++ [u])).getLast? = some ⟨u, none⟩ := by
      rw [Lexeme.sound_append]
      exact List.getLast?_concat
    rw [Token.spelled_append, Token.spelled_cons, Token.spelled_nil, List.append_nil]
    rcases hstarts _ hu with ⟨-, hblank⟩ | ⟨-, hbreak | hbreak⟩
    · exact absurd hblank hfeed
    · exact absurd hbreak hreturn
    · rw [List.getLast?_append, hbreak]
      exact .inr rfl

/-! ## Numbering -/

/-- A walk over trees with no call among them changes nothing and draws no code. -/
theorem Tree.coded_of_callsFrom {ts : List Tree} {p : List Nat} {i : Nat} (h : callsFrom p i ts = [])
    (s : UInt64) : Coded s ts ts [] s := by
  induction ts using forest_induction generalizing p i with
  | nil => exact .nil
  | token t => exact .token .nil
  | append ts us hts hus =>
    rw [callsFrom_append, List.append_eq_nil_iff] at h
    exact (hts h.1).append (hus h.2)
  | plain k cs hcall ih =>
    rw [callsFrom_cons, callsAt_plain _ hcall, callsFrom_nil, List.append_nil] at h
    exact .plain hcall (ih h) .nil
  | call shape callee us trailing a f hcallee htrailing hargs =>
    have hcall := call?_eq_some_iff.2 ⟨callee, us, trailing, a, f, rfl, hcallee, htrailing, hargs,
      (rfl : (⟨shape, callee.length, a.below callee.length⟩ : Call) = _)⟩
    rw [callsFrom_cons, callsAt_call _ hcall] at h
    cases h

/-- A text without problems and without calls is left as it is. -/
theorem fixText_of_calls {dedent : Bool} {source : String}
    (herrors : (parse (numberedText dedent source)).errors = [])
    (hcalls : (parse (numberedText dedent source)).tree.calls = []) (s : Series) :
    ∃ o, fixText dedent source s = (.ok o, s) ∧ o.output = numberedText dedent source ∧
      o.fixes = [] := by
  generalize htext : numberedText dedent source = text at hcalls
  obtain ⟨cs, hroot⟩ : ∃ cs, (parse text).tree = .node .module cs := ⟨_, rfl⟩
  rw [hroot, Tree.calls_module] at hcalls
  have hcoded : Tree.Coded s.current [(parse (numberedText dedent source)).tree]
      [(parse (numberedText dedent source)).tree] [] s.current := by
    rw [htext, hroot]
    exact .plain (Tree.call?_eq_none (by decide) cs) (Tree.coded_of_callsFrom hcalls _) .nil
  obtain ⟨o, hfix, htree, hfixes⟩ := Tree.fixText_of_coded herrors hcoded
  refine ⟨o, hfix, ?_, List.map_eq_nil_iff.1 hfixes⟩
  rw [Outcome.output, ← (List.cons.inj htree).1, text_parse, htext]

/-- Numbering a source without problems. Where there is no margin, it is the same whether one is to be
taken off or not, and a source without calls is left as it is. Only then does the text that is numbered
not change. There is no margin if the first code, which is the first token that is not a blank, a comment
or a line break, comes neither after a form feed nor after a lone carriage return. -/
theorem fixText_dedent {source : String} (h : (parse source).errors = []) :
    (Margin.ofText source = [] → ∀ s, fixText true source s = fixText false source s ∧
      ((parse source).tree.calls = [] →
        ∃ o, fixText true source s = (.ok o, s) ∧ o.output = source ∧ o.fixes = [])) ∧
    (numberedText true source = source ↔ Margin.ofText source = []) ∧
    ∀ front t rest, tokensOf source = front ++ t :: rest →
      (∀ u ∈ front, Layout.isSpacing u.kind = true) → Layout.isSpacing t.kind = false →
      (∀ u, front.getLast? = some u → '\x0c' ∉ u.text.toList ∧ u.text ≠ "\r") →
        Margin.ofText source = [] := by
  refine ⟨fun hmargin s => ?_, Margin.strip_eq_self_iff source,
    fun front t rest => Margin.ofText_eq_nil h⟩
  have htext : numberedText true source = source := (Margin.strip_eq_self_iff source).2 hmargin
  refine ⟨?_, fun hcalls => ?_⟩
  · rw [fixText, fixText, htext]
    rfl
  · rw [← htext] at h hcalls
    obtain ⟨o, hfix, houtput, hfixes⟩ := fixText_of_calls h hcalls s
    exact ⟨o, hfix, houtput.trans htext, hfixes⟩

/-- A call behind a comment is numbered alike. -/
theorem fixText_dedent_behind_comment :
    (parse "  # c\nresult.error()\n").errors = [] ∧ Margin.ofText "  # c\nresult.error()\n" = [] ∧
      ∀ s, fixText true "  # c\nresult.error()\n" s = fixText false "  # c\nresult.error()\n" s := by
  have hlex : lex "  # c\nresult.error()\n" = Lexeme.sound ([⟨.whitespace, "  "⟩, ⟨.comment, "# c"⟩,
      ⟨.nl, "\n"⟩] ++ ⟨.ident, "result"⟩ :: [⟨.dot, "."⟩, ⟨.ident, "error"⟩, ⟨.lParen, "("⟩,
      ⟨.rParen, ")"⟩, ⟨.newline, "\n"⟩]) := by cbv
  have herrors := errors_parse_of_lex hlex (by decide +kernel)
  have htokens := tokensOf_of_lex hlex
  obtain ⟨halike, -, hmargin⟩ := fixText_dedent herrors
  have hnone := hmargin _ _ _ htokens (by decide) rfl fun u hu => by
    obtain rfl := Option.some.inj hu
    decide
  exact ⟨herrors, hnone, fun s => (halike hnone s).1⟩

/-! ## Margins that are taken off -/

theorem output_of_calls {dedent : Bool} {source text : String}
    (htext : numberedText dedent source = text) (herrors : (parse text).errors = [])
    (hcalls : (parse text).tree.calls = []) (s : Series) :
    (fixText dedent source s).1.map Outcome.output = .ok text := by
  subst htext
  obtain ⟨o, hfix, houtput, -⟩ := fixText_of_calls herrors hcalls s
  rw [hfix, ← houtput]
  rfl

theorem quiet_of_lex {source : String} {ts : List Token} (h : lex source = Lexeme.sound ts)
    (hfaults : (Grammar.readFile ts).faults = []) (hcalls : (treeOf ts).calls = []) :
    (parse source).errors = [] ∧ (parse source).tree.calls = [] :=
  ⟨errors_parse_of_lex h hfaults, by rw [tree_parse_of_lex h, hcalls]⟩

theorem parse_margin_comment :
    ((parse "  # c\n").errors = [] ∧ (parse "  # c\n").tree.calls = []) ∧
      (parse "# c\n").errors = [] ∧ (parse "# c\n").tree.calls = [] := by
  have hgiven : lex "  # c\n" =
      Lexeme.sound [⟨.whitespace, "  "⟩, ⟨.comment, "# c"⟩, ⟨.nl, "\n"⟩] := by cbv
  have hstripped : lex "# c\n" = Lexeme.sound [⟨.comment, "# c"⟩, ⟨.nl, "\n"⟩] := by cbv
  exact ⟨quiet_of_lex hgiven (by decide +kernel) (by decide +kernel),
    quiet_of_lex hstripped (by decide +kernel) (by decide +kernel)⟩

theorem parse_margin_return :
    ((parse "  #\rx\n").errors = [] ∧ (parse "  #\rx\n").tree.calls = []) ∧
      (parse "#\rx\n").errors = [] ∧ (parse "#\rx\n").tree.calls = [] := by
  have hgiven : lex "  #\rx\n" = Lexeme.sound [⟨.whitespace, "  "⟩, ⟨.comment, "#"⟩, ⟨.nl, "\r"⟩,
      ⟨.ident, "x"⟩, ⟨.newline, "\n"⟩] := by cbv
  have hstripped : lex "#\rx\n" =
      Lexeme.sound [⟨.comment, "#"⟩, ⟨.nl, "\r"⟩, ⟨.ident, "x"⟩, ⟨.newline, "\n"⟩] := by cbv
  exact ⟨quiet_of_lex hgiven (by decide +kernel) (by decide +kernel),
    quiet_of_lex hstripped (by decide +kernel) (by decide +kernel)⟩

set_option maxRecDepth 4000 in
theorem parse_margin_feed :
    ((parse "  \x0cif x:\n  y\n").errors = [] ∧ (parse "  \x0cif x:\n  y\n").tree.calls = []) ∧
      (parse "\x0cif x:\ny\n").errors ≠ [] := by
  have hgiven : lex "  \x0cif x:\n  y\n" = Lexeme.sound [⟨.whitespace, "  \x0c"⟩, ⟨.ifKw, "if"⟩,
      ⟨.whitespace, " "⟩, ⟨.ident, "x"⟩, ⟨.colon, ":"⟩, ⟨.newline, "\n"⟩, ⟨.whitespace, "  "⟩, ⟨.indent, ""⟩,
      ⟨.ident, "y"⟩, ⟨.newline, "\n"⟩, ⟨.dedent, ""⟩] := by cbv
  have hstripped : lex "\x0cif x:\ny\n" = Lexeme.sound [⟨.whitespace, "\x0c"⟩, ⟨.ifKw, "if"⟩,
      ⟨.whitespace, " "⟩, ⟨.ident, "x"⟩, ⟨.colon, ":"⟩, ⟨.newline, "\n"⟩, ⟨.ident, "y"⟩,
      ⟨.newline, "\n"⟩] := by cbv
  exact ⟨quiet_of_lex hgiven (by decide +kernel) (by decide +kernel),
    errors_parse_ne_nil_of_lex hstripped (by decide +kernel)⟩

/-- Comments lose their margin, and so does code behind a lone carriage return. Behind a form feed code
is not indented, but its block is, and loses that. -/
theorem margin_taken_off :
    ((parse "  # c\n").errors = [] ∧ (parse "  # c\n").tree.calls = [] ∧ ∀ s,
      (fixText false "  # c\n" s).1.map Outcome.output = .ok "  # c\n" ∧
        (fixText true "  # c\n" s).1.map Outcome.output = .ok "# c\n") ∧
    ((parse "  #\rx\n").errors = [] ∧ (parse "  #\rx\n").tree.calls = [] ∧ ∀ s,
      (fixText false "  #\rx\n" s).1.map Outcome.output = .ok "  #\rx\n" ∧
        (fixText true "  #\rx\n" s).1.map Outcome.output = .ok "#\rx\n") ∧
    (parse "  \x0cif x:\n  y\n").errors = [] ∧ ∀ s,
      (fixText false "  \x0cif x:\n  y\n" s).1.map Outcome.output = .ok "  \x0cif x:\n  y\n" ∧
        (fixText true "  \x0cif x:\n  y\n" s).1.isOk = false := by
  obtain ⟨⟨hcomment, hcomment'⟩, hstripped, hstripped'⟩ := parse_margin_comment
  obtain ⟨⟨hreturn, hreturn'⟩, hbehind, hbehind'⟩ := parse_margin_return
  obtain ⟨⟨hfeed, hfeed'⟩, hblock⟩ := parse_margin_feed
  have hgiven (source : String) : numberedText false source = source := rfl
  have hcommentText : numberedText true "  # c\n" = "# c\n" := by decide
  have hreturnText : numberedText true "  #\rx\n" = "#\rx\n" := by decide
  refine ⟨⟨hcomment, hcomment', fun s => ⟨output_of_calls (hgiven _) hcomment hcomment' s,
      output_of_calls hcommentText hstripped hstripped' s⟩⟩,
    ⟨hreturn, hreturn', fun s => ⟨output_of_calls (hgiven _) hreturn hreturn' s,
      output_of_calls hreturnText hbehind hbehind' s⟩⟩,
    hfeed, fun s => ⟨output_of_calls (hgiven _) hfeed hfeed' s, ?_⟩⟩
  have hfeedText : numberedText true "  \x0cif x:\n  y\n" = "\x0cif x:\ny\n" := by decide
  have herrors : (parse (numberedText true "  \x0cif x:\n  y\n")).errors ≠ [] := hfeedText ▸ hblock
  obtain ⟨message, line, column, hfix⟩ := fixText_of_errors herrors s
  rw [hfix]
  rfl

end Renumber
