import Renumber.Proofs.Layout.Inside
import Renumber.Proofs.Layout.Scanner
import Renumber.Proofs.Sound

/-!
# Blocks follow columns

What the tokens in front of a place say about it: the columns of the open blocks, the line so far, and how
that line began (`Place`). The first content of a line that starts afresh stands at the column of the innermost
open block (`column_of_fresh_line`). The scan measures such a line when it knows that it is fresh. It loses
sight of that behind a continuation with nothing on its line: the line break after it ends no logical line, so
the next line is not measured and its content may stand anywhere (`column_unmeasured`).
-/

namespace Renumber

open Text (isBreak)
open Lexeme (isSpace)

namespace Layout

/-- A place between tokens, by the tokens in front of it. -/
structure Place where
  /-- The columns of the open blocks, innermost first. -/
  blocks : List Nat
  /-- How many brackets are open. -/
  depth : Nat
  /-- What stands in front of the place on its line. -/
  line : List Char
  /-- The line is the first one, or it comes after a `newline`, or after an `nl` outside brackets. -/
  fresh : Bool
  /-- A token that is neither trivia nor layout stands in front of the place on its line. -/
  content : Bool
  /-- There is a continuation behind the last `newline`. -/
  continued : Bool

/-! ## Marks -/

theorem map_token_dedents (n : Nat) (problem? : Option LexicalProblem) :
    (dedents n problem?).map Lexeme.token = List.replicate n ⟨.dedent, ""⟩ := by
  rw [dedents, List.map_append, List.map_replicate, List.map_replicate]
  show List.replicate _ (⟨.dedent, ""⟩ : Token) ++ List.replicate _ ⟨.dedent, ""⟩ = _
  rw [List.replicate_append_replicate]
  congr 1
  omega

/-- The blocks that stay open are those behind the blocks that close. -/
theorem drop_closed (blocks : List Nat) (column : Nat) :
    blocks.drop (blocks.takeWhile (column < ·)).length = blocks.dropWhile (column < ·) := by
  conv_lhs => rw [← List.takeWhile_append_dropWhile (p := (column < ·)) (l := blocks)]
  exact List.drop_left' (by rw [List.takeWhile_append_dropWhile])

namespace Place

/-- The place in front of all tokens. -/
def start : Place := ⟨[], 0, [], true, false, false⟩

/-- The place behind one more token. A block that opens has the column that its line has reached. -/
def after (p : Place) (t : Token) : Place :=
  match t.kind with
  | .indent => { p with blocks := columnOf p.line :: p.blocks }
  | .dedent => { p with blocks := p.blocks.tail }
  | .newline => { p with line := [], fresh := true, content := false, continued := false }
  | .nl => { p with line := [], fresh := p.depth == 0, content := false }
  | .lineContinuation => { p with line := [], fresh := false, content := false, continued := true }
  | k => { p with
      line := p.line ++ t.text.toList
      depth := depthAfter p.depth k
      content := p.content || k.isContent }

/-- The place behind some more tokens. -/
def past (p : Place) (ts : List Token) : Place := ts.foldl after p

/-- The place behind some tokens of a source. -/
def of (ts : List Token) : Place := start.past ts

theorem past_append (p : Place) (ts us : List Token) : p.past (ts ++ us) = (p.past ts).past us :=
  List.foldl_append

/-- Content at the place is at the column of the innermost block, if it is the first on a fresh line that no
continuation makes the scan lose sight of. -/
def Aligned (p : Place) : Prop :=
  p.fresh = true → p.content = false → p.continued = false → columnOf p.line = innermost p.blocks

/-- All content among some lexemes is aligned. -/
def Aligns (p : Place) : List Lexeme → Prop
  | [] => True
  | l :: ls => (l.token.kind.isContent = true → p.Aligned) ∧ (p.after l.token).Aligns ls

section
variable {p : Place}

theorem aligns_cons {l : Lexeme} {ls : List Lexeme} :
    p.Aligns (l :: ls) ↔ (l.token.kind.isContent = true → p.Aligned) ∧ (p.after l.token).Aligns ls :=
  Iff.rfl

theorem aligns_append {ls ms : List Lexeme} :
    p.Aligns (ls ++ ms) ↔ p.Aligns ls ∧ (p.past (ls.map Lexeme.token)).Aligns ms := by
  induction ls generalizing p with
  | nil => exact (true_and _).symm ▸ Iff.rfl
  | cons l ls ih => rw [List.cons_append, aligns_cons, ih, aligns_cons, and_assoc]; rfl

theorem aligns_of_no_content {ls : List Lexeme} (h : ∀ l ∈ ls, l.token.kind.isContent = false) :
    p.Aligns ls := by
  induction ls generalizing p with
  | nil => trivial
  | cons l ls ih =>
    refine ⟨fun hl => ?_, ih fun m hm => h m (List.mem_cons_of_mem l hm)⟩
    rw [h l List.mem_cons_self] at hl
    cases hl

/-! ## One token further -/

/-- A token that is no layout and ends no line. -/
theorem after_of_plain {t : Token} (hlayout : t.kind.isLayout = false) (hnl : t.kind ≠ .nl)
    (hcontinuation : t.kind ≠ .lineContinuation) : p.after t = { p with
      line := p.line ++ t.text.toList
      depth := depthAfter p.depth t.kind
      content := p.content || t.kind.isContent } := by
  obtain ⟨k, text⟩ := t
  cases k <;> first | rfl | exact absurd rfl hnl | exact absurd rfl hcontinuation | cases hlayout

theorem past_blanks (cs : List Char) :
    p.past ((blanks cs).map Lexeme.token) = { p with line := p.line ++ cs } := by
  cases cs with
  | nil => rw [List.append_nil]; rfl
  | cons c cs =>
    show p.after ⟨.whitespace, String.ofList (c :: cs)⟩ = _
    rw [after_of_plain rfl Kind.noConfusion Kind.noConfusion, String.toList_ofList]
    simp [depthAfter, Kind.isContent, Kind.isTrivia]

theorem past_dedents (n : Nat) (problem? : Option LexicalProblem) :
    p.past ((dedents n problem?).map Lexeme.token) = { p with blocks := p.blocks.drop n } := by
  rw [map_token_dedents]
  induction n generalizing p with
  | zero => rfl
  | succ n ih =>
    rw [List.replicate_succ]
    show ({ p with blocks := p.blocks.tail } : Place).past _ = _
    rw [ih, List.drop_tail]

/-- The marks in front of a line's content put the innermost block at its column. -/
theorem past_marks {column : Nat} (hcolumn : columnOf p.line = column)
    (hsound : ∀ l ∈ (marks p.blocks column).1, l.problem? = none) :
    p.past ((marks p.blocks column).1.map Lexeme.token) =
        { p with blocks := (marks p.blocks column).2 } ∧
      innermost (marks p.blocks column).2 = column := by
  by_cases hopen : innermost p.blocks < column
  · rw [marks, if_pos hopen]
    subst hcolumn
    exact ⟨rfl, rfl⟩
  · simp only [marks, if_neg hopen, past_dedents, drop_closed, true_and] at hsound ⊢
    by_contra hne
    rw [if_neg hne] at hsound
    have hclosed : 0 < (p.blocks.takeWhile (column < ·)).length := by
      cases hblocks : p.blocks with
      | nil => rw [hblocks] at hopen hne; exact absurd (Nat.eq_zero_of_not_pos hopen).symm hne
      | cons b bs =>
        rw [hblocks] at hopen hne
        by_cases hb : column < b
        · simp [hb]
        · rw [List.dropWhile_cons_of_neg (by simpa using hb)] at hne
          exact absurd (Nat.le_antisymm (Nat.not_lt.1 hb) (Nat.not_lt.1 hopen)) hne
    have hlast : Lexeme.mark .dedent (some .badUnindent) ∈
        dedents (p.blocks.takeWhile (column < ·)).length (some .badUnindent) :=
      List.mem_append_right _ (List.mem_replicate.2 ⟨by omega, rfl⟩)
    cases hsound _ hlast

end

end Place

/-! ## The scan -/

/-- The scan is in front of the first content of a line that it has measured. -/
def Place.Measured (p : Place) (text : List Char) : Prop :=
  columnOf p.line = innermost p.blocks ∧
    ∃ c cs, text = c :: cs ∧ isSpace c = false ∧ isBreak c = false ∧ (c == '#') = false

/-- What the scan knows of the place where it is. -/
inductive Standing (p : Place) (blocks : List Nat) : Mode → List Char → Prop
  | fresh {text : List Char} (hblocks : p.blocks = blocks) (hdepth : p.depth = 0)
      (hcontinued : p.continued = false) (hline : p.line = [] ∨ ∀ c ∈ text.head?, isBreak c = true) :
      Standing p blocks .fresh text
  | inLine {depth : Nat} {content : Bool} {text : List Char} (hblocks : p.blocks = blocks)
      (hdepth : p.depth = depth) (hseen : content = true → p.fresh = true → p.content = true)
      (hbare : content = false → p.continued = true ∨ p.Measured text) :
      Standing p blocks (.inLine depth content) text

/-- A token that starts with no blank and with no comment is content or a continuation. -/
theorem isContent_or_continuation {c : Char} (hspace : isSpace c = false)
    (hcomment : (c == '#') = false) (cs : List Char) : (Reach.scan c cs).kind.isContent = true ∨
      (Reach.scan c cs).kind = .lineContinuation := by
  unfold Reach.scan
  rw [if_neg (by rw [hspace]; exact Bool.false_ne_true),
    if_neg (by rw [hcomment]; exact Bool.false_ne_true)]
  split
  · cases cs with
    | nil => exact .inl rfl
    | cons b bs =>
      rw [Lexeme.continuation]
      split
      · exact .inr rfl
      · exact .inl rfl
  split
  · exact .inl (by rw [Lexeme.kind_number]; rfl)
  split
  · exact .inl rfl
  split
  · exact .inl (Lexeme.kind_word (P := fun k => k.isContent = true) rfl rfl (by decide) c cs)
  · exact .inl (Lexeme.kind_operator (P := fun k => k.isContent = true) rfl (by decide) c cs)

section
variable {p : Place} {blocks : List Nat}

/-- In front of content inside a line the place is aligned. -/
theorem Standing.aligned {depth : Nat} {content : Bool} {text : List Char}
    (h : Standing p blocks (.inLine depth content) text) : p.Aligned := by
  intro hfresh hcontent hcontinued
  cases h with
  | inLine hblocks hdepth hseen hbare =>
    cases content with
    | true => rw [hseen rfl hfresh] at hcontent; cases hcontent
    | false =>
      rcases hbare rfl with h | h
      · rw [h] at hcontinued
        cases hcontinued
      · exact h.1

/-- One token inside a line. -/
theorem Standing.scan {depth : Nat} {content : Bool} {c : Char} {cs : List Char}
    (h : Standing p blocks (.inLine depth content) (c :: cs)) :
    Standing (p.after ((Reach.scan c cs).taken c cs).token) blocks
      (.inLine (depthAfter depth (Reach.scan c cs).kind)
        (content || (Reach.scan c cs).kind.isContent)) ((Reach.scan c cs).left cs) := by
  have hscanned := isScanned_scan c cs
  cases h with
  | inLine hblocks hdepth hseen hbare =>
    by_cases hk : (Reach.scan c cs).kind = .lineContinuation
    · have hafter : p.after ((Reach.scan c cs).taken c cs).token =
          { p with line := [], fresh := false, content := false, continued := true } := by
        rw [Place.after, show ((Reach.scan c cs).taken c cs).token.kind = .lineContinuation from hk]
      rw [hafter, hk]
      exact .inLine hblocks hdepth (fun _ h => absurd h Bool.false_ne_true) fun _ => .inl rfl
    · have hlayout : (Reach.scan c cs).kind.isLayout = false := by
        simp only [Kind.isScanned, Bool.and_eq_true, Bool.not_eq_true'] at hscanned
        exact hscanned.1.2
      have hnl : (Reach.scan c cs).kind ≠ .nl := by
        intro hnl
        rw [hnl] at hscanned
        cases hscanned
      rw [Place.after_of_plain (t := ((Reach.scan c cs).taken c cs).token) hlayout hnl hk]
      refine .inLine hblocks (congrArg (depthAfter · _) hdepth) (fun hcontent hfresh => ?_)
        fun hcontent => ?_
      · rw [Bool.or_eq_true] at hcontent ⊢
        exact hcontent.imp_left fun h => hseen h hfresh
      · rw [Bool.or_eq_false_iff] at hcontent
        refine (hbare hcontent.1).imp_right fun hfirst => ?_
        obtain ⟨-, a, as, htext, hspace, -, hcomment⟩ := hfirst
        obtain ⟨rfl, rfl⟩ := List.cons.inj htext
        rcases isContent_or_continuation hspace hcomment cs with h | h
        · rw [h] at hcontent
          cases hcontent.2
        · exact absurd h hk

/-- The scan of a source without problems aligns all content. -/
theorem aligns_lexFrom {mode : Mode} {text : List Char} (h : Standing p blocks mode text)
    (hsound : ∀ l ∈ lexFrom blocks mode text, l.problem? = none) :
    p.Aligns (lexFrom blocks mode text) := by
  have hblanks (cs : List Char) : ∀ l ∈ blanks cs, l.token.kind.isContent = false := by
    intro l hl
    rw [(mem_blanks hl).2]
    rfl
  have hmarks (blocks : List Nat) (column : Nat) :
      ∀ l ∈ (marks blocks column).1, l.token.kind.isContent = false := by
    intro l hl
    obtain ⟨k, p, rfl, rfl | rfl⟩ := mem_marks hl <;> rfl
  have hfinish (blocks : List Nat) (content : Bool) :
      ∀ l ∈ finish blocks content, l.token.kind.isContent = false := by
    intro l hl
    rcases mem_finish hl with rfl | rfl <;> rfl
  revert p
  fun_induction lexFrom blocks mode text with
  | case1 blocks text indentation hd =>
    intro p h
    exact Place.aligns_append.2 ⟨Place.aligns_of_no_content (hblanks _),
      Place.aligns_of_no_content (hfinish _ _)⟩
  | case2 blocks text indentation c cs hd hb r =>
    rename_i ih
    intro p h
    cases h with
    | fresh hblocks hdepth hcontinued hline =>
      refine Place.aligns_append.2 ⟨Place.aligns_of_no_content (hblanks _),
        (absurd · Bool.false_ne_true),
        ih (fun l hl => hsound l (List.mem_append_right _ (List.mem_cons_of_mem _ hl))) ?_⟩
      rw [Place.past_blanks]
      exact .fresh hblocks hdepth hcontinued (.inl rfl)
  | case3 blocks text indentation c cs hd hb hc r =>
    rename_i ih
    intro p h
    cases h with
    | fresh hblocks hdepth hcontinued hline =>
      refine Place.aligns_append.2 ⟨Place.aligns_of_no_content (hblanks _),
        (absurd · Bool.false_ne_true),
        ih (fun l hl => hsound l (List.mem_append_right _ (List.mem_cons_of_mem _ hl))) ?_⟩
      rw [Place.past_blanks, Place.after_of_plain rfl Kind.noConfusion Kind.noConfusion]
      refine .fresh hblocks hdepth hcontinued (.inr fun a ha => ?_)
      have hleft : r.left cs = cs.dropWhile (fun a => !isBreak a) := Lexeme.drop_runLength _ cs
      have hhead := List.head?_dropWhile_not (fun a => !isBreak a) cs
      rw [← hleft, ha] at hhead
      simpa using hhead
  | case4 blocks text indentation c cs hd hb hc before blocks' hm ih =>
    intro p h
    cases h with
    | fresh hblocks hdepth hcontinued hline =>
      subst hblocks
      have hsolid := not_isSpace_of_dropWhile hd
      -- Behind a comment the line is over, so there is nothing on the line yet.
      have hline' : p.line = [] := hline.resolve_right fun h => by
        cases text with
        | nil => cases hd
        | cons a as =>
          have ha := h a rfl
          rw [List.dropWhile_cons_of_neg (by rw [Lexeme.isSpace_of_isBreak ha]; exact Bool.false_ne_true)]
            at hd
          exact hb ((List.cons.inj hd).1 ▸ ha)
      have hpast := Place.past_blanks (p := p) indentation
      rw [hline', List.nil_append] at hpast
      have hmarks' := Place.past_marks (p := { p with line := indentation }) rfl fun l hl => by
        rw [hm] at hl
        exact hsound l (List.mem_append_left _ (List.mem_append_right _ hl))
      rw [hm] at hmarks'
      refine Place.aligns_append.2 ⟨Place.aligns_append.2 ⟨Place.aligns_of_no_content (hblanks _),
        Place.aligns_of_no_content ?_⟩, ih (fun l hl => hsound l (List.mem_append_right _ hl)) ?_⟩
      · have := hmarks p.blocks (columnOf indentation)
        rwa [hm] at this
      · rw [List.map_append, Place.past_append, hpast, hmarks'.1]
        exact .inLine rfl hdepth (absurd · Bool.false_ne_true) fun _ => .inr ⟨hmarks'.2.symm, c, cs, rfl, hsolid,
          Bool.not_eq_true _ ▸ hb, Bool.not_eq_true _ ▸ hc⟩
  | case5 blocks depth content =>
    intro p h
    exact Place.aligns_of_no_content (hfinish _ _)
  | case6 blocks depth content c cs hb hd r ih =>
    intro p h
    refine ⟨(absurd · Bool.false_ne_true), ih (fun l hl => hsound l (List.mem_cons_of_mem _ hl)) ?_⟩
    cases h with
    | inLine hblocks hdepth hseen hbare =>
      rw [Bool.and_eq_true, decide_eq_true_eq] at hd
      exact .fresh hblocks (hdepth.trans hd.1) rfl (.inl rfl)
  | case7 blocks depth content c cs hb hd r ih =>
    intro p h
    refine ⟨(absurd · Bool.false_ne_true), ih (fun l hl => hsound l (List.mem_cons_of_mem _ hl)) ?_⟩
    cases h with
    | inLine hblocks hdepth hseen hbare =>
      refine .inLine hblocks hdepth (fun hcontent hfresh => ?_) fun hcontent => ?_
      · rw [hcontent, Bool.and_true, decide_eq_true_eq] at hd
        exact absurd (hdepth.symm.trans (beq_iff_eq.1 hfresh)) hd
      · refine (hbare hcontent).imp_right fun hfirst => ?_
        obtain ⟨-, a, as, htext, -, hbreak, -⟩ := hfirst
        rw [(List.cons.inj htext).1, hbreak] at hb
        cases hb
  | case8 blocks depth content c cs hb r ih =>
    intro p h
    exact ⟨fun _ => h.aligned, ih (fun l hl => hsound l (List.mem_cons_of_mem _ hl)) h.scan⟩

end

theorem Place.aligned_of_aligns {p : Place} {ls ms : List Lexeme} {l : Lexeme}
    (h : p.Aligns (ls ++ l :: ms)) (hl : l.token.kind.isContent = true) :
    (p.past (ls.map Lexeme.token)).Aligned :=
  (aligns_append.1 h).2.1 hl

end Layout

open Layout (Place columnOf innermost)

/-- The first content of a fresh line is at the column of the innermost open block, unless there is a
continuation in front of it behind the last `newline`. -/
theorem column_of_fresh_line {source : String} (h : lexicalErrors (lex source) = [])
    {as bs : List Token} {t : Token} (hts : tokensOf source = as ++ t :: bs)
    (ht : t.kind.isContent = true) (hfresh : (Place.of as).fresh = true)
    (hfirst : (Place.of as).content = false) (hcontinued : (Place.of as).continued = false) :
    columnOf (Place.of as).line = innermost (Place.of as).blocks := by
  have haligns : Place.start.Aligns (lex source) :=
    Layout.aligns_lexFrom (.fresh rfl rfl rfl (.inl rfl)) (lexicalErrors_eq_nil_iff.1 h)
  obtain ⟨ls, rest, hlex, rfl, hrest⟩ := List.map_eq_append_iff.1 hts
  obtain ⟨l, ms, rfl, rfl, rfl⟩ := List.map_eq_cons_iff.1 hrest
  rw [hlex] at haligns
  exact Place.aligned_of_aligns haligns ht hfresh hfirst hcontinued

/-- The second line, which starts with a tab, opens a block at column 8. -/
theorem column_of_fresh_line_tab :
    let as : List Token := [⟨.ifKw, "if"⟩, ⟨.whitespace, " "⟩, ⟨.ident, "a"⟩, ⟨.colon, ":"⟩,
      ⟨.newline, "\n"⟩, ⟨.whitespace, "  \t"⟩, ⟨.indent, ""⟩]
    let bs : List Token := [⟨.newline, "\n"⟩, ⟨.dedent, ""⟩]
    (lexicalErrors (lex "if a:\n  \tb\n") = [] ∧
      tokensOf "if a:\n  \tb\n" = as ++ ⟨.ident, "b"⟩ :: bs ∧ Kind.ident.isContent = true ∧
      (Place.of as).fresh = true ∧ (Place.of as).content = false ∧
      (Place.of as).continued = false) ∧
    columnOf (Place.of as).line = innermost (Place.of as).blocks ∧ columnOf (Place.of as).line = 8 := by
  have hlex : lex "if a:\n  \tb\n" = Lexeme.sound [⟨.ifKw, "if"⟩, ⟨.whitespace, " "⟩, ⟨.ident, "a"⟩,
      ⟨.colon, ":"⟩, ⟨.newline, "\n"⟩, ⟨.whitespace, "  \t"⟩, ⟨.indent, ""⟩, ⟨.ident, "b"⟩,
      ⟨.newline, "\n"⟩, ⟨.dedent, ""⟩] := by cbv
  intro as bs
  have h := lexicalErrors_of_lex hlex
  have hts : tokensOf "if a:\n  \tb\n" = as ++ ⟨.ident, "b"⟩ :: bs := tokensOf_of_lex hlex
  have hfresh : (Place.of as).fresh = true := by decide
  have hfirst : (Place.of as).content = false := by decide
  have hcontinued : (Place.of as).continued = false := by decide
  exact ⟨⟨h, hts, rfl, hfresh, hfirst, hcontinued⟩,
    column_of_fresh_line h hts rfl hfresh hfirst hcontinued, by decide⟩

/-- The last line comes after an `nl` outside brackets and starts at column 0, but the block at column 4
is still open in front of it. A continuation with nothing else on its line stands before. -/
theorem column_unmeasured :
    let source := "if a:\n    b\n    \\\n\nc\n"
    let as : List Token := [⟨.ifKw, "if"⟩, ⟨.whitespace, " "⟩, ⟨.ident, "a"⟩, ⟨.colon, ":"⟩,
      ⟨.newline, "\n"⟩, ⟨.whitespace, "    "⟩, ⟨.indent, ""⟩, ⟨.ident, "b"⟩, ⟨.newline, "\n"⟩,
      ⟨.whitespace, "    "⟩, ⟨.lineContinuation, "\\\n"⟩, ⟨.nl, "\n"⟩]
    lexicalErrors (lex source) = [] ∧
      tokensOf source = as ++ ⟨.ident, "c"⟩ :: [⟨.newline, "\n"⟩, ⟨.dedent, ""⟩] ∧
      Kind.ident.isContent = true ∧ (Place.of as).fresh = true ∧ (Place.of as).content = false ∧
      columnOf (Place.of as).line = 0 ∧ innermost (Place.of as).blocks = 4 := by
  have hlex : lex "if a:\n    b\n    \\\n\nc\n" = Lexeme.sound [⟨.ifKw, "if"⟩, ⟨.whitespace, " "⟩,
      ⟨.ident, "a"⟩, ⟨.colon, ":"⟩, ⟨.newline, "\n"⟩, ⟨.whitespace, "    "⟩, ⟨.indent, ""⟩, ⟨.ident, "b"⟩,
      ⟨.newline, "\n"⟩, ⟨.whitespace, "    "⟩, ⟨.lineContinuation, "\\\n"⟩, ⟨.nl, "\n"⟩, ⟨.ident, "c"⟩,
      ⟨.newline, "\n"⟩, ⟨.dedent, ""⟩] := by cbv
  intro source as
  exact ⟨lexicalErrors_of_lex hlex, tokensOf_of_lex hlex, rfl, by decide, by decide, by decide, by decide⟩

end Renumber
