import Renumber.Lexeme

/-!
# Layout

A source text as lexemes, with the marks of its layout. The scan is either at the start of a physical
line whose indentation counts (`Mode.fresh`), or inside a line, where it knows how many brackets are
open and whether the logical line has content yet (`Mode.inLine`). Beside that it keeps the columns of
the open blocks, innermost first; the outermost block, at column 0, is always open and not listed.

* A line break ends the logical line, and the next line is fresh, only outside brackets and after
  content. Every other line break is trivia.
* The first content of a fresh line opens a block or closes some. Blank lines and comment lines do
  neither.
* The end of the input ends the logical line and closes every block.

`lexFrom` loses nothing: the texts of the tokens, joined, are the source (`textOf_tokensOf`).
-/

namespace Renumber

open Text (isBreak)

namespace Layout

/-- Where in a line the scan stands. -/
inductive Mode where
  | fresh
  | inLine (depth : Nat) (content : Bool)
deriving DecidableEq, Repr

/-- A fresh line may turn into a line without taking a character; not the other way round. -/
def Mode.rank : Mode → Nat
  | .fresh => 1
  | .inLine .. => 0

/-- The column after one more blank: a tab goes to the next multiple of eight, a form feed starts the
line over. -/
def advance (column : Nat) (c : Char) : Nat :=
  if c == ' ' then column + 1
  else if c == '\t' then (column / 8 + 1) * 8
  else 0

/-- The column that a run of blanks reaches. -/
def columnOf (blanks : List Char) : Nat := blanks.foldl advance 0

/-- The column of the innermost open block. -/
def innermost (blocks : List Nat) : Nat := blocks.headD 0

/-- The marks for closed blocks. When no open block has the column of the line, the last mark carries
the problem. -/
def dedents (n : Nat) (problem? : Option LexicalProblem) : List Lexeme :=
  List.replicate (n - 1) (.mark .dedent none) ++ List.replicate (min n 1) (.mark .dedent problem?)

/-- The marks in front of the first content of a line that starts at a column, and the blocks that
are open then. -/
def marks (blocks : List Nat) (column : Nat) : List Lexeme × List Nat :=
  if innermost blocks < column then ([.mark .indent none], column :: blocks)
  else
    let closed := blocks.takeWhile (column < ·)
    let open' := blocks.dropWhile (column < ·)
    let problem? := if innermost open' = column then none else some .badUnindent
    (dedents closed.length problem?, open')

/-- The marks at the end of the input. -/
def finish (blocks : List Nat) (content : Bool) : List Lexeme :=
  (if content then [.mark .newline none] else []) ++
    List.replicate blocks.length (.mark .dedent none)

/-- The bracket depth after a token. It never falls below zero. -/
def depthAfter (depth : Nat) : Kind → Nat
  | .lParen | .lBracket | .lBrace => depth + 1
  | .rParen | .rBracket | .rBrace => depth - 1
  | _ => depth

/-- A run of blanks as a lexeme, if there are any. -/
def blanks : List Char → List Lexeme
  | [] => []
  | cs => [⟨⟨.whitespace, String.ofList cs⟩, none⟩]

/-- The lexemes of a text that starts in a given mode with given blocks open. -/
def lexFrom (blocks : List Nat) (mode : Mode) (text : List Char) : List Lexeme :=
  match mode, text with
  | .fresh, text =>
    let indentation := text.takeWhile Lexeme.isSpace
    match _h : text.dropWhile Lexeme.isSpace with
    | [] => blanks indentation ++ finish blocks false
    | c :: cs =>
      if isBreak c then
        let r : Reach := ⟨.nl, Lexeme.breakMore c cs, none⟩
        blanks indentation ++ r.taken c cs :: lexFrom blocks .fresh (r.left cs)
      else if c == '#' then
        let r : Reach := ⟨.comment, Lexeme.commentMore cs, none⟩
        blanks indentation ++ r.taken c cs :: lexFrom blocks .fresh (r.left cs)
      else
        let (before, blocks') := marks blocks (columnOf indentation)
        blanks indentation ++ before ++ lexFrom blocks' (.inLine 0 false) (c :: cs)
  | .inLine _ content, [] => finish blocks content
  | .inLine depth content, c :: cs =>
    if isBreak c then
      if depth = 0 && content then
        let r : Reach := ⟨.newline, Lexeme.breakMore c cs, none⟩
        r.taken c cs :: lexFrom blocks .fresh (r.left cs)
      else
        let r : Reach := ⟨.nl, Lexeme.breakMore c cs, none⟩
        r.taken c cs :: lexFrom blocks (.inLine depth content) (r.left cs)
    else
      let r := Reach.scan c cs
      r.taken c cs ::
        lexFrom blocks (.inLine (depthAfter depth r.kind) (content || r.kind.isContent)) (r.left cs)
termination_by (text.length, mode.rank)
decreasing_by
  all_goals
    simp_wf
    first
    | have hle := (List.dropWhile_sublist (p := Lexeme.isSpace) (l := text)).length_le
      rw [_h] at hle
      simp only [List.length_cons] at hle
      simp only [Reach.left, List.length_drop, Prod.lex_def, Mode.rank]
      omega
    | simp only [Reach.left, List.length_drop, Prod.lex_def, Mode.rank]
      omega

end Layout

/-- The lexemes of a source. -/
def lex (source : String) : List Lexeme := Layout.lexFrom [] .fresh source.toList

/-- The tokens of a source. -/
def tokensOf (source : String) : List Token := (lex source).map Lexeme.token

/-! ## Nothing is lost -/

@[simp] theorem Lexeme.text_mark (kind : Kind) (p : Option LexicalProblem) :
    (Lexeme.mark kind p).token.text = "" := rfl

namespace Layout

/-- The characters that a list of lexemes covers. -/
def covered (ls : List Lexeme) : List Char := ls.flatMap fun l => l.token.text.toList

@[simp] theorem covered_nil : covered [] = [] := rfl

@[simp] theorem covered_cons (l : Lexeme) (ls : List Lexeme) :
    covered (l :: ls) = l.token.text.toList ++ covered ls := rfl

@[simp] theorem covered_append (ls ms : List Lexeme) :
    covered (ls ++ ms) = covered ls ++ covered ms := by
  simp [covered]

@[simp] theorem covered_blanks (cs : List Char) : covered (blanks cs) = cs := by
  cases cs <;> simp [blanks]

@[simp] theorem covered_replicate_mark (n : Nat) (kind : Kind) (p : Option LexicalProblem) :
    covered (List.replicate n (.mark kind p)) = [] := by
  induction n with
  | zero => rfl
  | succ n ih => simp [List.replicate_succ, ih]

@[simp] theorem covered_marks (blocks : List Nat) (column : Nat) :
    covered (marks blocks column).1 = [] := by
  unfold marks dedents
  split <;> simp

@[simp] theorem covered_finish (blocks : List Nat) (content : Bool) :
    covered (finish blocks content) = [] := by
  unfold finish
  split <;> simp

theorem covered_lexFrom (blocks : List Nat) (mode : Mode) (text : List Char) :
    covered (lexFrom blocks mode text) = text := by
  fun_induction lexFrom blocks mode text with
  | case1 blocks text indentation h =>
    have := List.takeWhile_append_dropWhile (p := Lexeme.isSpace) (l := text)
    simp_all [indentation]
  | case2 blocks text indentation c cs h hb r ih =>
    rw [covered_append, covered_blanks, covered_cons, ih, Reach.taken_append_left, ← h]
    exact List.takeWhile_append_dropWhile
  | case3 blocks text indentation c cs h hb hc r ih =>
    rw [covered_append, covered_blanks, covered_cons, ih, Reach.taken_append_left, ← h]
    exact List.takeWhile_append_dropWhile
  | case4 blocks text indentation c cs h hb hc before blocks' hm ih =>
    have hbefore : covered before = [] := by
      have := covered_marks blocks (columnOf indentation); rwa [hm] at this
    rw [covered_append, covered_append, covered_blanks, hbefore, ih, List.append_nil, ← h]
    exact List.takeWhile_append_dropWhile
  | case5 => simp
  | case6 blocks depth content c cs hb hd r ih | case7 blocks depth content c cs hb hd r ih =>
    rw [covered_cons, ih, Reach.taken_append_left]
  | case8 blocks depth content c cs hb r ih =>
    rw [covered_cons, ih, Reach.taken_append_left]

end Layout

/-- The texts of the lexemes, joined, are the source. -/
theorem textOf_tokensOf (source : String) : Token.textOf (tokensOf source) = source := by
  have h := Layout.covered_lexFrom [] .fresh source.toList
  apply String.toList_injective
  rw [← h]
  simp only [tokensOf, lex, Token.textOf, Layout.covered, String.toList_join, List.map_map,
    List.flatMap]
  rfl

end Renumber
