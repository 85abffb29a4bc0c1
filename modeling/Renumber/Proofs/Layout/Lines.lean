import Renumber.Proofs.Layout.Inside
import Renumber.Proofs.Layout.Scanner
import Renumber.Proofs.Sound

/-!
# Laying out lines

A program as lines with nesting depths, written down with any columns that fit the nesting, any blanks that
measure to these columns, and any blank lines and comment lines between (`Written`). The scan takes such a text
apart into the same lines, and it marks the nesting: one `indent` in front of a line that is nested deeper than
the line before it, and for a line that is nested less deeply one `dedent` for every level
(`lex_written`).

The columns of the open blocks increase from the outermost to the innermost (`Open`), so the blocks that a
column closes are those deeper than its own.
-/

namespace Renumber

open Text (isBreak)
open Lexeme (isSpace sound)
open Token (spelled)

namespace Layout

/-! ## Open blocks -/

/-- The columns of the open blocks, innermost first: each is greater than those of the blocks around it. -/
def Open (blocks : List Nat) : Prop := (blocks ++ [0]).Pairwise (· > ·)

section
variable {blocks : List Nat}

theorem innermost_eq (blocks : List Nat) : (blocks ++ [0]).head? = some (innermost blocks) := by
  cases blocks <;> rfl

theorem innermost_mem (blocks : List Nat) : innermost blocks ∈ blocks ++ [0] :=
  List.mem_of_mem_head? (innermost_eq blocks)

theorem Open.nil : Open [] := List.pairwise_singleton _ _

theorem Open.cons {column : Nat} (h : Open blocks) (hcolumn : innermost blocks < column) :
    Open (column :: blocks) := by
  refine List.pairwise_cons.2 ⟨fun b hb => ?_, h⟩
  cases blocks with
  | nil =>
    rw [List.mem_singleton.1 hb]
    exact hcolumn
  | cons a as =>
    rcases List.mem_cons.1 hb with rfl | hb
    · exact hcolumn
    · exact Nat.lt_trans ((List.pairwise_cons.1 h).1 b hb) hcolumn

theorem Open.outer {inner outer : List Nat} (h : Open (inner ++ outer)) : Open outer := by
  unfold Open at h
  rw [List.append_assoc] at h
  exact (List.pairwise_append.1 h).2.1

/-- A line that is nested deeper opens a block. -/
theorem marks_of_lt {column : Nat} (h : innermost blocks < column) :
    marks blocks column = ([.mark .indent none], column :: blocks) := by
  rw [marks, if_pos h]

theorem dedents_none (n : Nat) : dedents n none = List.replicate n (.mark .dedent none) := by
  rw [dedents, List.replicate_append_replicate]
  congr 1
  omega

/-- A line at the column of an open block closes the blocks inside that one. -/
theorem marks_append {inner outer : List Nat} (h : Open (inner ++ outer)) :
    marks (inner ++ outer) (innermost outer) =
      (List.replicate inner.length (.mark .dedent none), outer) := by
  have hinner : ∀ b ∈ inner, innermost outer < b := by
    unfold Open at h
    rw [List.append_assoc] at h
    exact fun b hb => (List.pairwise_append.1 h).2.2 b hb _ (innermost_mem _)
  have hpos : ∀ b ∈ inner, decide (innermost outer < b) = true :=
    fun b hb => decide_eq_true (hinner b hb)
  have hclosed : ¬ innermost (inner ++ outer) < innermost outer := by
    cases inner with
    | nil => exact Nat.lt_irrefl _
    | cons b bs => exact Nat.not_lt.2 (hinner b List.mem_cons_self).le
  have htake : (inner ++ outer).takeWhile (innermost outer < ·) = inner := by
    rw [List.takeWhile_append_of_pos hpos]
    cases outer with
    | nil => rw [List.takeWhile_nil, List.append_nil]
    | cons a as => rw [List.takeWhile_cons_of_neg (by simp [innermost]), List.append_nil]
  have hdrop : (inner ++ outer).dropWhile (innermost outer < ·) = outer := by
    rw [List.dropWhile_append_of_pos hpos]
    cases outer with
    | nil => rw [List.dropWhile_nil]
    | cons a as => rw [List.dropWhile_cons_of_neg (by simp [innermost])]
  simp only [marks, if_neg hclosed, htake, hdrop, if_pos, dedents_none]

end

/-! ## Line breaks -/

/-- The ways in which lines end. -/
def endings : List (List Char) := [['\n'], ['\r', '\n']]

section
variable {ending : List Char} (hending : ending ∈ endings)
include hending

/-- An ending is a break, with a line feed behind a carriage return. -/
theorem exists_break : ∃ b bs, ending = b :: bs ∧ isBreak b = true ∧
    ∀ (k : Kind) (rest : List Char),
      Reach.taken ⟨k, Lexeme.breakMore b (bs ++ rest), none⟩ b (bs ++ rest) =
          ⟨⟨k, String.ofList ending⟩, none⟩ ∧
        Reach.left ⟨k, Lexeme.breakMore b (bs ++ rest), none⟩ (bs ++ rest) = rest := by
  rw [endings, List.mem_cons, List.mem_singleton] at hending
  rcases hending with rfl | rfl
  · exact ⟨'\n', [], rfl, rfl, fun k rest => ⟨rfl, rfl⟩⟩
  · exact ⟨'\r', ['\n'], rfl, rfl, fun k rest => ⟨rfl, rfl⟩⟩

end

/-! ## Blank lines and comment lines -/

/-- A line with blanks and perhaps a comment, which stands behind its `#`. -/
structure Filler where
  indentation : List Char
  comment? : Option (List Char)
  spaces : ∀ a ∈ indentation, isSpace a = true
  oneLine : ∀ cs ∈ comment?, ∀ a ∈ cs, isBreak a = false

/-- A run of blanks as a token, if there are any. -/
def spaced : List Char → List Token
  | [] => []
  | cs => [⟨.whitespace, String.ofList cs⟩]

theorem blanks_eq (cs : List Char) : blanks cs = sound (spaced cs) := by
  cases cs <;> rfl

namespace Filler

/-- The tokens of a filler. -/
def tokens (ending : List Char) (f : Filler) : List Token :=
  spaced f.indentation ++ (f.comment?.map fun cs => ⟨.comment, String.ofList ('#' :: cs)⟩).toList ++
    [⟨.nl, String.ofList ending⟩]

/-- A filler as it is written. -/
def text (ending : List Char) (f : Filler) : List Char :=
  f.indentation ++ (f.comment?.map ('#' :: ·)).getD [] ++ ending

end Filler

section
variable {ending : List Char} (hending : ending ∈ endings) {blocks : List Nat}
include hending

theorem lexFrom_ending (rest : List Char) : lexFrom blocks .fresh (ending ++ rest) =
    ⟨⟨.nl, String.ofList ending⟩, none⟩ :: lexFrom blocks .fresh rest := by
  obtain ⟨b, bs, rfl, hb, hreach⟩ := exists_break hending
  have h : lexFrom blocks .fresh ([] ++ b :: (bs ++ rest)) = _ :=
    lexFrom_fresh_cons (List.forall_mem_nil _) (Lexeme.isSpace_of_isBreak hb) _
  rw [if_pos hb, (hreach .nl rest).1, (hreach .nl rest).2] at h
  exact h

theorem lexFrom_filler (f : Filler) (rest : List Char) :
    lexFrom blocks .fresh (f.text ending ++ rest) =
      sound (f.tokens ending) ++ lexFrom blocks .fresh rest := by
  obtain ⟨b, bs, hbs, hb, hreach⟩ := exists_break hending
  cases hcomment : f.comment? with
  | none =>
    have h : lexFrom blocks .fresh (f.indentation ++ b :: (bs ++ rest)) = _ :=
      lexFrom_fresh_cons f.spaces (Lexeme.isSpace_of_isBreak hb) _
    rw [if_pos hb, (hreach .nl rest).1, (hreach .nl rest).2, blanks_eq] at h
    simpa [Filler.text, Filler.tokens, hcomment, hbs] using h
  | some cs =>
    have hmore : Lexeme.commentMore (cs ++ (ending ++ rest)) = cs.length := by
      rw [Lexeme.commentMore, Lexeme.runLength, List.takeWhile_append_of_pos fun a ha => by
        rw [f.oneLine cs hcomment a ha]; rfl]
      rw [hbs, List.cons_append, List.takeWhile_cons_of_neg (by simp [hb]), List.append_nil]
    have h : lexFrom blocks .fresh (f.indentation ++ '#' :: (cs ++ (ending ++ rest))) = _ :=
      lexFrom_fresh_cons f.spaces rfl _
    rw [if_neg (by decide), if_pos (beq_self_eq_true '#'), hmore, Reach.taken, Reach.left, List.take_left, List.drop_left,
      lexFrom_ending hending, blanks_eq] at h
    simpa [Filler.text, Filler.tokens, hcomment] using h

/-- Blank lines and comment lines are trivia, whatever their indentation, and leave the blocks as they
are. -/
theorem lexFrom_fillers (fs : List Filler) (rest : List Char) :
    lexFrom blocks .fresh (fs.flatMap (Filler.text ending) ++ rest) =
      sound (fs.flatMap (Filler.tokens ending)) ++ lexFrom blocks .fresh rest := by
  induction fs with
  | nil => rfl
  | cons f fs ih =>
    rw [List.flatMap_cons, List.append_assoc, lexFrom_filler hending, ih, List.flatMap_cons,
      Lexeme.sound_append, List.append_assoc]

end

/-! ## The content of a line -/

/-- A token that holds no line break is no continuation. -/
theorem ne_continuation {c : Char} {cs : List Char} (hline : ∀ a ∈ c :: cs, isBreak a = false) :
    (Reach.scan c cs).kind ≠ .lineContinuation := by
  intro h
  have hinside : Reach.inside c cs = .scan c cs := by
    rw [Reach.inside, hline c List.mem_cons_self, if_neg Bool.false_ne_true]
  rcases Reach.inside_of_trivia (by rw [hinside, h]; rfl) with
    ⟨hc, -⟩ | ⟨-, hk⟩ | ⟨-, hk⟩ | ⟨-, b, bs, rfl, hb, -⟩
  · rw [hline c List.mem_cons_self] at hc
    cases hc
  · rw [← hinside, hk] at h
    cases h
  · rw [← hinside, hk] at h
    cases h
  · rw [hline b (by simp)] at hb
    cases hb

section
variable {t : Token} {c : Char} {cs rest : List Char}

/-- A token inside a line, by how far it is scanned. -/
theorem lexFrom_of_scan (htext : t.text.toList = c :: cs) (hbreak : isBreak c = false)
    (hscan : Reach.scan c (cs ++ rest) = ⟨t.kind, cs.length, none⟩) (blocks : List Nat) (d : Nat)
    (content : Bool) : lexFrom blocks (.inLine d content) (t.text.toList ++ rest) =
      ⟨t, none⟩ :: lexFrom blocks (.inLine (depthAfter d t.kind) (content || t.kind.isContent)) rest := by
  rw [htext, List.cons_append, lexFrom_inLine_cons, hbreak, if_neg Bool.false_ne_true, hscan,
    Reach.taken, Reach.left, List.take_left, List.drop_left, ← htext, String.ofList_toList]

/-- The first token of a line that has no problem, and how far it is scanned. -/
theorem exists_scan_of_lexFrom {ts : List Token} {ls : List Lexeme} {blocks : List Nat} {d : Nat}
    {content : Bool}
    (h : lexFrom blocks (.inLine d content) (spelled (t :: ts)) = sound (t :: ts) ++ ls)
    (hline : ∀ a ∈ spelled (t :: ts), isBreak a = false) (ht : t.kind.isLayout = false) :
    ∃ c cs, t.text.toList = c :: cs ∧ Reach.scan c (cs ++ spelled ts) = ⟨t.kind, cs.length, none⟩ ∧
      lexFrom blocks (.inLine (depthAfter d t.kind) (content || t.kind.isContent)) (spelled ts) =
        sound ts ++ ls := by
  cases htext : spelled (t :: ts) with
  | nil =>
    rw [htext, lexFrom] at h
    have hmem : ⟨t, none⟩ ∈ finish blocks content := h ▸ List.mem_cons_self
    rcases mem_finish hmem with h | h <;> rw [(Lexeme.mk.inj h).1] at ht <;> cases ht
  | cons c cs =>
    rw [htext] at h hline
    rw [lexFrom_inLine_cons, hline c List.mem_cons_self, if_neg Bool.false_ne_true, Lexeme.sound_cons,
      List.cons_append] at h
    obtain ⟨htaken, hrest⟩ := List.cons.inj h
    obtain ⟨htoken, hproblem⟩ := Lexeme.mk.inj htaken
    obtain ⟨hkind, hchars⟩ := Token.mk.inj htoken
    have ht' : t.text.toList = c :: cs.take (Reach.scan c cs).more := by
      rw [← hchars, String.toList_ofList]
    have hcs : cs.take (Reach.scan c cs).more ++ spelled ts = cs := by
      rw [Token.spelled_cons, ht'] at htext
      exact (List.cons.inj htext).2
    have hleft : (Reach.scan c cs).left cs = spelled ts := by
      rw [← List.append_cancel_left_eq (cs.take (Reach.scan c cs).more), hcs]
      exact List.take_append_drop _ cs
    refine ⟨c, _, ht', ?_, ?_⟩
    · rw [hcs, List.length_take, Nat.min_eq_left (Lexeme.more_scan_le c cs), ← hkind, ← hproblem]
    · rwa [hleft, hkind] at hrest

end

/-- Tokens of one line in front of a line break. -/
theorem lexFrom_line {ts : List Token} {ls : List Lexeme} {d e : Nat} {content : Bool} {b : Char}
    (hlex : lexFrom [] (.inLine d content) (spelled ts) = sound ts ++ ls)
    (hline : ∀ a ∈ spelled ts, isBreak a = false) (hclimb : Token.climb d ts = some e)
    (hb : isBreak b = true) (blocks : List Nat) (rest : List Char) :
    lexFrom blocks (.inLine d content) (spelled ts ++ b :: rest) =
      sound ts ++ lexFrom blocks (.inLine e (content || ts.any fun t => t.kind.isContent)) (b :: rest) := by
  induction ts generalizing d content with
  | nil =>
    cases hclimb
    rw [List.any_nil, Bool.or_false]
    rfl
  | cons t ts ih =>
    rw [Token.climb, Option.bind_eq_some_iff] at hclimb
    obtain ⟨f, hf, hclimb⟩ := hclimb
    obtain ⟨c, cs, htext, hscan, hrest⟩ :=
      exists_scan_of_lexFrom hlex hline (Kind.not_isLayout_of_climb hf)
    have hline' : ∀ a ∈ c :: (cs ++ spelled ts), isBreak a = false := by
      rwa [Token.spelled_cons, htext] at hline
    have hscan' : Reach.scan c (cs ++ (spelled ts ++ b :: rest)) = ⟨t.kind, cs.length, none⟩ := by
      rw [← hscan, ← List.append_assoc]
      refine Lexeme.scan_append (Lexeme.isBoundary_of_isBreak hb) (by rw [hscan]) (fun _ => ⟨hb, ?_⟩) rest
      exact ne_continuation hline'
    rw [depthAfter_eq_of_climb hf] at hrest
    rw [Token.spelled_cons, List.append_assoc, lexFrom_of_scan htext (hline' c List.mem_cons_self) hscan',
      depthAfter_eq_of_climb hf, ih hrest (fun a ha => hline' a (by simp [ha])) hclimb, List.any_cons,
      Bool.or_assoc]
    rfl

/-- Blanks come first in a fresh line. -/
theorem exists_lexFrom_fresh (blocks : List Nat) (text : List Char) :
    ∃ ls, lexFrom blocks .fresh text = blanks (text.takeWhile isSpace) ++ ls := by
  rw [lexFrom]
  split
  · exact ⟨_, rfl⟩
  split
  · exact ⟨_, rfl⟩
  split
  · exact ⟨_, rfl⟩
  · exact ⟨_, List.append_assoc ..⟩

/-- A logical line: the blank lines and comment lines in front of it, how deep it is nested, its indentation
and its tokens. These make up one line, lexed by themselves have no problem, start with content and close the
brackets that they open. -/
structure Line where
  fillers : List Filler
  depth : Nat
  indentation : List Char
  tokens : List Token
  spaces : ∀ a ∈ indentation, isSpace a = true
  lexed : lex (Token.textOf tokens) = sound (tokens ++ [⟨.newline, ""⟩])
  oneLine : ∀ a ∈ spelled tokens, isBreak a = false
  balanced : Token.climb 0 tokens = some 0
  first : ∃ t ∈ tokens.head?, t.kind.isContent = true

namespace Line

/-- The column at which the line starts. -/
def column (l : Line) : Nat := columnOf l.indentation

/-- The line as it is written. -/
def text (ending : List Char) (l : Line) : List Char :=
  l.fillers.flatMap (Filler.text ending) ++ (l.indentation ++ (spelled l.tokens ++ ending))

section
variable (l : Line)

/-- The first character of the line, and the lexemes of its tokens. -/
theorem exists_cons : ∃ c cs, spelled l.tokens = c :: cs ∧ isSpace c = false ∧ isBreak c = false ∧
    (c == '#') = false ∧
    lexFrom [] (.inLine 0 false) (c :: cs) = sound l.tokens ++ [⟨⟨.newline, ""⟩, none⟩] := by
  obtain ⟨t, ht, hcontent⟩ := l.first
  obtain ⟨ts, htokens⟩ := List.head?_eq_some_iff.1 ht
  have hlexed := l.lexed
  rw [lex, Token.toList_textOf, Lexeme.sound_append] at hlexed
  -- The first lexeme is content, so it is neither a run of blanks nor a comment.
  have hhead {k : Kind} {s : String} {ls : List Lexeme} (hk : k.isContent = false)
      (h : lexFrom [] .fresh (spelled l.tokens) = ⟨⟨k, s⟩, none⟩ :: ls) : False := by
    rw [h, htokens, Lexeme.sound_cons, List.cons_append] at hlexed
    rw [← (Lexeme.mk.inj (List.cons.inj hlexed).1).1, hk] at hcontent
    cases hcontent
  cases htext : spelled l.tokens with
  | nil =>
    rw [htext, htokens, lexFrom] at hlexed
    simp [blanks, finish] at hlexed
  | cons c cs =>
    have hbreak : isBreak c = false := l.oneLine c (htext ▸ List.mem_cons_self)
    have hspace : isSpace c = false := by
      by_contra hspace
      rw [Bool.not_eq_false] at hspace
      obtain ⟨ls, hls⟩ := exists_lexFrom_fresh [] (c :: cs)
      rw [List.takeWhile_cons_of_pos hspace] at hls
      exact hhead (by rfl) (htext ▸ hls)
    have hfresh : lexFrom [] .fresh ([] ++ c :: cs) = _ := lexFrom_fresh_cons (List.forall_mem_nil _) hspace cs
    rw [List.nil_append, if_neg (by rw [hbreak]; exact Bool.false_ne_true)] at hfresh
    cases hcomment : c == '#' with
    | true =>
      rw [if_pos hcomment] at hfresh
      exact (hhead (by rfl) (htext ▸ hfresh)).elim
    | false =>
      rw [hcomment, if_neg Bool.false_ne_true] at hfresh
      rw [htext, hfresh] at hlexed
      exact ⟨c, cs, rfl, hspace, hbreak, hcomment, hlexed⟩

/-- The tokens of a line whose first token stands in a line, and the break behind them. -/
theorem lexFrom_tokens {ending : List Char} (hending : ending ∈ endings) (blocks : List Nat)
    (rest : List Char) :
    lexFrom blocks (.inLine 0 false) (spelled l.tokens ++ (ending ++ rest)) =
      sound (l.tokens ++ [⟨.newline, String.ofList ending⟩]) ++ lexFrom blocks .fresh rest := by
  obtain ⟨c, cs, htext, -, -, -, hlex⟩ := l.exists_cons
  obtain ⟨b, bs, rfl, hb, hreach⟩ := exists_break hending
  obtain ⟨t, ht, hcontent⟩ := l.first
  have hany : (l.tokens.any fun t => t.kind.isContent) = true :=
    List.any_eq_true.2 ⟨t, List.mem_of_mem_head? ht, hcontent⟩
  rw [List.cons_append, lexFrom_line (htext ▸ hlex) l.oneLine l.balanced hb, hany,
    lexFrom_inLine_cons, if_pos hb, if_pos (by rfl), (hreach .newline rest).1, (hreach .newline rest).2,
    Lexeme.sound_append, List.append_assoc]
  rfl

end

end Line

/-! ## Lines laid out -/

/-- The marks between two lines, by how deep they are nested. -/
def levels (d e : Nat) : List Token :=
  if d < e then [⟨.indent, ""⟩] else List.replicate (d - e) ⟨.dedent, ""⟩

/-- The tokens of a line behind one that is nested to a depth. -/
def Line.laidOut (ending : List Char) (d : Nat) (l : Line) : List Token :=
  l.fillers.flatMap (Filler.tokens ending) ++ (spaced l.indentation ++ (levels d l.depth ++
    (l.tokens ++ [⟨.newline, String.ofList ending⟩])))

/-- The tokens of lines behind one that is nested to a depth, and those of the fillers at the end. -/
def laidOut (ending : List Char) (fs : List Filler) : Nat → List Line → List Token
  | d, [] => fs.flatMap (Filler.tokens ending) ++ List.replicate d ⟨.dedent, ""⟩
  | d, l :: ls => l.laidOut ending d ++ laidOut ending fs l.depth ls

/-- Lines and fillers at the end as they are written. -/
def written (ending : List Char) (fs : List Filler) (ls : List Line) : List Char :=
  ls.flatMap (Line.text ending) ++ fs.flatMap (Filler.text ending)

/-- The lines fit the blocks that are open in front of them. A line is nested at most one level deeper than
the line before it, and starts at a greater column then. Otherwise it starts at the column of the block that
it goes on with. -/
inductive Placed : List Nat → List Line → Prop
  | nil {blocks : List Nat} : Placed blocks []
  | deeper {blocks : List Nat} {l : Line} {ls : List Line} (hdepth : l.depth = blocks.length + 1)
      (hcolumn : innermost blocks < l.column) (h : Placed (l.column :: blocks) ls) :
      Placed blocks (l :: ls)
  | level {inner outer : List Nat} {l : Line} {ls : List Line} (hdepth : l.depth = outer.length)
      (hcolumn : l.column = innermost outer) (h : Placed outer ls) : Placed (inner ++ outer) (l :: ls)

section
variable {ending : List Char} (hending : ending ∈ endings) {blocks : List Nat}
include hending

/-- A line behind open blocks. -/
theorem lexFrom_text (l : Line) {blocks' : List Nat}
    (hmarks : marks blocks l.column = (sound (levels blocks.length l.depth), blocks'))
    (rest : List Char) : lexFrom blocks .fresh (l.text ending ++ rest) =
      sound (l.laidOut ending blocks.length) ++ lexFrom blocks' .fresh rest := by
  obtain ⟨c, cs, htext, hspace, hbreak, hcomment, -⟩ := l.exists_cons
  have hfresh : lexFrom blocks .fresh (l.indentation ++ c :: (cs ++ (ending ++ rest))) = _ :=
    lexFrom_fresh_cons l.spaces hspace _
  rw [hbreak, if_neg Bool.false_ne_true, hcomment, if_neg Bool.false_ne_true, ← List.cons_append,
    ← htext, show columnOf l.indentation = l.column from rfl, hmarks, l.lexFrom_tokens hending,
    blanks_eq] at hfresh
  simp only [Line.text, Line.laidOut, List.append_assoc, lexFrom_fillers hending, hfresh,
    Lexeme.sound_append]

theorem lexFrom_written (hopen : Open blocks) {ls : List Line} (h : Placed blocks ls)
    (fs : List Filler) : lexFrom blocks .fresh (written ending fs ls) =
      sound (laidOut ending fs blocks.length ls) := by
  have hcons (l : Line) (ls : List Line) :
      written ending fs (l :: ls) = l.text ending ++ written ending fs ls := by
    rw [written, List.flatMap_cons, List.append_assoc, written]
  induction h with
  | @nil blocks =>
    have hend : lexFrom blocks .fresh [] = sound (List.replicate blocks.length ⟨.dedent, ""⟩) := by
      rw [lexFrom, sound, List.map_replicate]
      rfl
    rw [written, List.flatMap_nil, List.nil_append, ← List.append_nil (List.flatMap _ _),
      lexFrom_fillers hending, hend, laidOut, Lexeme.sound_append]
  | @deeper blocks l ls hdepth hcolumn h ih =>
    have hmarks : marks blocks l.column = (sound (levels blocks.length l.depth), l.column :: blocks) := by
      rw [marks_of_lt hcolumn, levels, if_pos (by omega)]
      rfl
    rw [hcons, lexFrom_text hending l hmarks, ih (hopen.cons hcolumn), List.length_cons, ← hdepth,
      laidOut, Lexeme.sound_append]
  | @level inner outer l ls hdepth hcolumn h ih =>
    have hmarks : marks (inner ++ outer) l.column =
        (sound (levels (inner ++ outer).length l.depth), outer) := by
      have hlevels : (inner ++ outer).length - outer.length = inner.length := by
        rw [List.length_append, Nat.add_sub_cancel]
      rw [hcolumn, marks_append hopen, levels, if_neg (by rw [List.length_append]; omega), hdepth,
        hlevels, sound, List.map_replicate]
      rfl
    rw [hcons, lexFrom_text hending l hmarks, ih hopen.outer, ← hdepth, laidOut, Lexeme.sound_append]

end

end Layout

/-- Lines that are laid out by their nesting are lexed without a problem as these lines, with one `indent`
in front of a line that is nested deeper, a `dedent` for every level in front of one that is nested less
deeply, no mark in front of any other, and at the end a `dedent` for every level of the last line. -/
theorem lex_written {ending : List Char} (hending : ending ∈ Layout.endings) {ls : List Layout.Line}
    (h : Layout.Placed [] ls) (fs : List Layout.Filler) :
    lex (String.ofList (Layout.written ending fs ls)) = sound (Layout.laidOut ending fs 0 ls) := by
  rw [lex, String.toList_ofList]
  exact Layout.lexFrom_written hending .nil h fs

/-- A block behind a comment line, indented by a space and a tab, and a line behind an empty one. -/
theorem lex_written_nested : ∃ (ls : List Layout.Line) (fs : List Layout.Filler),
    (['\n'] ∈ Layout.endings ∧ Layout.Placed [] ls) ∧
    String.ofList (Layout.written ['\n'] fs ls) = "if a:\n # c\n \tb\n\nd\n" ∧
    lex (String.ofList (Layout.written ['\n'] fs ls)) = sound
      [⟨.ifKw, "if"⟩, ⟨.whitespace, " "⟩, ⟨.ident, "a"⟩, ⟨.colon, ":"⟩, ⟨.newline, "\n"⟩,
       ⟨.whitespace, " "⟩, ⟨.comment, "# c"⟩, ⟨.nl, "\n"⟩,
       ⟨.whitespace, " \t"⟩, ⟨.indent, ""⟩, ⟨.ident, "b"⟩, ⟨.newline, "\n"⟩,
       ⟨.nl, "\n"⟩,
       ⟨.dedent, ""⟩, ⟨.ident, "d"⟩, ⟨.newline, "\n"⟩] := by
  have hending : ['\n'] ∈ Layout.endings := List.mem_cons_self
  let first : Layout.Line :=
    { fillers := [], depth := 0, indentation := []
      tokens := [⟨.ifKw, "if"⟩, ⟨.whitespace, " "⟩, ⟨.ident, "a"⟩, ⟨.colon, ":"⟩]
      spaces := List.forall_mem_nil _, lexed := by cbv, oneLine := by simp [isBreak], balanced := rfl
      first := ⟨_, rfl, rfl⟩ }
  let second : Layout.Line :=
    { fillers := [⟨[' '], some [' ', 'c'], by simp [isSpace], by simp [isBreak]⟩], depth := 1
      indentation := [' ', '\t'], tokens := [⟨.ident, "b"⟩]
      spaces := by simp [isSpace], lexed := by cbv, oneLine := by simp [isBreak], balanced := rfl
      first := ⟨_, rfl, rfl⟩ }
  let third : Layout.Line :=
    { fillers := [⟨[], none, List.forall_mem_nil _, by simp⟩], depth := 0, indentation := [], tokens := [⟨.ident, "d"⟩]
      spaces := List.forall_mem_nil _, lexed := by cbv, oneLine := by simp [isBreak], balanced := rfl
      first := ⟨_, rfl, rfl⟩ }
  have hthird : Layout.Placed ([8] ++ []) [third] := .level rfl rfl .nil
  have hsecond : Layout.Placed [] [second, third] := .deeper rfl (by decide +kernel) hthird
  have hplaced : Layout.Placed ([] ++ []) [first, second, third] := .level rfl rfl hsecond
  exact ⟨[first, second, third], [], ⟨hending, hplaced⟩, rfl, lex_written hending hplaced []⟩

end Renumber
