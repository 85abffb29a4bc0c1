import Renumber.Proofs.Layout.Lines
import Renumber.Proofs.Layout.Step

/-!
# Two texts, one behind the other

A text that ends with a logical line stays what it is when another text follows it, but for the blocks that
are open at its end: these are closed only where the other text has its first content, behind the comments and
blank lines that it starts with (`exists_lex_append`). That the other text starts at the left margin is what
makes them close there.
-/

namespace Renumber

open Text (isBreak)
open Grammar (nextKind nextKind_congr)
open Lexeme (isSpace)

namespace Layout

/-! ## Behind a line -/

variable {s s' : State} {ls : List Lexeme}

theorem Open.marks {blocks : List Nat} (h : Open blocks) (column : Nat) : Open (marks blocks column).2 := by
  unfold Layout.marks
  split
  · rename_i hlt
    exact h.cons hlt
  · rw [← List.takeWhile_append_dropWhile (p := (column < ·)) (l := blocks)] at h
    exact h.outer

theorem Step.blocks_open (h : Step s ls s') (hs : Open s.blocks) : Open s'.blocks := by
  cases h with
  | measure => exact hs.marks _
  | _ => exact hs

/-- The columns of the open blocks increase from the outermost to the innermost at every step. -/
theorem Reached.blocks_open (h : Reached s ls s') (hs : Open s.blocks) : Open s'.blocks := by
  induction h with
  | start => exact hs
  | step _ hstep ih => exact hstep.blocks_open ih

/-- The break that ends a logical line is given by itself, and leads to a fresh line. -/
theorem Step.of_newline (h : Step s ls s') {l : Lexeme} (hmem : l ∈ ls)
    (hl : l.token.kind = .newline) : ls = [l] ∧ ∃ blocks c cs, isBreak c = true ∧
      s = ⟨blocks, .inLine 0 true, c :: cs⟩ ∧
      l = Reach.taken ⟨.newline, Lexeme.breakMore c cs, none⟩ c cs ∧
      s' = ⟨blocks, .fresh, Reach.left ⟨.newline, Lexeme.breakMore c cs, none⟩ cs⟩ := by
  have hblanks {cs : List Char} : l ∉ blanks cs := by
    intro hmem
    obtain ⟨-, rfl⟩ := mem_blanks hmem
    cases hl
  have hother {r : Reach} {c : Char} {cs : List Char} (hr : r.kind ≠ .newline) : l ∉ [r.taken c cs] := by
    intro hmem
    rw [List.mem_singleton.1 hmem] at hl
    exact hr hl
  cases h with
  | blank | comment => exact ((List.mem_append.1 hmem).elim hblanks (hother Kind.noConfusion)).elim
  | measure =>
    obtain ⟨k, p, rfl, rfl | rfl⟩ := mem_marks ((List.mem_append.1 hmem).resolve_left hblanks) <;>
      cases hl
  | @lineEnd blocks c cs hc =>
    obtain rfl := List.mem_singleton.1 hmem
    exact ⟨rfl, blocks, c, cs, hc, rfl, rfl, rfl⟩
  | lineBreak => exact (hother Kind.noConfusion hmem).elim
  | @token _ _ _ c cs =>
    refine (hother (fun hk => ?_) hmem).elim
    have hscanned := isScanned_scan c cs
    rw [hk] at hscanned
    cases hscanned

/-- Whatever follows a logical line, the text up to its end has the same lexemes, but for the marks that close
the blocks. What follows is lexed from a fresh line on. -/
theorem exists_lexFrom_append {blocks : List Nat} {mode : Mode} {text : List Char} (hopen : Open blocks)
    (as : List Lexeme) {bs : List Lexeme} {l : Lexeme} (h : lexFrom blocks mode text = as ++ l :: bs)
    (hl : l.token.kind = .newline) (hline : l.token.text.toList.getLast? = some '\n')
    (hend : covered bs = []) :
    ∃ blocks', Open blocks' ∧ bs = finish blocks' false ∧
      ∀ ws, lexFrom blocks mode (text ++ ws) = as ++ l :: lexFrom blocks' .fresh ws := by
  have hgiven : State.lexemes ⟨blocks, mode, text⟩ = as ++ l :: bs := h
  obtain ⟨ls, s', ms, ns, hreached, rfl, ⟨s'', hstep, rfl⟩ | ⟨hstops, -⟩⟩ := exists_given hgiven
  · obtain ⟨hone, blocks', c, cs, hc, rfl, rfl, rfl⟩ :=
      hstep.of_newline (List.mem_append_right ms List.mem_cons_self) hl
    obtain ⟨rfl, -⟩ := singleton_cut hone
    obtain rfl := (List.cons.inj hone).2
    -- Nothing is left behind the break, so it is the end of the text.
    rw [List.nil_append, State.lexemes, covered_lexFrom] at hend
    have hmore : Lexeme.breakMore c cs = cs.length :=
      Nat.le_antisymm (Lexeme.breakMore_le c cs) (by simpa [Reach.left] using hend)
    rw [hmore] at hline hend ⊢
    rw [Reach.taken, String.toList_ofList, List.take_length] at hline
    have hbreak (ws : List Char) : Lexeme.breakMore c (cs ++ ws) = cs.length := by
      cases cs with
      | nil =>
        obtain rfl : c = '\n' := Option.some.inj hline
        rfl
      | cons => exact hmore
    obtain ⟨us, hus⟩ := List.getLast?_eq_some_iff.1 hline
    refine ⟨blocks', hreached.blocks_open hopen, ?_, fun ws => ?_⟩
    · rw [List.nil_append, State.lexemes, hend, lexFrom]
      rfl
    · have htext : text ++ ws = covered ls ++ (us ++ '\n' :: ws) := by
        rw [show text = covered ls ++ (c :: cs) from hreached.text_eq, hus, List.append_assoc,
          List.append_assoc, List.singleton_append]
      have hbehind : us ++ '\n' :: ws = c :: (cs ++ ws) := by
        rw [← List.cons_append, hus, List.append_assoc, List.singleton_append]
      have hlast := (@Step.lineEnd blocks' c (cs ++ ws) hc).lexemes_eq
      rw [hbreak, Reach.taken, List.take_left, Reach.left, List.drop_left, ← hbehind] at hlast
      rw [htext, List.append_nil, Reach.taken, List.take_length]
      exact (hreached.beyond (by decide) (by decide) hus ws).lexemes_eq.trans
        (congrArg (ls ++ ·) hlast)
  · rcases hstops.eq_of_mem (List.mem_append_right ms List.mem_cons_self) with ⟨cs, rfl⟩ | rfl | rfl
    · cases hl
    · cases hline
    · cases hline

section
variable {blocks : List Nat}

/-- What is lexed from a fresh line on while blocks are open, when its first content is at the left margin:
the blocks are closed in front of that content. -/
theorem exists_lexFrom_open (hopen : Open blocks) (text : List Char)
    (hmargin : nextKind ((lexFrom [] .fresh text).map Lexeme.token) ≠ .indent) :
    ∃ ws ls, (∀ w ∈ ws, w.token.kind.isTrivia = true) ∧ lexFrom [] .fresh text = ws ++ ls ∧
      lexFrom blocks .fresh text = ws ++ (finish blocks false ++ ls) := by
  have hblanks {cs : List Char} : ∀ w ∈ blanks cs, w.token.kind.isTrivia = true := by
    intro w hw
    obtain ⟨-, rfl⟩ := mem_blanks hw
    rfl
  have hpeel {ws ls : List Lexeme} (hws : ∀ w ∈ ws, w.token.kind.isTrivia = true)
      (h : nextKind ((ws ++ ls).map Lexeme.token) ≠ .indent) :
      nextKind (ls.map Lexeme.token) ≠ .indent := by
    rwa [List.map_append, nextKind_congr (Grammar.upcoming_append_of_trivia
      (List.forall_mem_map.2 hws) _)] at h
  induction hn : text.length using Nat.strong_induction_on generalizing text with
  | h n ih =>
    cases hd : text.dropWhile isSpace with
    | nil =>
      refine ⟨blanks (text.takeWhile isSpace), [], hblanks, ?_, ?_⟩
      · rw [lexFrom_fresh_of_blank hd]
        rfl
      · rw [lexFrom_fresh_of_blank hd, List.append_nil]
    | cons c cs =>
      have hcons (blocks : List Nat) :=
        @lexFrom_fresh_cons blocks (text.takeWhile isSpace) isSpace_of_mem_takeWhile c
          (not_isSpace_of_dropWhile hd) cs
      rw [← hd, List.takeWhile_append_dropWhile] at hcons
      have hlength : cs.length < n := by
        have := (List.dropWhile_sublist (p := isSpace) (l := text)).length_le
        rw [hd, List.length_cons] at this
        omega
      -- Behind a line without content the next one is fresh, too.
      have hline {r : Reach} (hr : r.kind.isTrivia = true)
          (hlex : ∀ blocks, lexFrom blocks .fresh text = blanks (text.takeWhile isSpace) ++
            r.taken c cs :: lexFrom blocks .fresh (r.left cs)) :
          ∃ ws ls, (∀ w ∈ ws, w.token.kind.isTrivia = true) ∧ lexFrom [] .fresh text = ws ++ ls ∧
            lexFrom blocks .fresh text = ws ++ (finish blocks false ++ ls) := by
        have htrivia : ∀ w ∈ blanks (text.takeWhile isSpace) ++ [r.taken c cs],
            w.token.kind.isTrivia = true := by
          intro w hw
          rcases List.mem_append.1 hw with hw | hw
          · exact hblanks w hw
          · rw [List.mem_singleton.1 hw]
            exact hr
        rw [hlex, List.append_cons] at hmargin
        have hlt : (r.left cs).length < n := by
          rw [Reach.left, List.length_drop]
          omega
        obtain ⟨ws, ls, hws, h₁, h₂⟩ := ih _ hlt (r.left cs) (hpeel htrivia hmargin) rfl
        refine ⟨blanks (text.takeWhile isSpace) ++ [r.taken c cs] ++ ws, ls, fun w hw => ?_, ?_, ?_⟩
        · exact (List.mem_append.1 hw).elim (htrivia w) (hws w)
        · rw [hlex, h₁]
          simp
        · rw [hlex, h₂]
          simp
      by_cases hb : isBreak c = true
      · exact hline (r := ⟨.nl, _, none⟩) rfl fun blocks => by rw [hcons, if_pos hb]
      by_cases hc : (c == '#') = true
      · exact hline (r := ⟨.comment, _, none⟩) rfl fun blocks => by rw [hcons, if_neg hb, if_pos hc]
      simp only [if_neg hb, if_neg hc] at hcons
      -- The first content opens no block, so it stands at the left margin and closes all that are open.
      have hcolumn : columnOf (text.takeWhile isSpace) = 0 := by
        by_contra hne
        have hmarks := marks_of_lt (show innermost [] < columnOf (text.takeWhile isSpace) from
          Nat.pos_of_ne_zero hne)
        rw [hcons, hmarks] at hmargin
        exact hpeel hblanks hmargin rfl
      have hmarks {blocks : List Nat} (h : Open blocks) :
          marks blocks 0 = (finish blocks false, []) := by
        have := marks_append (show Open (blocks ++ []) by rwa [List.append_nil])
        rwa [List.append_nil] at this
      refine ⟨blanks (text.takeWhile isSpace),
        lexFrom [] (.inLine 0 false) (text.dropWhile isSpace), hblanks, ?_, ?_⟩
      · rw [hcons, hcolumn, hmarks .nil]
        rfl
      · rw [hcons, hcolumn, hmarks hopen]

end

end Layout

/-- The text ends with the line feed of a logical line. -/
def EndsLine (source : String) : Prop :=
  ∃ us t vs, tokensOf source = us ++ t :: vs ∧ t.kind = .newline ∧
    t.text.toList.getLast? = some '\n' ∧ Token.textOf vs = ""

/-- The lexemes of two texts, one behind the other: the blocks that the first one leaves open are closed behind
the trivia that the second one starts with. -/
theorem exists_lex_append {a b : String} (ha : EndsLine a) (hb : nextKind (tokensOf b) ≠ .indent) :
    ∃ as l n ws ls, l.token.kind = .newline ∧ (∀ w ∈ ws, w.token.kind.isTrivia = true) ∧
      lex a = as ++ l :: List.replicate n (.mark .dedent none) ∧ lex b = ws ++ ls ∧
      lex (a ++ b) = as ++ l :: (ws ++ (List.replicate n (.mark .dedent none) ++ ls)) := by
  obtain ⟨us, t, vs, htokens, hkind, hline, htext⟩ := ha
  obtain ⟨as, ls', hlex, rfl, hls'⟩ := List.map_eq_append_iff.1 htokens
  obtain ⟨l, bs, rfl, rfl, rfl⟩ := List.map_eq_cons_iff.1 hls'
  have hend : Layout.covered bs = [] := by
    have := Token.toList_textOf (bs.map Lexeme.token)
    rw [htext, Token.spelled, List.flatMap_map] at this
    exact this.symm
  obtain ⟨blocks, hopen, rfl, happend⟩ :=
    Layout.exists_lexFrom_append .nil as hlex hkind hline hend
  obtain ⟨ws, ls, hws, hlexb, hopenb⟩ := Layout.exists_lexFrom_open hopen b.toList hb
  refine ⟨as, l, blocks.length, ws, ls, hkind, hws, hlex, hlexb, ?_⟩
  rw [lex, String.toList_append, happend, hopenb]
  rfl

end Renumber
