import Renumber.Proofs.Grammar.Bare
import Renumber.Proofs.Layout.Blocks
import Renumber.Proofs.Layout.Seam
import Renumber.Proofs.Layout.Step

/-!
# Lines as groups of tokens

What the layout makes of any text, with problems or without (`stream_tokensOf`). Trivia left out, the tokens are
groups: the marks of a line, its content and its end (`Token.Grouped`). No more blocks are closed than have been
opened, and in the end as many. At every step the columns of the open blocks increase from 0 on. A line break
ends a line only outside brackets, and a line ends without one only where the text does.

A state of the scan inside a line knows whether the line has content; what it still gives fits that
(`Token.Rest`), and this is kept from the last step back to the first.
-/

namespace Renumber

open Text (isBreak)

/-! ## Groups -/

namespace Token

/-- The marks in front of the content of a line: one block opens, or any number of them close. -/
inductive Shift : List Token → Prop
  | opens : Shift [⟨.indent, ""⟩]
  | closes (n : Nat) : Shift (List.replicate n ⟨.dedent, ""⟩)

/-- Tokens that form lines: each has its marks, its content and its end. Behind the last line there may be the
marks of one that has no content, and then blocks close. -/
inductive Grouped : List Token → Prop
  | stop {ms : List Token} (hms : Shift ms) (n : Nat) : Grouped (ms ++ List.replicate n ⟨.dedent, ""⟩)
  | line {ms cs ts : List Token} {t : Token} (hms : Shift ms) (hne : cs ≠ [])
      (hcs : ∀ c ∈ cs, c.kind.isContent = true) (ht : t.kind = .newline) (h : Grouped ts) :
      Grouped (ms ++ (cs ++ t :: ts))

/-- Tokens that go on with a line behind its marks. If it has no content yet, it gets some, or nothing but
closed blocks comes behind it. -/
inductive Rest : Bool → List Token → Prop
  | stop (n : Nat) : Rest false (List.replicate n ⟨.dedent, ""⟩)
  | line {content : Bool} {cs ts : List Token} {t : Token} (hne : content = true ∨ cs ≠ [])
      (hcs : ∀ c ∈ cs, c.kind.isContent = true) (ht : t.kind = .newline) (h : Grouped ts) :
      Rest content (cs ++ t :: ts)

theorem Grouped.dedents (n : Nat) : Grouped (List.replicate n ⟨.dedent, ""⟩) := .stop (.closes 0) n

/-- A line is its marks and what goes on behind them. -/
theorem Rest.grouped {ms ts : List Token} (h : Rest false ts) (hms : Shift ms) : Grouped (ms ++ ts) := by
  cases h with
  | stop n => exact .stop hms n
  | line hne hcs ht h => exact .line hms (hne.resolve_left Bool.false_ne_true) hcs ht h

/-- One more token of content in front of a line that has content. -/
theorem Rest.cons {t : Token} {ts : List Token} (h : Rest true ts) (ht : t.kind.isContent = true)
    (content : Bool) : Rest content (t :: ts) := by
  cases h with
  | @line _ cs ts u _ hcs hu h =>
    rw [← List.cons_append]
    exact .line (.inr (List.cons_ne_nil t cs)) (List.forall_mem_cons.2 ⟨ht, hcs⟩) hu h

/-- Blocks opened and closed among some tokens, and those that are open in front of them and behind them. -/
theorem nest_count {ts : List Token} {d e : Nat} (h : nest d ts = some e) :
    d + ts.countP (fun t => t.kind == .indent) = e + ts.countP (fun t => t.kind == .dedent) := by
  induction ts generalizing d with
  | nil =>
    cases h
    rfl
  | cons t ts ih =>
    rw [nest_cons, Option.bind_eq_some_iff] at h
    obtain ⟨f, hf, h⟩ := h
    have := ih h
    rw [List.countP_cons, List.countP_cons]
    unfold Kind.nest at hf
    split at hf <;> rename_i hindent
    · cases hf
      simp only [hindent, beq_self_eq_true, ↓reduceIte, show (Kind.indent == .dedent) = false from rfl,
        Bool.false_eq_true]
      omega
    split at hf <;> rename_i hdedent
    · split at hf
      · cases hf
      · cases hf
        simp only [hdedent, beq_self_eq_true, ↓reduceIte, show (Kind.dedent == .indent) = false from rfl,
          Bool.false_eq_true]
        omega
    · cases hf
      simp only [beq_eq_false_iff_ne.2 hindent, beq_eq_false_iff_ne.2 hdedent, Bool.false_eq_true,
        ↓reduceIte]
      omega

end Token

namespace Layout

/-! ## Brackets -/

theorem depthAfter_of_not_isContent {k : Kind} (h : k.isContent = false) (d : Nat) :
    depthAfter d k = d := by
  revert h
  cases k <;> first | exact fun _ => rfl | exact fun h => (Bool.false_ne_true h.symm).elim

theorem depthPast_of_no_content {ts : List Token} (h : ∀ t ∈ ts, t.kind.isContent = false) (d : Nat) :
    depthPast d ts = d := by
  induction ts with
  | nil => rfl
  | cons t ts ih =>
    rw [depthPast_cons, depthAfter_of_not_isContent (h t List.mem_cons_self)]
    exact ih fun u hu => h u (List.mem_cons_of_mem t hu)

theorem not_isContent_of_mem_blanks {cs : List Char} : ∀ l ∈ blanks cs, l.token.kind.isContent = false := by
  intro l hl
  rw [(mem_blanks hl).2]
  rfl

theorem not_isContent_of_mem_marks {blocks : List Nat} {column : Nat} :
    ∀ l ∈ (marks blocks column).1, l.token.kind.isContent = false := by
  intro l hl
  obtain ⟨k, p, rfl, rfl | rfl⟩ := mem_marks hl <;> rfl

theorem not_isContent_of_mem_finish {blocks : List Nat} {content : Bool} :
    ∀ l ∈ finish blocks content, l.token.kind.isContent = false := by
  intro l hl
  rcases mem_finish hl with rfl | rfl <;> rfl

section
variable {s s' : State} {ls : List Lexeme}

/-- The scan counts the brackets of the tokens that it gives. -/
theorem Step.depth_eq (h : Step s ls s') :
    depthPast s.mode.depth (ls.map Lexeme.token) = s'.mode.depth := by
  have hplain {ls : List Lexeme} (hls : ∀ l ∈ ls, l.token.kind.isContent = false) (d : Nat) :
      depthPast d (ls.map Lexeme.token) = d :=
    depthPast_of_no_content (List.forall_mem_map.2 hls) d
  cases h with
  | blank | comment =>
    refine hplain (List.forall_mem_append.2 ⟨not_isContent_of_mem_blanks, ?_⟩) 0
    exact List.forall_mem_singleton.2 rfl
  | measure =>
    exact hplain (List.forall_mem_append.2 ⟨not_isContent_of_mem_blanks, not_isContent_of_mem_marks⟩) 0
  | lineEnd | lineBreak | token => rfl

theorem Reached.depth_eq (h : Reached s ls s') :
    depthPast s.mode.depth (ls.map Lexeme.token) = s'.mode.depth := by
  induction h with
  | start => rfl
  | step _ hstep ih => rw [List.map_append, depthPast_append, ih, hstep.depth_eq]

/-- What is given without content leaves the brackets as they are. -/
theorem Reached.depthPast_append (h : Reached s ls s') {ms ks : List Lexeme} (hms : ms <+: ks)
    (hks : ∀ m ∈ ks, m.token.kind.isContent = false) :
    depthPast s.mode.depth ((ls ++ ms).map Lexeme.token) = s'.mode.depth := by
  rw [List.map_append, Layout.depthPast_append, h.depth_eq]
  exact depthPast_of_no_content (List.forall_mem_map.2 fun m hm => hks m (hms.subset hm)) _

/-! ## Columns -/

/-- The columns of the open blocks from the outermost on, which is at column 0 and never closes. -/
def State.columns (s : State) : List Nat := 0 :: s.blocks.reverse

theorem pairwise_columns (hs : Open s.blocks) : s.columns.Pairwise (· < ·) := by
  have := List.pairwise_reverse.2 hs
  rwa [List.reverse_append] at this

/-! ## The groups of a text -/

/-- What the scan gives from a state on fits the line in which it stands. -/
def State.Fits (s : State) : Prop :=
  match s.mode with
  | .fresh => Token.Grouped (Token.significant (s.lexemes.map Lexeme.token))
  | .inLine _ content => Token.Rest content (Token.significant (s.lexemes.map Lexeme.token))

theorem shift_marks (blocks : List Nat) (column : Nat) :
    Token.Shift ((marks blocks column).1.map Lexeme.token) := by
  unfold marks
  split
  · exact .opens
  · rw [map_token_dedents]
    exact .closes _

/-- A step fits if what comes behind it does. -/
theorem Step.fits (h : Step s ls s') (hs' : s'.Fits) : s.Fits := by
  have hlexemes := h.lexemes_eq
  have hblanks (cs : List Char) : Token.significant ((blanks cs).map Lexeme.token) = [] := by
    cases cs <;> rfl
  have hshift {ms : List Token} (hms : Token.Shift ms) : Token.significant ms = ms := by
    refine List.filter_eq_self.2 fun m hm => ?_
    cases hms with
    | opens => rw [List.mem_singleton.1 hm]; rfl
    | closes n => rw [(List.mem_replicate.1 hm).2]; rfl
  -- The tokens of the step come in front of those behind it.
  have hsplit : Token.significant (s.lexemes.map Lexeme.token) =
      Token.significant (ls.map Lexeme.token) ++ Token.significant (s'.lexemes.map Lexeme.token) := by
    rw [hlexemes, List.map_append, Token.significant_append]
  cases h with
  | blank | comment =>
    unfold State.Fits
    rw [hsplit, List.map_append, Token.significant_append, hblanks]
    exact hs'
  | @measure blocks indentation =>
    unfold State.Fits
    rw [hsplit, List.map_append, Token.significant_append, hblanks, List.nil_append,
      hshift (shift_marks blocks (columnOf indentation))]
    exact hs'.grouped (shift_marks blocks (columnOf indentation))
  | lineEnd =>
    unfold State.Fits
    rw [hsplit]
    exact .line (.inl rfl) (List.forall_mem_nil _) rfl hs'
  | lineBreak =>
    unfold State.Fits
    rw [hsplit]
    exact hs'
  | @token blocks depth content c cs hc =>
    unfold State.Fits at hs' ⊢
    rw [hsplit]
    have hscanned := isScanned_scan c cs
    cases htriv : (Reach.scan c cs).kind.isTrivia with
    | true =>
      have hcontent : (Reach.scan c cs).kind.isContent = false := by rw [Kind.isContent, htriv]; rfl
      rw [List.map_singleton, Token.significant_of_trivia (List.forall_mem_singleton.2 htriv),
        List.nil_append]
      simpa only [hcontent, Bool.or_false] using hs'
    | false =>
      have hcontent : (Reach.scan c cs).kind.isContent = true := by
        simp only [Kind.isScanned, Bool.and_eq_true] at hscanned
        rw [Kind.isContent, htriv, hscanned.1.2]
        rfl
      simp only [hcontent, Bool.or_true] at hs' ⊢
      rw [List.map_singleton, Token.significant_cons_of_not_trivia (t := (Reach.taken _ c cs).token) htriv]
      exact hs'.cons (t := (Reach.taken _ c cs).token) hcontent content

theorem Stops.fits (h : Stops s ls) : s.Fits := by
  have hlexemes := h.lexemes_eq
  have hfinish (blocks : List Nat) : Token.significant
      ((List.replicate blocks.length (Lexeme.mark .dedent none)).map Lexeme.token) =
        List.replicate blocks.length ⟨.dedent, ""⟩ := by
    rw [List.map_replicate]
    exact List.filter_replicate_of_pos rfl
  cases h with
  | @fresh blocks indentation =>
    have hblanks : Token.significant ((blanks indentation).map Lexeme.token) = [] := by
      cases indentation <;> rfl
    unfold State.Fits
    rw [hlexemes, List.map_append, Token.significant_append, hblanks]
    exact hfinish blocks ▸ .dedents _
  | @inLine blocks depth content =>
    unfold State.Fits
    rw [hlexemes]
    cases content with
    | false => exact hfinish blocks ▸ .stop _
    | true =>
      have h := hfinish blocks ▸ Token.Grouped.dedents blocks.length
      exact .line (.inl rfl) (List.forall_mem_nil _) rfl h

theorem State.fits (s : State) : s.Fits :=
  s.induction (fun _ _ h => h.fits) fun _ _ _ h => h.fits

/-- The scan gets to the end of every text. -/
theorem State.exists_stops (s : State) :
    ∃ ls s' ms, Reached s ls s' ∧ Stops s' ms ∧ s.lexemes = ls ++ ms := by
  induction s using State.induction with
  | hstops s ms h => exact ⟨[], s, ms, .start, h, h.lexemes_eq⟩
  | hstep s ls s' h ih =>
    obtain ⟨ks, s'', ms, hreached, hstops, hlexemes⟩ := ih
    exact ⟨ls ++ ks, s'', ms, .head h hreached, hstops, by rw [h.lexemes_eq, hlexemes, List.append_assoc]⟩

/-! ## Marks and ends of lines -/

/-- Where the layout gives a mark or the end of a line: outside brackets, a line ends with a break there, or where
the text ends, and then nothing but closed blocks comes behind. -/
theorem layout_given {as bs : List Lexeme} {l : Lexeme} (h : s.lexemes = as ++ l :: bs)
    (hl : l.token.kind.isLayout = true) :
    (l.token.kind = .newline → l.token.text ≠ "") ∧ depthPast s.mode.depth (as.map Lexeme.token) = 0 ∨
      l.token.text = "" ∧ ∃ n, bs = List.replicate n (.mark .dedent none) := by
  have hblanks {cs : List Char} : l ∉ blanks cs := by
    intro hmem
    obtain ⟨-, rfl⟩ := mem_blanks hmem
    cases hl
  obtain ⟨ls, s', ms, ns, hreached, rfl, ⟨s'', hstep, -⟩ | ⟨hstops, rfl⟩⟩ := exists_given h
  · left
    generalize hks : ms ++ l :: ns = ks at hstep
    have hmem : l ∈ ks := by rw [← hks]; simp
    have hms : ms <+: ks := ⟨_, hks⟩
    cases hstep with
    | blank | comment =>
      rcases List.mem_append.1 hmem with hmem | hmem
      · exact (hblanks hmem).elim
      · rw [List.mem_singleton.1 hmem] at hl
        cases hl
    | measure =>
      have hmark := (List.mem_append.1 hmem).resolve_left hblanks
      refine ⟨fun hnewline => ?_, hreached.depthPast_append hms fun m hm =>
        (List.mem_append.1 hm).elim (not_isContent_of_mem_blanks m) (not_isContent_of_mem_marks m)⟩
      obtain ⟨k, p, rfl, rfl | rfl⟩ := mem_marks hmark <;> cases hnewline
    | lineEnd hc =>
      obtain ⟨rfl, rfl⟩ := singleton_cut hks
      rw [List.append_nil]
      exact ⟨fun _ => text_taken_ne _ _ _, hreached.depth_eq⟩
    | lineBreak =>
      rw [List.mem_singleton.1 hmem] at hl
      cases hl
    | @token _ _ _ c cs =>
      have hscanned := isScanned_scan c cs
      simp only [Kind.isScanned, Bool.and_eq_true, Bool.not_eq_true'] at hscanned
      rw [List.mem_singleton.1 hmem] at hl
      exact (Bool.false_ne_true (hscanned.1.2.symm.trans hl)).elim
  · generalize hks : ms ++ l :: bs = ks at hstops
    have hmem : l ∈ ks := by rw [← hks]; simp
    have hms : ms <+: ks := ⟨_, hks⟩
    cases hstops with
    | fresh =>
      left
      have hmark := (List.mem_append.1 hmem).resolve_left hblanks
      refine ⟨fun hnewline => ?_, hreached.depthPast_append hms fun m hm =>
        (List.mem_append.1 hm).elim (not_isContent_of_mem_blanks m) (not_isContent_of_mem_finish m)⟩
      rw [(List.mem_replicate.1 hmark).2] at hnewline
      cases hnewline
    | @inLine blocks depth content =>
      right
      have htext : l.token.text = "" := by
        rcases mem_finish hmem with rfl | rfl <;> rfl
      -- The end of the line comes before the closed blocks.
      have hbs : bs <:+ List.replicate blocks.length (Lexeme.mark .dedent none) := by
        cases content with
        | false => exact ⟨ms ++ [l], by simpa [finish] using hks⟩
        | true =>
          cases ms with
          | nil => exact ⟨[], (List.cons.inj hks).2⟩
          | cons m ms => exact ⟨ms ++ [l], by simpa [finish] using (List.cons.inj hks).2⟩
      exact ⟨htext, bs.length, List.eq_replicate_iff.2 ⟨rfl, fun m hm =>
        (List.mem_replicate.1 (hbs.subset hm)).2⟩⟩

end

end Layout

/-- Nothing is counted twice when nothing behind what is counted is. -/
theorem countP_le_one {α : Type} {p : α → Bool} {xs : List α}
    (h : ∀ as x bs, xs = as ++ x :: bs → p x = true → ∀ y ∈ bs, p y = false) : xs.countP p ≤ 1 := by
  induction xs with
  | nil => exact Nat.zero_le 1
  | cons x xs ih =>
    cases hx : p x with
    | true =>
      have hxs : xs.countP p = 0 := List.countP_eq_zero.2 fun y hy => by simp [h [] x xs rfl hx y hy]
      rw [List.countP_cons_of_pos hx, hxs]
    | false =>
      rw [List.countP_cons_of_neg (by simp [hx])]
      exact ih fun as y bs heq => h (x :: as) y bs (congrArg (x :: ·) heq)

/-- Any source, with problems or without: trivia left out, its tokens are groups. No more blocks are closed than
have been opened, and in the end as many. The scan gets to the end; wherever it comes, the columns of the open
blocks increase from 0 on, and it knows how many brackets its tokens have left open. None are where a line break
ends a line. A line ends without a break only where nothing but closed blocks comes behind it, so only once. -/
theorem stream_tokensOf (source : String) :
    Token.Grouped (Token.significant (tokensOf source)) ∧
    ((∀ ts, ts <+: tokensOf source →
        ts.countP (fun t => t.kind == .dedent) ≤ ts.countP (fun t => t.kind == .indent)) ∧
      (tokensOf source).countP (fun t => t.kind == .dedent) =
        (tokensOf source).countP (fun t => t.kind == .indent)) ∧
    ((∃ ls s ms, Layout.Reached (.start source) ls s ∧ Layout.Stops s ms ∧ lex source = ls ++ ms) ∧
      ∀ ls s, Layout.Reached (.start source) ls s →
        lex source = ls ++ s.lexemes ∧ s.columns.Pairwise (· < ·) ∧
          s.mode.depth = Layout.depthPast 0 (ls.map Lexeme.token)) ∧
    (∀ as t bs, tokensOf source = as ++ t :: bs → t.kind = .newline →
      t.text ≠ "" ∧ Layout.depthPast 0 as = 0 ∨
        t.text = "" ∧ ∃ n, bs = List.replicate n ⟨.dedent, ""⟩) ∧
    (tokensOf source).countP (fun t => t.kind == .newline && t.text == "") ≤ 1 := by
  have hnest : Token.nest 0 (tokensOf source) = some 0 := Layout.nest_lexFrom [] .fresh source.toList
  have hends {as bs : List Token} {t : Token} (h : tokensOf source = as ++ t :: bs)
      (ht : t.kind = .newline) :
      t.text ≠ "" ∧ Layout.depthPast 0 as = 0 ∨ t.text = "" ∧ ∃ n, bs = List.replicate n ⟨.dedent, ""⟩ := by
    obtain ⟨ls, ms, hlex, rfl, hms⟩ := List.map_eq_append_iff.1 h
    obtain ⟨l, ns, rfl, rfl, rfl⟩ := List.map_eq_cons_iff.1 hms
    refine (Layout.layout_given (s := .start source) hlex (by rw [ht]; rfl)).imp
      (fun h => ⟨h.1 ht, h.2⟩) ?_
    rintro ⟨htext, n, rfl⟩
    exact ⟨htext, n, List.map_replicate⟩
  refine ⟨(Layout.State.start source).fits, ⟨fun ts hts => ?_, ?_⟩,
    ⟨(Layout.State.start source).exists_stops, fun ls s h => ?_⟩, fun as t bs => hends, ?_⟩
  · obtain ⟨us, hus⟩ := hts
    rw [← hus, Token.nest_append, Option.bind_eq_some_iff] at hnest
    obtain ⟨d, hd, -⟩ := hnest
    have := Token.nest_count hd
    omega
  · have := Token.nest_count hnest
    omega
  · exact ⟨h.lexemes_eq, Layout.pairwise_columns (h.blocks_open .nil), h.depth_eq.symm⟩
  · -- Behind a line that ends without a break there are closed blocks only, so no other one is like it.
    refine countP_le_one fun as t bs h ht u hu => ?_
    rw [Bool.and_eq_true, beq_iff_eq, beq_iff_eq] at ht
    obtain ⟨hne, -⟩ | ⟨-, n, rfl⟩ := hends h ht.1
    · exact absurd ht.2 hne
    · rw [(List.mem_replicate.1 hu).2]
      rfl

/-- The text ends inside a line of a block. -/
theorem stream_tokensOf_block :
    let as : List Token := [⟨.ifKw, "if"⟩, ⟨.whitespace, " "⟩, ⟨.ident, "a"⟩, ⟨.colon, ":"⟩, ⟨.newline, "\n"⟩,
      ⟨.whitespace, " "⟩, ⟨.indent, ""⟩, ⟨.ident, "b"⟩]
    let s : Layout.State := ⟨[], .inLine 0 false, "if a:\n b".toList⟩
    (as <+: tokensOf "if a:\n b" ∧
      as.countP (fun t => t.kind == .dedent) ≤ as.countP (fun t => t.kind == .indent)) ∧
    (Layout.Reached (.start "if a:\n b") [] s ∧ lex "if a:\n b" = [] ++ s.lexemes) ∧
    tokensOf "if a:\n b" = as ++ ⟨.newline, ""⟩ :: [⟨.dedent, ""⟩] ∧
      ∃ n, [⟨.dedent, ""⟩] = List.replicate n (⟨.dedent, ""⟩ : Token) := by
  have hlex : lex "if a:\n b" = Lexeme.sound [⟨.ifKw, "if"⟩, ⟨.whitespace, " "⟩, ⟨.ident, "a"⟩, ⟨.colon, ":"⟩,
      ⟨.newline, "\n"⟩, ⟨.whitespace, " "⟩, ⟨.indent, ""⟩, ⟨.ident, "b"⟩, ⟨.newline, ""⟩,
      ⟨.dedent, ""⟩] := by cbv
  intro as s
  have htokens : tokensOf "if a:\n b" = as ++ ⟨.newline, ""⟩ :: [⟨.dedent, ""⟩] := tokensOf_of_lex hlex
  have hreached : Layout.Reached (.start "if a:\n b") [] s :=
    .step .start (@Layout.Step.measure [] [] _ _ (List.forall_mem_nil _) rfl rfl (by decide))
  obtain ⟨-, ⟨hnested, -⟩, ⟨-, hstates⟩, hends, -⟩ := stream_tokensOf "if a:\n b"
  have has : as <+: tokensOf "if a:\n b" := ⟨_, htokens.symm⟩
  exact ⟨⟨has, hnested as has⟩, ⟨hreached, (hstates _ _ hreached).1⟩, htokens,
    ((hends _ _ _ htokens rfl).resolve_left fun h => h.1 rfl).2⟩

end Renumber
