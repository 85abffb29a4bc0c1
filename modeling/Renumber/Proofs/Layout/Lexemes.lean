import Mathlib
import Renumber.Layout

/-!
# What lexemes there are

The kinds that a scan gives are those of words, literals, operators and blanks (`isScanned_scan`); line
breaks and the marks of blocks come from the layout alone. Every lexeme of a text has a kind of one of
the two sorts (`isLexed_of_mem_lexFrom`), so none of them looks like the end of the text. A lexeme
covers at least a character unless it is a mark (`mark_of_lexFrom`).
-/

namespace Renumber

open Text (isBreak)

/-- The kinds of what is scanned inside a line. -/
def Kind.isScanned (k : Kind) : Bool :=
  k.raw ≤ errorToken.raw && !k.isLayout && k != .nl

/-- The kinds of lexemes. -/
def Kind.isLexed (k : Kind) : Bool := k.raw ≤ errorToken.raw

theorem Kind.isLexed_of_isScanned {k : Kind} (h : k.isScanned = true) : k.isLexed = true := by
  simp only [isScanned, Bool.and_eq_true] at h
  exact h.1.1

theorem Kind.ne_eof_of_isLexed {k : Kind} (h : k.isLexed = true) : k ≠ .eof := by
  rintro rfl
  revert h
  decide

namespace Lexeme

theorem isScanned_continuation (cs : List Char) : (continuation cs).kind.isScanned = true := by
  unfold continuation
  split
  · split <;> rfl
  · rfl

theorem kind_number (c : Char) (cs : List Char) : (number c cs).kind = .number := by
  unfold number
  split
  · split <;> rfl
  · rfl

/-- What holds of the kinds of strings, names and keywords holds of the kind of a word. -/
theorem kind_word {P : Kind → Prop} (hstr : P .str) (hident : P .ident)
    (hkeywords : ∀ e ∈ Kind.keywords, P e.2) (c : Char) (cs : List Char) : P (word c cs).kind := by
  have hplain (w : String) : P ((Kind.ofKeyword? w).getD .ident) := by
    unfold Kind.ofKeyword?
    cases h : Kind.keywords.lookup w with
    | none => exact hident
    | some k =>
      obtain ⟨l₁, l₂, hl, -⟩ := List.lookup_eq_some_iff.1 h
      exact hkeywords (w, k) (hl ▸ by simp)
  unfold word
  dsimp only
  split
  · split
    · exact hstr
    · exact hplain _
  · exact hplain _

/-- What holds of the kinds of operators and of a stray character holds of the kind of an operator. -/
theorem kind_operator {P : Kind → Prop} (herror : P .errorToken)
    (hoperators : ∀ e ∈ operators, P e.2) (c : Char) (cs : List Char) : P (operator c cs).kind := by
  unfold operator
  split
  · rename_i text kind h
    exact hoperators (text, kind) (List.mem_of_find?_eq_some h)
  · exact herror

end Lexeme

theorem isScanned_scan (c : Char) (cs : List Char) : (Reach.scan c cs).kind.isScanned = true := by
  unfold Reach.scan
  split
  · rfl
  split
  · rfl
  split
  · exact Lexeme.isScanned_continuation cs
  split
  · rw [Lexeme.kind_number]; rfl
  split
  · rfl
  split
  · exact Lexeme.kind_word (P := fun k => k.isScanned = true) rfl rfl (by decide) c cs
  · exact Lexeme.kind_operator (P := fun k => k.isScanned = true) rfl (by decide) c cs

/-! ## Punctuation -/

/-- The kinds of parentheses and of the comma, with their characters. -/
def Lexeme.punctuation : List (Kind × Char) := [(.lParen, '('), (.rParen, ')'), (.comma, ',')]

namespace Lexeme

theorem operator_of_punctuation {c : Char} {cs : List Char} {k : Kind} {a : Char}
    (hk : (k, a) ∈ punctuation) (h : (operator c cs).kind = k) :
    c = a ∧ operator c cs = ⟨k, 0, none⟩ := by
  have htable : ∀ o ∈ operators, ∀ e ∈ punctuation, o.2 = e.1 → o.1 = [e.2] := by decide
  have herror : ∀ e ∈ punctuation, Kind.errorToken ≠ e.1 := by decide
  unfold operator at h ⊢
  split at h
  · rename_i text kind hfind
    obtain rfl : kind = k := h
    obtain rfl : text = [a] := htable _ (List.mem_of_find?_eq_some hfind) _ hk rfl
    have hstarts := List.find?_some hfind
    simp only [List.isPrefixOf, Bool.and_true, beq_iff_eq] at hstarts
    exact ⟨hstarts.symm, rfl⟩
  · exact absurd h (herror _ hk)

end Lexeme

/-- A token of such a kind is its character. -/
theorem scan_of_punctuation {c : Char} {cs : List Char} {k : Kind} {a : Char}
    (hk : (k, a) ∈ Lexeme.punctuation) (h : (Reach.scan c cs).kind = k) :
    c = a ∧ Reach.scan c cs = ⟨k, 0, none⟩ := by
  have hother : ∀ e ∈ Lexeme.punctuation, e.1 ≠ .whitespace ∧ e.1 ≠ .comment ∧
      e.1 ≠ .lineContinuation ∧ e.1 ≠ .errorToken ∧ e.1 ≠ .number ∧ e.1 ≠ .str := by decide
  obtain ⟨h₁, h₂, h₃, h₄, h₅, h₆⟩ := hother _ hk
  unfold Reach.scan at h ⊢
  split at h
  · exact absurd h.symm h₁
  split at h
  · exact absurd h.symm h₂
  split at h
  · unfold Lexeme.continuation at h
    split at h
    · split at h
      · exact absurd h.symm h₃
      · exact absurd h.symm h₄
    · exact absurd h.symm h₄
  split at h
  · rw [Lexeme.kind_number] at h
    exact absurd h.symm h₅
  split at h
  · exact absurd h.symm h₆
  split at h
  · have hword := Lexeme.kind_word (P := fun k => ∀ e ∈ Lexeme.punctuation, k ≠ e.1)
      (by decide) (by decide) (by decide) c cs
    exact absurd h (hword _ hk)
  · rename_i hspace hcomment hslash hdigit hquote hname
    simp only [hspace, hcomment, hslash, hdigit, hquote, hname, Bool.false_eq_true, ↓reduceIte]
    exact Lexeme.operator_of_punctuation hk h

namespace Layout

theorem mem_blanks {l : Lexeme} {cs : List Char} (h : l ∈ blanks cs) :
    cs ≠ [] ∧ l = ⟨⟨.whitespace, String.ofList cs⟩, none⟩ := by
  cases cs with
  | nil => cases h
  | cons c cs => exact ⟨List.cons_ne_nil _ _, List.mem_singleton.1 h⟩

/-- The marks in front of a line's content are those of blocks. -/
theorem mem_marks {l : Lexeme} {blocks : List Nat} {column : Nat}
    (h : l ∈ (marks blocks column).1) : ∃ k p, l = .mark k p ∧ (k = .indent ∨ k = .dedent) := by
  unfold marks dedents at h
  split at h
  · exact ⟨.indent, none, List.mem_singleton.1 h, .inl rfl⟩
  · rcases List.mem_append.1 h with h | h
    · exact ⟨.dedent, _, (List.mem_replicate.1 h).2, .inr rfl⟩
    · exact ⟨.dedent, _, (List.mem_replicate.1 h).2, .inr rfl⟩

theorem mem_finish {l : Lexeme} {blocks : List Nat} {content : Bool}
    (h : l ∈ finish blocks content) : l = .mark .newline none ∨ l = .mark .dedent none := by
  unfold finish at h
  rcases List.mem_append.1 h with h | h
  · split at h
    · exact .inl (List.mem_singleton.1 h)
    · cases h
  · exact .inr (List.mem_replicate.1 h).2

/-- Every lexeme has the kind of something scanned, of a line break or of a mark. -/
theorem isLexed_of_mem_lexFrom {blocks : List Nat} {mode : Mode} {text : List Char} {l : Lexeme}
    (h : l ∈ lexFrom blocks mode text) : l.token.kind.isLexed = true := by
  have hblanks {cs : List Char} (h : l ∈ blanks cs) : l.token.kind.isLexed = true := by
    rw [(mem_blanks h).2]; rfl
  have hfinish {blocks : List Nat} {content : Bool} (h : l ∈ finish blocks content) :
      l.token.kind.isLexed = true := by
    rcases mem_finish h with rfl | rfl <;> rfl
  fun_induction lexFrom blocks mode text with
  | case1 => exact (List.mem_append.1 h).elim hblanks hfinish
  | case2 _ _ _ _ _ _ _ _ ih | case3 _ _ _ _ _ _ _ _ _ ih =>
    rcases List.mem_append.1 h with h | h
    · exact hblanks h
    · rcases List.mem_cons.1 h with rfl | h
      · rfl
      · exact ih h
  | case4 blocks text indentation c cs _ _ _ before blocks' hm ih =>
    rcases List.mem_append.1 h with h | h
    · rcases List.mem_append.1 h with h | h
      · exact hblanks h
      · have hmem : l ∈ (marks blocks (columnOf indentation)).1 := by rw [hm]; exact h
        obtain ⟨k, p, rfl, rfl | rfl⟩ := mem_marks hmem <;> rfl
    · exact ih h
  | case5 => exact hfinish h
  | case6 _ _ _ _ _ _ _ _ ih | case7 _ _ _ _ _ _ _ _ ih =>
    rcases List.mem_cons.1 h with rfl | h
    · rfl
    · exact ih h
  | case8 _ _ _ c cs _ _ ih =>
    rcases List.mem_cons.1 h with rfl | h
    · exact Kind.isLexed_of_isScanned (isScanned_scan c cs)
    · exact ih h

/-- A lexeme that is no trivia and that the layout knows nothing about has been scanned. -/
theorem exists_scan_of_mem_lexFrom {blocks : List Nat} {mode : Mode} {text : List Char} {l : Lexeme}
    (h : l ∈ lexFrom blocks mode text) (htriv : l.token.kind.isTrivia = false)
    (hmark : l.token.kind.isLayout = false) : ∃ c cs, l = (Reach.scan c cs).taken c cs := by
  have hblanks {cs : List Char} (h : l ∈ blanks cs) : False := by
    rw [(mem_blanks h).2] at htriv
    cases htriv
  have hfinish {blocks : List Nat} {content : Bool} (h : l ∈ finish blocks content) : False := by
    rcases mem_finish h with rfl | rfl <;> cases hmark
  fun_induction lexFrom blocks mode text with
  | case1 => exact ((List.mem_append.1 h).elim hblanks hfinish).elim
  | case2 _ _ _ _ _ _ _ _ ih | case3 _ _ _ _ _ _ _ _ _ ih =>
    rcases List.mem_append.1 h with h | h
    · exact (hblanks h).elim
    · rcases List.mem_cons.1 h with rfl | h
      · cases htriv
      · exact ih h
  | case4 blocks text indentation c cs _ _ _ before blocks' hm ih =>
    rcases List.mem_append.1 h with h | h
    · rcases List.mem_append.1 h with h | h
      · exact (hblanks h).elim
      · have hmem : l ∈ (marks blocks (columnOf indentation)).1 := by rw [hm]; exact h
        obtain ⟨k, p, rfl, rfl | rfl⟩ := mem_marks hmem <;> cases hmark
    · exact ih h
  | case5 => exact (hfinish h).elim
  | case6 _ _ _ _ _ _ _ _ ih =>
    rcases List.mem_cons.1 h with rfl | h
    · cases hmark
    · exact ih h
  | case7 _ _ _ _ _ _ _ _ ih =>
    rcases List.mem_cons.1 h with rfl | h
    · cases htriv
    · exact ih h
  | case8 _ _ _ c cs _ _ ih =>
    rcases List.mem_cons.1 h with rfl | h
    · exact ⟨c, cs, rfl⟩
    · exact ih h

/-! ## Lexemes that cover nothing -/

theorem text_taken_ne (r : Reach) (c : Char) (cs : List Char) :
    (r.taken c cs).token.text ≠ "" := by
  intro h
  have := congrArg String.toList h
  simp [Reach.taken] at this

/-- A lexeme is in the first part of a list or splits the second one. -/
theorem mem_or_append_eq {α : Type} (xs : List α) {ys as bs : List α} {a : α}
    (h : xs ++ ys = as ++ a :: bs) : a ∈ xs ∨ ∃ cs, ys = cs ++ a :: bs := by
  rcases List.append_eq_append_iff.1 h with ⟨cs, -, hys⟩ | ⟨cs, hxs, hcs⟩
  · exact .inr ⟨cs, hys⟩
  · cases cs with
    | nil => exact .inr ⟨[], hcs.symm⟩
    | cons c cs =>
      obtain ⟨rfl, -⟩ := List.cons.inj hcs
      exact .inl (hxs ▸ by simp)

/-- A lexeme that covers nothing is the mark of a block, or the end of the last line: then nothing is
covered after it either. -/
theorem mark_of_lexFrom {blocks : List Nat} {mode : Mode} {text : List Char} {l : Lexeme}
    (as bs : List Lexeme) (h : lexFrom blocks mode text = as ++ l :: bs)
    (hl : l.token.text = "") : l.token.kind = .indent ∨ l.token.kind = .dedent ∨
      l.token.kind = .newline ∧ covered bs = [] := by
  have hblanks {cs : List Char} (h : l ∈ blanks cs) : False := by
    obtain ⟨hcs, rfl⟩ := mem_blanks h
    exact hcs (String.ofList_injective (hl.trans rfl))
  have hfinish {blocks : List Nat} {content : Bool} {as : List Lexeme}
      (h : finish blocks content = as ++ l :: bs) : l.token.kind = .indent ∨
        l.token.kind = .dedent ∨ l.token.kind = .newline ∧ covered bs = [] := by
    have hcovered := covered_finish blocks content
    rw [h, covered_append, covered_cons, List.append_eq_nil_iff, List.append_eq_nil_iff]
      at hcovered
    have hmem : l ∈ finish blocks content := by rw [h]; simp
    rcases mem_finish hmem with rfl | rfl
    · exact .inr (.inr ⟨rfl, hcovered.2.2⟩)
    · exact .inr (.inl rfl)
  revert as
  fun_induction lexFrom blocks mode text with
  | case1 =>
    intro as h
    rcases mem_or_append_eq _ h with hmem | ⟨as', h⟩
    · exact (hblanks hmem).elim
    · exact hfinish h
  | case2 _ _ _ c cs _ _ r ih | case3 _ _ _ c cs _ _ _ r ih =>
    intro as h
    rcases mem_or_append_eq _ h with hmem | ⟨as', h⟩
    · exact (hblanks hmem).elim
    · rcases mem_or_append_eq [r.taken c cs] h with hmem | ⟨as'', h⟩
      · rw [List.mem_singleton.1 hmem] at hl
        exact absurd hl (text_taken_ne r c cs)
      · exact ih _ h
  | case4 blocks text indentation c cs _ _ _ before blocks' hm ih =>
    intro as h
    rcases mem_or_append_eq _ h with hmem | ⟨as', h⟩
    · rcases List.mem_append.1 hmem with hmem | hmem
      · exact (hblanks hmem).elim
      · have hmark : l ∈ (marks blocks (columnOf indentation)).1 := by rw [hm]; exact hmem
        obtain ⟨k, p, rfl, rfl | rfl⟩ := mem_marks hmark
        · exact .inl rfl
        · exact .inr (.inl rfl)
    · exact ih _ h
  | case5 => exact fun as h => hfinish h
  | case6 _ _ _ c cs _ _ r ih | case7 _ _ _ c cs _ _ r ih | case8 _ _ _ c cs _ r ih =>
    intro as h
    rcases mem_or_append_eq [r.taken c cs] h with hmem | ⟨as', h⟩
    · rw [List.mem_singleton.1 hmem] at hl
      exact absurd hl (text_taken_ne r c cs)
    · exact ih _ h

end Layout

/-- No token of a text looks like its end. -/
theorem kind_ne_eof_of_mem_tokensOf {source : String} {t : Token} (h : t ∈ tokensOf source) :
    t.kind ≠ .eof := by
  obtain ⟨l, hl, rfl⟩ := List.mem_map.1 h
  exact Kind.ne_eof_of_isLexed (Layout.isLexed_of_mem_lexFrom hl)

end Renumber
