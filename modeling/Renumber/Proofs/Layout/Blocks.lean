import Renumber.Proofs.Layout.Columns

/-!
# Blocks are closed

Every block that the layout opens it closes, and no other. `Token.nest` counts the open blocks through a list of
tokens; the scan keeps as many as it has columns for, and closes all of them at the end (`nest_lexFrom`). A
token that no scanner knows comes with a problem (`problem_of_scan`), so a source without lexical problems has
none (`ne_errorToken_of_lexFrom`).
-/

namespace Renumber

open Text (isBreak)

/-- The marks that open and close blocks. -/
def Kind.isMark (k : Kind) : Bool := k == .indent || k == .dedent

/-- How many blocks are open after a token of a kind, if any is open that it closes. -/
def Kind.nest (k : Kind) (d : Nat) : Option Nat :=
  if k = .indent then some (d + 1)
  else if k = .dedent then if d = 0 then none else some (d - 1)
  else some d

/-- How many blocks are open after some tokens. -/
def Token.nest : Nat → List Token → Option Nat
  | d, [] => some d
  | d, t :: ts => (t.kind.nest d).bind fun e => nest e ts

theorem Kind.nest_of_not_isMark {k : Kind} (h : k.isMark = false) (d : Nat) :
    k.nest d = some d := by
  simp only [isMark, Bool.or_eq_false_iff, beq_eq_false_iff_ne] at h
  rw [nest, if_neg h.1, if_neg h.2]

theorem Kind.isMark_of_isScanned {k : Kind} (h : k.isScanned = true) : k.isMark = false := by
  revert h
  cases k <;> decide

theorem Kind.isMark_of_isTrivia {k : Kind} (h : k.isTrivia = true) : k.isMark = false := by
  revert h
  cases k <;> decide

theorem Kind.isLayout_of_isTrivia {k : Kind} (h : k.isTrivia = true) : k.isLayout = false := by
  revert h
  cases k <;> decide

/-- The marks of the layout are those of blocks and of the ends of lines. -/
theorem Kind.not_isLayout_of_not_isMark {k : Kind} (h : k.isMark = false) (hk : k ≠ .newline) :
    k.isLayout = false := by
  revert h hk
  cases k <;> decide

namespace Token

@[simp] theorem nest_nil (d : Nat) : nest d [] = some d := rfl

theorem nest_cons (d : Nat) (t : Token) (ts : List Token) :
    nest d (t :: ts) = (t.kind.nest d).bind fun e => nest e ts := rfl

theorem nest_append (d : Nat) (ts us : List Token) :
    nest d (ts ++ us) = (nest d ts).bind fun e => nest e us := by
  induction ts generalizing d with
  | nil => rfl
  | cons t ts ih =>
    rw [List.cons_append, nest_cons, nest_cons, Option.bind_assoc]
    congr 1
    funext e
    exact ih e

theorem nest_cons_of_not_isMark {t : Token} (h : t.kind.isMark = false) (d : Nat) (ts : List Token) :
    nest d (t :: ts) = nest d ts := by
  rw [nest_cons, Kind.nest_of_not_isMark h, Option.bind_some]

theorem nest_of_not_isMark {ts : List Token} (h : ∀ t ∈ ts, t.kind.isMark = false) (d : Nat) :
    nest d ts = some d := by
  induction ts with
  | nil => rfl
  | cons t ts ih =>
    rw [nest_cons_of_not_isMark (h t List.mem_cons_self)]
    exact ih fun u hu => h u (List.mem_cons_of_mem _ hu)

theorem nest_of_trivia {ts : List Token} (h : ∀ t ∈ ts, t.kind.isTrivia = true) (d : Nat) :
    nest d ts = some d :=
  nest_of_not_isMark (fun t ht => Kind.isMark_of_isTrivia (h t ht)) d

theorem nest_dedents (n d : Nat) : nest (d + n) (List.replicate n ⟨.dedent, ""⟩) = some d := by
  induction n with
  | zero => rfl
  | succ n ih => exact ih

end Token

namespace Layout

/-- The marks in front of a line's content open and close as many blocks as the scan then has. -/
theorem nest_marks (blocks : List Nat) (column : Nat) :
    Token.nest blocks.length ((marks blocks column).1.map Lexeme.token) =
      some (marks blocks column).2.length := by
  unfold marks
  split
  · rfl
  · have hlength := congrArg List.length
      (List.takeWhile_append_dropWhile (p := (column < ·)) (l := blocks))
    rw [List.length_append, Nat.add_comm] at hlength
    dsimp only
    rw [map_token_dedents, ← hlength]
    exact Token.nest_dedents _ _

theorem nest_finish (blocks : List Nat) (content : Bool) :
    Token.nest blocks.length ((finish blocks content).map Lexeme.token) = some 0 := by
  have hdedents : Token.nest blocks.length
      ((List.replicate blocks.length (Lexeme.mark .dedent none)).map Lexeme.token) = some 0 := by
    rw [List.map_replicate]
    have := Token.nest_dedents blocks.length 0
    rwa [Nat.zero_add] at this
  rw [finish, List.map_append, Token.nest_append]
  cases content
  · exact hdedents
  · exact hdedents

theorem nest_blanks (d : Nat) (cs : List Char) :
    Token.nest d ((blanks cs).map Lexeme.token) = some d := by
  cases cs <;> rfl

/-- The scan closes the open blocks and all that it opens. -/
theorem nest_lexFrom (blocks : List Nat) (mode : Mode) (text : List Char) :
    Token.nest blocks.length ((lexFrom blocks mode text).map Lexeme.token) = some 0 := by
  fun_induction lexFrom blocks mode text with
  | case1 =>
    rw [List.map_append, Token.nest_append, nest_blanks, Option.bind_some]
    exact nest_finish _ _
  | case2 _ _ _ _ _ _ _ _ ih | case3 _ _ _ _ _ _ _ _ _ ih =>
    rw [List.map_append, Token.nest_append, nest_blanks, Option.bind_some, List.map_cons,
      Token.nest_cons_of_not_isMark rfl]
    exact ih
  | case4 blocks text indentation c cs _ _ _ before blocks' hm ih =>
    have hmarks := nest_marks blocks (columnOf indentation)
    rw [hm] at hmarks
    rw [List.map_append, List.map_append, Token.nest_append, Token.nest_append, nest_blanks,
      Option.bind_some, hmarks, Option.bind_some]
    exact ih
  | case5 => exact nest_finish _ _
  | case6 _ _ _ _ _ _ _ _ ih | case7 _ _ _ _ _ _ _ _ ih =>
    rw [List.map_cons, Token.nest_cons_of_not_isMark rfl]
    exact ih
  | case8 _ _ _ c cs _ _ ih =>
    have hmark : ((Reach.scan c cs).taken c cs).token.kind.isMark = false :=
      Kind.isMark_of_isScanned (isScanned_scan c cs)
    rw [List.map_cons, Token.nest_cons_of_not_isMark hmark]
    exact ih

/-- A token that no scanner knows comes with a problem. -/
theorem problem_of_scan {c : Char} {cs : List Char} (h : (Reach.scan c cs).kind = .errorToken) :
    (Reach.scan c cs).problem? ≠ none := by
  unfold Reach.scan at h ⊢
  split at h <;> rename_i hspace
  · cases h
  rw [if_neg hspace]
  split at h <;> rename_i hcomment
  · cases h
  rw [if_neg hcomment]
  split at h <;> rename_i hslash
  · rw [if_pos hslash]
    unfold Lexeme.continuation at h ⊢
    split at h
    · split at h <;> rename_i hbreak
      · cases h
      · simp [hbreak]
    · exact Option.some_ne_none _
  rw [if_neg hslash]
  split at h <;> rename_i hdigit
  · rw [Lexeme.kind_number] at h
    cases h
  rw [if_neg hdigit]
  split at h <;> rename_i hquote
  · cases h
  rw [if_neg hquote]
  split at h <;> rename_i hname
  · exact absurd h (Lexeme.kind_word (P := (· ≠ .errorToken)) (by decide) (by decide) (by decide) c cs)
  rw [if_neg hname]
  unfold Lexeme.operator at h ⊢
  split at h
  · rename_i text kind hfind
    have hoperators : ∀ o ∈ Lexeme.operators, o.2 ≠ .errorToken := by decide
    exact absurd h (hoperators _ (List.mem_of_find?_eq_some hfind))
  · exact Option.some_ne_none _

/-- A text in which nothing is wrong has no token that no scanner knows. -/
theorem ne_errorToken_of_lexFrom {blocks : List Nat} {mode : Mode} {text : List Char}
    (h : ∀ l ∈ lexFrom blocks mode text, l.problem? = none) {l : Lexeme}
    (hl : l ∈ lexFrom blocks mode text) : l.token.kind ≠ .errorToken := by
  intro hkind
  obtain ⟨c, cs, rfl⟩ := exists_scan_of_mem_lexFrom hl (by rw [hkind]; rfl) (by rw [hkind]; rfl)
  exact problem_of_scan hkind (h _ hl)

end Layout

/-- The tokens close the blocks that are open in front of them and all that they open. None of them looks
like the end. -/
structure Token.Closes (d : Nat) (ts : List Token) : Prop where
  nest : Token.nest d ts = some 0
  ne_eof : ∀ t ∈ ts, t.kind ≠ .eof

/-- A source closes the blocks that it opens. -/
theorem closes_tokensOf (source : String) : Token.Closes 0 (tokensOf source) where
  nest := Layout.nest_lexFrom [] .fresh source.toList
  ne_eof _ ht := kind_ne_eof_of_mem_tokensOf ht

namespace Token

theorem Closes.of_append {d e : Nat} {ts us : List Token} (h : Closes d (ts ++ us))
    (hts : Token.nest d ts = some e) : Closes e us where
  nest := by
    have := h.nest
    rwa [nest_append, hts] at this
  ne_eof t ht := h.ne_eof t (List.mem_append_right _ ht)

theorem Closes.of_cons {d e : Nat} {t : Token} {ts : List Token} (h : Closes d (t :: ts))
    (ht : t.kind.nest d = some e) : Closes e ts :=
  Closes.of_append (show Closes d ([t] ++ ts) from h) (by rw [nest_cons, ht]; rfl)

end Token

end Renumber
