import Renumber.Proofs.Layout.Step
import Renumber.Proofs.Numbering.Recode

/-!
# Lexing a text again

The text of some tokens with one code more is lexed as the tokens with the code (`lexFrom_renumbered`). Up
to the parenthesis of the call the lexemes are the old ones. Behind it the scan is inside brackets: the
numeral is one token, since what follows it bounds it (`lexFrom_numeral`), the trivia in front of it
end where they did, and an argument that is gone has closed all the brackets that it had opened, so the
rest is lexed as before (`lexFrom_inserted`).
-/

namespace Renumber

open Token (spelled)
open Lexeme (sound isBoundary)

/-! ## Numerals -/

theorem Lexeme.decimalLength_of_isDigit {cs : List Char} (h : ∀ x ∈ cs, x.isDigit = true) :
    decimalLength cs = cs.length := by
  have hrun : digitRun cs = cs.length := by
    rw [digitRun, runLength, List.takeWhile_eq_self_iff.2]
    exact fun x hx => by rw [h x hx]; rfl
  simp [decimalLength, hrun, fractionLength, exponentLength, suffixLength]

theorem Lexeme.number_of_isDigit {c : Char} {ds : List Char}
    (h : ∀ x ∈ c :: ds, x.isDigit = true) : number c ds = ⟨.number, ds.length, none⟩ := by
  rw [number_eq_decimal, decimalLength_of_isDigit h]
  · rfl
  · rintro - x hx
    have hdigit := h x (List.mem_cons_of_mem _ (List.mem_of_mem_head? hx))
    simp only [isBaseLetter, Bool.or_eq_false_iff, beq_eq_false_iff_ne]
    exact ⟨⟨⟨⟨⟨ne_of_isDigit hdigit rfl, ne_of_isDigit hdigit rfl⟩, ne_of_isDigit hdigit rfl⟩,
      ne_of_isDigit hdigit rfl⟩, ne_of_isDigit hdigit rfl⟩, ne_of_isDigit hdigit rfl⟩

theorem Reach.inside_of_isDigit {c a : Char} {ds : List Char}
    (h : ∀ x ∈ c :: ds, x.isDigit = true) (ha : isBoundary a = true) (v : List Char) :
    Reach.inside c (ds ++ a :: v) = ⟨.number, ds.length, none⟩ := by
  have hc : c.isDigit = true := h c List.mem_cons_self
  have hcomment : (c == '#') = false := beq_eq_false_iff_ne.2 (Lexeme.ne_of_isDigit hc rfl)
  have hslash : (c == '\\') = false := beq_eq_false_iff_ne.2 (Lexeme.ne_of_isDigit hc rfl)
  simp only [Reach.inside, Reach.scan, Lexeme.not_isBreak_of_isDigit hc,
    Lexeme.not_isSpace_of_isDigit hc, hcomment, hslash, hc, Bool.true_or, Bool.false_eq_true,
    ↓reduceIte]
  rw [Lexeme.number_append ha, Lexeme.number_of_isDigit h]

/-- The characters of a numeral are digits. -/
theorem Token.exists_digits (n : UInt64) : ∃ c ds, (Token.numeral n).text.toList = c :: ds ∧
    ∀ x ∈ c :: ds, x.isDigit = true := by
  have htext : (Token.numeral n).text.toList = Nat.toDigits 10 n.toNat := by
    rw [Token.numeral, Nat.toString_eq_repr, Nat.toList_repr]
  cases hd : Nat.toDigits 10 n.toNat with
  | nil => exact absurd hd Nat.toDigits_ne_nil
  | cons c ds =>
    refine ⟨c, ds, htext.trans hd, fun x hx => ?_⟩
    exact Nat.isDigit_of_mem_toDigits (by decide) (by decide) (hd ▸ hx)

namespace Layout

section
variable {blocks : List Nat} {d : Nat} {us us' : List Token} {n : UInt64}

/-- A numeral in front of a boundary is one token. -/
theorem lexFrom_numeral (n : UInt64) {a : Char} (ha : isBoundary a = true) (v : List Char) :
    lexFrom blocks (.inLine (d + 1) true) ((Token.numeral n).text.toList ++ a :: v) =
      ⟨.numeral n, none⟩ :: lexFrom blocks (.inLine (d + 1) true) (a :: v) := by
  obtain ⟨c, ds, htext, hdigits⟩ := Token.exists_digits n
  rw [htext, List.cons_append, lexFrom_inside, Reach.inside_of_isDigit hdigits ha, Reach.taken,
    Reach.left, List.take_left, List.drop_left, ← htext, String.ofList_toList]
  rfl

/-- What stands apart from a numeral starts with a boundary. -/
theorem exists_boundary (h : lexFrom blocks (.inLine (d + 1) true) (spelled us) = sound us)
    (hus : Token.Apart us) : ∃ a v, spelled us = a :: v ∧ isBoundary a = true := by
  obtain ⟨t, us, rfl, hk⟩ := hus
  have hmark : t.kind.isLayout = false := by
    rcases hk with htriv | hk | hk
    · exact Kind.not_isLayout_of_climb (Kind.climb_of_isTrivia htriv 0)
    · rw [hk]; rfl
    · rw [hk]; rfl
  obtain ⟨c, ys, htext, hkind, -⟩ := exists_inside_of_lexFrom h hmark
  refine ⟨c, ys ++ spelled us, by rw [Token.spelled_cons, htext, List.cons_append], ?_⟩
  by_cases htriv : t.kind.isTrivia = true
  · rcases Reach.inside_of_trivia (hkind ▸ htriv) with
      ⟨hc, -⟩ | ⟨hc, -⟩ | ⟨rfl, -⟩ | ⟨rfl, -⟩
    · simp only [Text.isBreak, Bool.or_eq_true, beq_iff_eq] at hc
      rcases hc with rfl | rfl <;> rfl
    · simp only [Lexeme.isSpace, Bool.or_eq_true, beq_iff_eq] at hc
      rcases hc with (rfl | rfl) | rfl <;> rfl
    · rfl
    · rfl
  · have hbreak : Text.isBreak c = false := by
      rw [← Bool.not_eq_true]
      intro hc
      rw [Reach.inside, if_pos hc] at hkind
      exact htriv (hkind ▸ rfl)
    rw [Reach.inside, hbreak, if_neg Bool.false_ne_true] at hkind
    rcases hk.resolve_left htriv with hk | hk
    · obtain ⟨rfl, -⟩ := scan_of_punctuation (a := ',') (by decide) (hkind.trans hk)
      rfl
    · obtain ⟨rfl, -⟩ := scan_of_punctuation (a := ')') (by decide) (hkind.trans hk)
      rfl

/-- Balanced tokens in front of a text inside brackets may go. -/
theorem lexFrom_of_balanced {text : List Char} {ts : List Token}
    (h : lexFrom blocks (.inLine (d + 1) true) text = sound (ts ++ us))
    (hts : Token.climb 0 ts = some 0) :
    lexFrom blocks (.inLine (d + 1) true) (spelled us) = sound us := by
  have hclimb := Token.climb_add hts d
  rw [Nat.zero_add] at hclimb
  rw [Lexeme.sound_append] at h
  have hrest := lexFrom_of_climb h hclimb
  rwa [covered_sound] at hrest

/-- What a code makes of the tokens behind a parenthesis is lexed as those tokens. -/
theorem lexFrom_inserted (h : lexFrom blocks (.inLine (d + 1) true) (spelled us) = sound us)
    (hedit : Inserted n us us') :
    lexFrom blocks (.inLine (d + 1) true) (spelled us') = sound us' := by
  obtain ⟨b, ds, hnumeral, hdigits⟩ := Token.exists_digits n
  have hb : b.isDigit = true := hdigits b List.mem_cons_self
  cases hedit with
  | empty hus =>
    obtain ⟨a, v, ha, hbound⟩ := exists_boundary h hus
    rw [Token.spelled_cons, ha, lexFrom_numeral n hbound, ← ha, h, Lexeme.sound_cons]
  | @one ws vs t hws ht hmark =>
    have hrest := lexFrom_of_balanced h (Token.climb_of_trivia hws 0)
    obtain ⟨c, ys, htext, -, hspace⟩ := exists_solid_of_lexFrom hrest ht hmark
    have hblank : lexFrom blocks (.inLine (d + 1) true) (' ' :: spelled (t :: vs)) =
        ⟨⟨.whitespace, " "⟩, none⟩ :: sound (t :: vs) := by
      have hreach : Reach.inside ' ' (spelled (t :: vs)) = ⟨.whitespace, 0, none⟩ := by
        rw [Token.spelled_cons, htext, List.cons_append]
        show (⟨.whitespace, Lexeme.runLength Lexeme.isSpace _, none⟩ : Reach) = _
        rw [Lexeme.runLength, List.takeWhile_cons, hspace]
        rfl
      rw [lexFrom_inside, hreach, ← hrest]
      rfl
    have hcomma : lexFrom blocks (.inLine (d + 1) true) (',' :: ' ' :: spelled (t :: vs)) =
        ⟨⟨.comma, ","⟩, none⟩ :: lexFrom blocks (.inLine (d + 1) true)
          (' ' :: spelled (t :: vs)) := by
      have hreach : Reach.inside ',' (' ' :: spelled (t :: vs)) = ⟨.comma, 0, none⟩ :=
        Lexeme.operator_append (by decide : isBoundary ' ' = true) [] (spelled (t :: vs)) ','
      rw [lexFrom_inside, hreach]
      rfl
    have htrivia := lexFrom_trivia hws ht hmark h hb (ds ++ ',' :: ' ' :: spelled (t :: vs))
    rw [← List.cons_append, ← hnumeral, lexFrom_numeral n (by decide), hcomma, hblank] at htrivia
    simpa using htrivia
  | @two ws vs us t hws ht hvs hus =>
    have hmark : t.kind.isLayout = false := by
      rw [Token.climb, Option.bind_eq_some_iff] at hvs
      obtain ⟨e, he, -⟩ := hvs
      exact Kind.not_isLayout_of_climb he
    have hrest : lexFrom blocks (.inLine (d + 1) true) (spelled us) = sound us := by
      have hclimb : Token.climb 0 (ws ++ t :: vs) = some 0 := by
        rw [Token.climb_append, Token.climb_of_trivia hws, Option.bind_some, hvs]
      rw [← List.append_assoc] at h
      exact lexFrom_of_balanced h hclimb
    obtain ⟨a, v, ha, hbound⟩ := exists_boundary hrest hus
    have htrivia := lexFrom_trivia hws ht hmark h hb (ds ++ spelled us)
    rw [← List.cons_append, ← hnumeral, ha, lexFrom_numeral n hbound, ← ha, hrest] at htrivia
    simpa using htrivia

end

/-- Tokens that their text is lexed as, with one code more, are what their text is lexed as. -/
theorem lexFrom_renumbered {ts ts' : List Token} {n : UInt64}
    (h : lexFrom [] .fresh (spelled ts) = sound ts) (hedit : Renumbered n ts ts') :
    lexFrom [] .fresh (spelled ts') = sound ts' := by
  cases hedit with
  | @intro xs us us' t ht hedit =>
    rw [Lexeme.sound_append, Lexeme.sound_cons] at h
    have hmem : ⟨t, none⟩ ∈ lexFrom [] .fresh (spelled (xs ++ t :: us)) := by
      rw [h]
      exact List.mem_append_right _ List.mem_cons_self
    have hparen : (⟨t, none⟩ : Lexeme) = paren := eq_paren_of_mem hmem ht
    rw [hparen] at h
    obtain ⟨blocks, d, hus, hnew⟩ := exists_lexFrom_paren (sound xs) h
    rw [covered_sound] at hus hnew
    have hw := hnew (spelled us')
    rw [lexFrom_inserted hus hedit, ← hparen] at hw
    obtain rfl : t = ⟨.lParen, "("⟩ := congrArg Lexeme.token hparen
    simpa using hw

end Layout

end Renumber
