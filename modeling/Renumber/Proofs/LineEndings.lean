import Renumber.Proofs.Grammar.Bare
import Renumber.Proofs.Grammar.Mapped
import Renumber.Proofs.Layout.Returns
import Renumber.Proofs.Numbering.Reparse

/-!
# Line endings

A source whose lines end in a carriage return and a line feed is the program that it is with line feeds alone
(`parse_returned`): it has tokens of the same kinds, the same tree up to the carriage returns in the texts of
the tokens, and the same problems on the same lines and columns. The exception is a string in plain quotes
that goes on in the next line. With a carriage return behind the backslash it is cut off
(`parse_returned_cut`).
-/

namespace Renumber

open Text (withReturns withReturns_cons withReturns_feed upTo)
open Token (spelled)

/-! ## Offsets -/

namespace Text

/-- Where an offset goes: there is one more byte for every line feed in front of it. -/
def moved (text : List Char) (n : Nat) : Nat := n + (upTo n text).count '\n'

theorem upTo_cons {c : Char} {n : Nat} (h : c.utf8Size ≤ n) (cs : List Char) :
    upTo n (c :: cs) = c :: upTo (n - c.utf8Size) cs := by
  rw [upTo, if_pos h]

theorem upTo_cons_of_lt {c : Char} {n : Nat} (h : n < c.utf8Size) (cs : List Char) :
    upTo n (c :: cs) = [] := by
  rw [upTo, if_neg (Nat.not_le.2 h)]

@[simp] theorem upTo_zero (cs : List Char) : upTo 0 cs = [] := by
  cases cs with
  | nil => rfl
  | cons c cs => exact upTo_cons_of_lt c.utf8Size_pos cs

theorem upTo_prefix_upTo (text : List Char) {m n : Nat} (h : m ≤ n) :
    upTo m text <+: upTo n text := by
  induction text generalizing m n with
  | nil => exact List.nil_prefix
  | cons c cs ih =>
    by_cases hc : c.utf8Size ≤ m
    · rw [upTo_cons hc, upTo_cons (hc.trans h), List.prefix_cons_inj]
      exact ih (Nat.sub_le_sub_right h _)
    · rw [upTo_cons_of_lt (Nat.not_le.1 hc)]
      exact List.nil_prefix

theorem moved_strictMono (text : List Char) : StrictMono (moved text) := fun _ _ h =>
  Nat.add_lt_add_of_lt_of_le h ((upTo_prefix_upTo text h.le).count_le _)

/-- What stands in front of an offset that has moved. -/
theorem upTo_moved (text : List Char) (n : Nat) :
    upTo (moved text n) (withReturns text) = withReturns (upTo n text) := by
  unfold moved
  induction text generalizing n with
  | nil => rfl
  | cons c cs ih =>
    by_cases hn : c.utf8Size ≤ n
    · rw [upTo_cons hn]
      by_cases hc : c = '\n'
      · subst hc
        obtain ⟨n, rfl⟩ := Nat.exists_eq_add_of_le' hn
        have hmoved : n + 1 + ('\n' :: upTo n cs).count '\n' =
            n + (upTo n cs).count '\n' + 1 + 1 := by
          rw [List.count_cons_self]
          omega
        have hfeed (m : Nat) (ds : List Char) :
            upTo (m + 1 + 1) ('\r' :: '\n' :: ds) = '\r' :: '\n' :: upTo m ds := by
          rw [upTo_cons (by exact Nat.le_add_left 1 (m + 1)), upTo_cons (by exact Nat.le_add_left 1 m)]
          rfl
        rw [show n + '\n'.utf8Size - '\n'.utf8Size = n from rfl, show n + '\n'.utf8Size = n + 1 from rfl,
          hmoved, withReturns_feed, withReturns_feed, hfeed, ih]
      · rw [withReturns_cons hc, withReturns_cons hc, List.count_cons_of_ne hc,
          upTo_cons (Nat.le_add_right_of_le hn), ← ih, Nat.sub_add_comm hn]
    · rw [Nat.not_le] at hn
      rw [upTo_cons_of_lt hn, List.count_nil]
      by_cases hc : c = '\n'
      · subst hc
        rw [Nat.lt_one_iff.1 hn, upTo_zero, Text.withReturns_nil]
      · rw [withReturns_cons hc, Nat.add_zero, upTo_cons_of_lt hn, Text.withReturns_nil]

theorem count_withReturns (cs : List Char) : (withReturns cs).count '\n' = cs.count '\n' := by
  induction cs with
  | nil => rfl
  | cons c cs ih =>
    by_cases hc : c = '\n'
    · subst hc
      rw [withReturns_feed, List.count_cons_of_ne (by decide), List.count_cons_self,
        List.count_cons_self, ih]
    · rw [withReturns_cons hc, List.count_cons_of_ne hc, List.count_cons_of_ne hc, ih]

/-- Carriage returns at the ends of the lines in front of it leave a position as it is. -/
theorem after_withReturns (cs : List Char) : Position.after (withReturns cs) = Position.after cs := by
  have hline : (withReturns cs).reverse.takeWhile (· ≠ '\n') =
      cs.reverse.takeWhile (· ≠ '\n') := by
    induction cs using List.reverseRecOn with
    | nil => rfl
    | append_singleton cs c ih =>
      by_cases hc : c = '\n'
      · subst hc
        simp [withReturns_feed]
      · simpa [withReturns_cons hc, hc] using ih
  rw [Position.after, Position.after, count_withReturns, hline]

theorem utf8Len_withReturns (cs : List Char) :
    String.utf8Len (withReturns cs) = String.utf8Len cs + cs.count '\n' := by
  induction cs with
  | nil => rfl
  | cons c cs ih =>
    by_cases hc : c = '\n'
    · subst hc
      have hsize : '\n'.utf8Size = '\r'.utf8Size := rfl
      have hone : '\r'.utf8Size = 1 := rfl
      simp only [withReturns_feed, String.utf8Len_cons, ih, List.count_cons_self, hsize, hone]
      omega
    · rw [withReturns_cons hc, String.utf8Len_cons, String.utf8Len_cons, ih, List.count_cons_of_ne hc,
        Nat.add_right_comm]

theorem upTo_utf8Len (cs ds : List Char) : upTo (String.utf8Len cs) (cs ++ ds) = cs := by
  induction cs with
  | nil => exact upTo_zero ds
  | cons c cs ih =>
    rw [String.utf8Len_cons, List.cons_append, upTo_cons (Nat.le_add_left _ _),
      Nat.add_sub_cancel, ih]

theorem moved_utf8Len (cs ds : List Char) :
    moved (cs ++ ds) (String.utf8Len cs) = String.utf8Len (withReturns cs) := by
  rw [moved, upTo_utf8Len, utf8Len_withReturns]

/-- The source with a carriage return in front of every line feed. -/
def returned (source : String) : String := String.ofList (withReturns source.toList)

end Text

namespace Token

theorem sizeOf_eq (ts : List Token) : sizeOf ts = String.utf8Len (spelled ts) := by
  rw [← utf8ByteSize_textOf, ← toList_textOf, ← String.utf8ByteSize_ofList, String.ofList_toList]

@[simp] theorem spelled_map_returned (ts : List Token) :
    spelled (ts.map returned) = withReturns (spelled ts) := by
  induction ts with
  | nil => rfl
  | cons t ts ih =>
    rw [List.map_cons, spelled_cons, spelled_cons, Text.withReturns_append, ih, returned,
      String.toList_ofList]

/-- Where some tokens end among others, with carriage returns. -/
theorem sizeOf_map_returned {us ts : List Token} (h : us <+: ts) :
    sizeOf (us.map returned) = Text.moved (spelled ts) (sizeOf us) := by
  obtain ⟨vs, rfl⟩ := h
  rw [sizeOf_eq, sizeOf_eq, spelled_map_returned, spelled_append, Text.moved_utf8Len]

end Token

/-- The span with both ends moved. -/
def Span.moved (text : List Char) (s : Span) : Span := ⟨Text.moved text s.start, Text.moved text s.stop⟩

/-- The error with its span moved. -/
def ParseError.moved (text : List Char) (e : ParseError) : ParseError := ⟨e.problem, e.span.moved text⟩

/-- An error that has moved is on the same line and column. -/
theorem ParseError.position_moved (e : ParseError) (source : String) :
    (e.moved source.toList).position (Text.returned source) = e.position source := by
  rw [position, position, Text.Position.ofOffset, Text.Position.ofOffset, Text.returned,
    String.toList_ofList]
  show Text.Position.after (upTo (Text.moved source.toList e.span.start) _) = _
  rw [Text.upTo_moved, Text.after_withReturns]

/-! ## Errors -/

section
variable (ts : List Token)

theorem spans_map_returned : Token.spans 0 (ts.map Token.returned) =
    (Token.spans 0 ts).map (Span.moved (spelled ts)) := by
  refine List.ext_getElem? fun i => ?_
  rw [Token.getElem?_spans, List.getElem?_map, List.getElem?_map, Token.getElem?_spans]
  cases hi : ts[i]? with
  | none => rfl
  | some t =>
    have hstart := Token.sizeOf_map_returned (List.take_prefix i ts)
    have hstop := Token.sizeOf_map_returned (List.take_prefix (i + 1) ts)
    have hi' : (ts.map Token.returned)[i]? = some t.returned := by rw [List.getElem?_map, hi]; rfl
    rw [Token.sizeOf_take_succ hi, List.map_take, Token.sizeOf_take_succ hi', ← List.map_take,
      hstart] at hstop
    simp only [Option.map_some, Span.moved, Nat.zero_add, ← List.map_take, hstart, hstop]

/-- The error of a fault, with carriage returns. -/
theorem error_mapTokens_returned {f : Fault} (hf : f.rest <:+ ts) :
    (f.mapTokens Token.returned).error (Token.sizeOf (ts.map Token.returned)) =
      (f.error (Token.sizeOf ts)).moved (spelled ts) := by
  obtain ⟨us, rfl⟩ := hf
  have hstart := Token.sizeOf_map_returned (List.prefix_append us f.rest)
  have hstop : Token.sizeOf (us.map Token.returned) +
      ((f.rest.map Token.returned).head?.map Token.size).getD 0 =
      Text.moved (spelled (us ++ f.rest)) (Token.sizeOf us + (f.rest.head?.map Token.size).getD 0) := by
    cases hrest : f.rest with
    | nil =>
      rw [hrest] at hstart
      exact hstart
    | cons v vs =>
      have hprefix : us ++ [v] <+: us ++ v :: vs := ⟨vs, by simp⟩
      have h := Token.sizeOf_map_returned hprefix
      rw [List.map_append, Token.sizeOf_append, Token.sizeOf_append] at h
      simpa [Token.sizeOf] using h
  simp only [Fault.error, Fault.mapTokens, ParseError.moved, Span.moved, List.map_append,
    Token.sizeOf_append, Nat.add_sub_cancel, hstop]
  rw [← hstart]

theorem lexicalErrors_map_returned (ls : List Lexeme) : lexicalErrors (ls.map Lexeme.returned) =
    (lexicalErrors ls).map (ParseError.moved (spelled (ls.map Lexeme.token))) := by
  have htokens : (ls.map Lexeme.returned).map Lexeme.token =
      (ls.map Lexeme.token).map Token.returned := by
    rw [List.map_map, List.map_map]
    rfl
  rw [lexicalErrors, htokens, spans_map_returned, List.zip_map, List.filterMap_map, lexicalErrors,
    List.map_filterMap]
  refine List.filterMap_congr fun e _ => ?_
  show (e.1.problem?.map _) = (e.1.problem?.map _).map _
  rw [Option.map_map]
  rfl

end

/-! ## Parsing -/

/-- The grammar does not notice carriage returns. -/
theorem unnoticed_returned : Grammar.Unnoticed Token.returned where
  kind _ := rfl
  word t := by
    by_cases h : '\n' ∈ t.text.toList
    · have hne {s : String} (hs : '\n' ∈ s.toList) : (s == "exec") = false := by
        rw [beq_eq_false_iff_ne]
        rintro rfl
        exact absurd hs (by decide)
      have hmem : '\n' ∈ t.returned.text.toList := by
        rw [Token.returned, String.toList_ofList, ← List.count_pos_iff, Text.count_withReturns]
        exact List.count_pos_iff.2 h
      rw [hne h, hne hmem]
    · rw [Token.returned, Text.withReturns_of_not_mem h, String.ofList_toList]

section
variable {source : String} (hreturn : '\r' ∉ source.toList)
include hreturn

theorem follows_lex : Lexeme.Follows (lex source) (lex (Text.returned source)) := by
  have h := Layout.lexFrom_withReturns hreturn [] .fresh
  rwa [← String.toList_ofList (l := withReturns source.toList)] at h

section
variable (h : ∀ t ∈ tokensOf source, t.goesOn = false)
include h

theorem lex_returned : lex (Text.returned source) = (lex source).map Lexeme.returned := by
  cases follows_lex hreturn with
  | same _ heq => exact heq
  | cut hgoes =>
    obtain ⟨l, hl, hgoes⟩ := hgoes
    rw [h l.token (List.mem_map_of_mem hl)] at hgoes
    cases hgoes

theorem tokensOf_returned :
    tokensOf (Text.returned source) = (tokensOf source).map Token.returned := by
  rw [tokensOf, lex_returned hreturn h, tokensOf, List.map_map, List.map_map]
  rfl

/-- The parse of a source in which no string in plain quotes goes on in the next line. -/
theorem parse_of_follows :
    parse (Text.returned source) = ⟨(parse source).tree.mapTokens Token.returned,
      (parse source).errors.map (ParseError.moved source.toList)⟩ := by
  have hlex := lex_returned hreturn h
  have htokens := tokensOf_returned hreturn h
  have hsource : spelled (tokensOf source) = source.toList := by
    rw [← Token.toList_textOf, textOf_tokensOf]
  have hreading := Grammar.readFile_map unnoticed_returned (tokensOf source)
  refine congrArg₂ Parse.mk ?_ ?_
  · show Tree.node .module (Grammar.readFile (tokensOf _)).trees =
      (Tree.node .module (Grammar.readFile (tokensOf source)).trees).mapTokens _
    rw [htokens, hreading, Tree.mapTokens_node, Tree.mapTokensOf_eq_map]
    rfl
  · show (lexicalErrors (lex _) ++ (Grammar.readFile (tokensOf _)).faults.map
        (Fault.error (Token.sizeOf (tokensOf _)))).mergeSort _ = (List.mergeSort _ _).map _
    rw [List.map_mergeSort (s := fun a b => decide (a.span.start ≤ b.span.start)), List.map_append,
      htokens, hlex, hreading]
    · congr 2
      · rw [← hsource]
        exact lexicalErrors_map_returned (lex source)
      · rw [Grammar.Reading.mapTokens, List.map_map, List.map_map]
        refine List.map_congr_left fun f hf => ?_
        rw [← hsource]
        exact error_mapTokens_returned _ (((Grammar.inOrder_readFile _).within f hf).trans
          (Grammar.upcoming_suffix _))
    · exact fun a _ b _ => decide_eq_decide.2 (Text.moved_strictMono source.toList).le_iff_le.symm

end

omit hreturn in
theorem not_ok_of_mem_lex {l : Lexeme} (hl : l ∈ lex source) (hp : l.problem? ≠ none) :
    (parse source).ok = false := by
  rw [Parse.ok, ← Bool.not_eq_true, List.isEmpty_iff, errors_parse_eq_nil_iff]
  rintro ⟨hsound, -⟩
  rw [hsound] at hl
  exact hp (problem?_of_mem_sound hl)

/-- Line endings do not matter, but for strings in plain quotes that go on in the next line. In a source
without these the tokens keep their kinds, the tree is the same up to the carriage returns, and every
problem stays where it is. A source parses cleanly with carriage returns when it does so without and there
is no such string in it. -/
theorem parse_returned :
    ((∀ t ∈ tokensOf source, t.goesOn = false) →
      (tokensOf (Text.returned source)).map Token.kind = (tokensOf source).map Token.kind ∧
      (parse (Text.returned source)).tree = (parse source).tree.mapTokens Token.returned ∧
      (parse (Text.returned source)).errors.map
          (fun e => (e.problem.message, e.position (Text.returned source))) =
        (parse source).errors.map fun e => (e.problem.message, e.position source)) ∧
    ((parse (Text.returned source)).ok = true ↔
      (parse source).ok = true ∧ ∀ t ∈ tokensOf source, t.goesOn = false) := by
  constructor
  · intro h
    have hparse := parse_of_follows hreturn h
    refine ⟨?_, congrArg Parse.tree hparse, ?_⟩
    · rw [tokensOf_returned hreturn h, List.map_map]
      rfl
    · rw [hparse, List.map_map]
      refine List.map_congr_left fun e _ => ?_
      rw [Function.comp_apply, ParseError.position_moved]
      rfl
  · by_cases h : ∀ t ∈ tokensOf source, t.goesOn = false
    · rw [parse_of_follows hreturn h, Parse.ok, Parse.ok, List.isEmpty_map, and_iff_left h]
    · cases follows_lex hreturn with
      | same hlines =>
        refine absurd (fun t ht => ?_) h
        obtain ⟨l, hl, rfl⟩ := List.mem_map.1 ht
        exact hlines l hl
      | cut _ hcut =>
        obtain ⟨l, hl, hproblem⟩ := hcut
        rw [not_ok_of_mem_lex hl (by rw [hproblem]; exact Option.some_ne_none _)]
        exact iff_of_false Bool.false_ne_true fun hok => h hok.2

end

/-- A string in three quotes goes on in the next line, and a problem stays on that line. -/
theorem parse_returned_lines :
    let source := "x = '''a\\\nb''' $\n"
    ('\r' ∉ source.toList ∧ ∀ t ∈ tokensOf source, t.goesOn = false) ∧
    (tokensOf (Text.returned source)).map Token.kind = (tokensOf source).map Token.kind ∧
    (parse (Text.returned source)).tree = (parse source).tree.mapTokens Token.returned ∧
    (parse (Text.returned source)).errors.map
        (fun e => (e.problem.message, e.position (Text.returned source))) =
      (parse source).errors.map (fun e => (e.problem.message, e.position source)) ∧
    ((parse (Text.returned source)).ok = true ↔
      (parse source).ok = true ∧ ∀ t ∈ tokensOf source, t.goesOn = false) := by
  have hreturn : '\r' ∉ "x = '''a\\\nb''' $\n".toList := by decide
  have hall : (tokensOf "x = '''a\\\nb''' $\n").all (fun t => !t.goesOn) = true := by cbv
  have h : ∀ t ∈ tokensOf "x = '''a\\\nb''' $\n", t.goesOn = false := fun t ht => by
    simpa using List.all_eq_true.1 hall t ht
  obtain ⟨hkinds, htree, herrors⟩ := (parse_returned hreturn).1 h
  exact ⟨⟨hreturn, h⟩, hkinds, htree, herrors, (parse_returned hreturn).2⟩

/-- A backslash takes the carriage return along but not the line feed, and a string in plain quotes is cut
off between them. -/
theorem parse_returned_cut :
    let source := "x = 'a\\\nb'\n"
    '\r' ∉ source.toList ∧ (parse source).ok = true ∧ (parse (Text.returned source)).ok = false ∧
      (tokensOf (Text.returned source)).map Token.kind ≠ (tokensOf source).map Token.kind := by
  have hlex : lex "x = 'a\\\nb'\n" = Lexeme.sound [⟨.ident, "x"⟩, ⟨.whitespace, " "⟩, ⟨.eq, "="⟩,
      ⟨.whitespace, " "⟩, ⟨.str, "'a\\\nb'"⟩, ⟨.newline, "\n"⟩] := by cbv
  have hcut : lex (Text.returned "x = 'a\\\nb'\n") = Lexeme.sound [⟨.ident, "x"⟩, ⟨.whitespace, " "⟩,
      ⟨.eq, "="⟩, ⟨.whitespace, " "⟩] ++ [⟨⟨.str, "'a\\\r"⟩, some .unterminatedString⟩,
      ⟨⟨.newline, "\n"⟩, none⟩, ⟨⟨.str, "b'"⟩, some .unterminatedString⟩, ⟨⟨.newline, "\r\n"⟩, none⟩] := by cbv
  have hmem : ⟨⟨.str, "b'"⟩, some .unterminatedString⟩ ∈ lex (Text.returned "x = 'a\\\nb'\n") :=
    hcut ▸ by decide
  refine ⟨by decide, ?_, not_ok_of_mem_lex hmem (Option.some_ne_none _), ?_⟩
  · rw [Parse.ok, errors_parse_of_lex hlex (by decide +kernel)]
    rfl
  · rw [tokensOf_of_lex hlex, tokensOf, hcut]
    decide

end Renumber
