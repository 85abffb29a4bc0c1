import Renumber.Proofs.Grammar.Progress
import Renumber.Proofs.Layout.Lexemes

/-!
# Nothing of a source is lost

The tokens of a source lie side by side in it and cover it from end to end (`Tiling`), whatever is wrong
with the source, and the tree of the source has the same tokens for leaves
(`tokens_tile_and_tree_keeps`). That the tree has all of them rests on two facts about the grammar: the
fuel of a file is never used up, and the loop of a file leaves no token over.
-/

namespace Renumber

namespace Token

@[simp] theorem textOf_nil : textOf [] = "" := rfl

@[simp] theorem textOf_cons (t : Token) (ts : List Token) :
    textOf (t :: ts) = t.text ++ textOf ts := by
  apply String.toList_injective
  simp [textOf, String.toList_join]

@[simp] theorem textOf_append (ts us : List Token) :
    textOf (ts ++ us) = textOf ts ++ textOf us := by
  induction ts with
  | nil => simp
  | cons t ts ih => simp [ih, String.append_assoc]

@[simp] theorem sizeOf_append (ts us : List Token) :
    sizeOf (ts ++ us) = sizeOf ts + sizeOf us := by
  induction ts with
  | nil => simp [sizeOf]
  | cons t ts ih => simp [sizeOf, ih, Nat.add_assoc]

theorem utf8ByteSize_textOf (ts : List Token) : (textOf ts).utf8ByteSize = sizeOf ts := by
  induction ts with
  | nil => rfl
  | cons t ts ih => rw [textOf_cons, String.utf8ByteSize_append, ih, sizeOf, size]

/-- A token with the tokens in front of it and those after it. -/
theorem take_append_cons_drop {ts : List Token} {i : Nat} {t : Token} (h : ts[i]? = some t) :
    ts.take i ++ t :: ts.drop (i + 1) = ts := by
  obtain ⟨hi, rfl⟩ := List.getElem?_eq_some_iff.1 h
  rw [List.getElem_cons_drop, List.take_append_drop]

/-- The span of a token starts after all tokens in front of it. -/
theorem getElem?_spans (start : Nat) (ts : List Token) (i : Nat) :
    (spans start ts)[i]? = ts[i]?.map fun t =>
      ⟨start + sizeOf (ts.take i), start + sizeOf (ts.take i) + t.size⟩ := by
  induction ts generalizing start i with
  | nil => rfl
  | cons t ts ih =>
    cases i with
    | zero => simp [spans, sizeOf]
    | succ i => simp [spans, sizeOf, ih, Nat.add_assoc]

theorem getElem?_spans_eq_some {ts : List Token} {i : Nat} {s : Span}
    (h : (spans 0 ts)[i]? = some s) : ∃ t, ts[i]? = some t ∧ s.start = sizeOf (ts.take i) ∧
      s.stop = sizeOf (ts.take i) + t.size := by
  rw [getElem?_spans, Option.map_eq_some_iff] at h
  obtain ⟨t, ht, rfl⟩ := h
  exact ⟨t, ht, Nat.zero_add _, by rw [Nat.zero_add]⟩

theorem sizeOf_take_succ {ts : List Token} {i : Nat} {t : Token} (h : ts[i]? = some t) :
    sizeOf (ts.take (i + 1)) = sizeOf (ts.take i) + t.size := by
  rw [List.take_add_one, h, sizeOf_append]
  rfl

end Token

/-- Each of some tokens is the slice of a source at its span, both ends of which are between two
characters; the first span starts at 0, each of the others where the one before it stops, and the last
one stops where the source does. -/
structure Tiling (source : String) (ts : List Token) (spans : List Span) : Prop where
  length : spans.length = ts.length
  slice : ∀ {i : Nat} {t : Token} {s : Span}, ts[i]? = some t → spans[i]? = some s →
    ∃ pre post, source = pre ++ t.text ++ post ∧ s.start = pre.utf8ByteSize ∧
      s.stop = s.start + t.text.utf8ByteSize
  first : ∀ {s : Span}, spans[0]? = some s → s.start = 0
  next : ∀ {i : Nat} {s s' : Span}, spans[i]? = some s → spans[i + 1]? = some s' →
    s'.start = s.stop
  last : (spans.getLast?.map Span.stop).getD 0 = source.utf8ByteSize

/-- Tokens tile the text that they cover. -/
theorem tiling_textOf (ts : List Token) : Tiling (Token.textOf ts) ts (Token.spans 0 ts) := by
  refine ⟨Token.length_spans 0 ts, ?_, ?_, ?_, ?_⟩
  · intro i t s ht hs
    obtain ⟨t', ht', hstart, hstop⟩ := Token.getElem?_spans_eq_some hs
    obtain rfl := Option.some.inj (ht.symm.trans ht')
    refine ⟨Token.textOf (ts.take i), Token.textOf (ts.drop (i + 1)), ?_, ?_, ?_⟩
    · rw [String.append_assoc, ← Token.textOf_cons, ← Token.textOf_append,
        Token.take_append_cons_drop ht]
    · rw [hstart, Token.utf8ByteSize_textOf]
    · rw [hstop, hstart]; rfl
  · intro s hs
    obtain ⟨t, -, hstart, -⟩ := Token.getElem?_spans_eq_some hs
    exact hstart
  · intro i s s' hs hs'
    obtain ⟨t, ht, -, hstop⟩ := Token.getElem?_spans_eq_some hs
    obtain ⟨t', -, hstart, -⟩ := Token.getElem?_spans_eq_some hs'
    rw [hstart, hstop, Token.sizeOf_take_succ ht]
  · rw [Token.utf8ByteSize_textOf, List.getLast?_eq_getElem?, Token.length_spans]
    cases h : (Token.spans 0 ts)[ts.length - 1]? with
    | none =>
      rw [List.getElem?_eq_none_iff, Token.length_spans] at h
      have : ts = [] := List.eq_nil_of_length_eq_zero (by omega)
      subst this
      rfl
    | some s =>
      obtain ⟨t, ht, -, hstop⟩ := Token.getElem?_spans_eq_some h
      have hlt : ts.length - 1 + 1 = ts.length := by
        have := (List.getElem?_eq_some_iff.1 ht).1
        omega
      rw [Option.map_some, Option.getD_some, hstop, ← Token.sizeOf_take_succ ht, hlt,
        List.take_length]

/-- A token that covers nothing is the mark of a block, or the end of the last line: then the source
is covered by the tokens in front of it. -/
theorem kind_of_size_eq_zero {source : String} {us vs : List Token} {t : Token}
    (h : tokensOf source = us ++ t :: vs) (ht : t.size = 0) : t.kind = .indent ∨
      t.kind = .dedent ∨ t.kind = .newline ∧ Token.sizeOf us = source.utf8ByteSize := by
  obtain ⟨as, ls, hlex, rfl, hls⟩ := List.map_eq_append_iff.1 h
  obtain ⟨l, bs, rfl, rfl, rfl⟩ := List.map_eq_cons_iff.1 hls
  have htext : l.token.text = "" := String.utf8ByteSize_eq_zero_iff.1 ht
  rcases Layout.mark_of_lexFrom as bs hlex htext with hk | hk | ⟨hk, hbs⟩
  · exact .inl hk
  · exact .inr (.inl hk)
  · refine .inr (.inr ⟨hk, ?_⟩)
    have hcovered : Token.textOf (bs.map Lexeme.token) = "" := by
      apply String.toList_injective
      rw [Token.textOf, String.toList_join, List.map_map, List.flatMap_map]
      exact hbs
    have hsize := Token.utf8ByteSize_textOf (tokensOf source)
    rw [textOf_tokensOf, h, Token.sizeOf_append, Token.sizeOf, ht,
      ← Token.utf8ByteSize_textOf (bs.map Lexeme.token), hcovered] at hsize
    simpa using hsize.symm

/-- The tree of a source has its tokens for leaves. -/
theorem leaves_parse (source : String) : (parse source).tree.leaves = tokensOf source := by
  have h := Grammar.leaves_readFile (tokensOf source)
  rw [Grammar.rest_readFile fun t => kind_ne_eof_of_mem_tokensOf, List.append_nil] at h
  exact (Tree.leaves_node _ _).trans h

theorem text_parse (source : String) : (parse source).tree.text = source := by
  rw [Tree.text, leaves_parse, textOf_tokensOf]

/-- The tokens of any source tile it; those that cover nothing are the marks of blocks, or the end of
the last line at the end of the source; and the tree of the source has these tokens, in order, for its
leaves, so the text of the tree is the source. -/
theorem tokens_tile_and_tree_keeps (source : String) :
    Tiling source (tokensOf source) (Token.spans 0 (tokensOf source)) ∧
    (∀ {i : Nat} {t : Token} {s : Span}, (tokensOf source)[i]? = some t →
      (Token.spans 0 (tokensOf source))[i]? = some s → s.start = s.stop →
        t.kind = .indent ∨ t.kind = .dedent ∨
          t.kind = .newline ∧ s.start = source.utf8ByteSize) ∧
    (parse source).tree.leaves = tokensOf source ∧
    (parse source).tree.text = source := by
  refine ⟨?_, ?_, leaves_parse source, text_parse source⟩
  · have h := tiling_textOf (tokensOf source)
    rwa [textOf_tokensOf] at h
  · intro i t s ht hs hempty
    obtain ⟨t', ht', hstart, hstop⟩ := Token.getElem?_spans_eq_some hs
    obtain rfl := Option.some.inj (ht.symm.trans ht')
    rw [hstart]
    exact kind_of_size_eq_zero (Token.take_append_cons_drop ht).symm (by omega)

end Renumber
