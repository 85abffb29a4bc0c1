import Renumber.Proofs.LineEndings
import Renumber.Proofs.Strings

/-!
# Errors in their places

Every error of a source is about a token of it, or about its end. So the ends of its span lie between
characters of the source, in order (`exists_tokens_of_mem_errors`). The errors are sorted by where they start,
and as the sort is stable (`filter_mergeSort_le`), those of the reading stay in the order in which they were
found, behind the lexical ones that start at the same place.

A place between two characters has a line and a column of its own, and the places come in the order of their
lines and columns (`Text.Position.before_ofOffset_iff`). So the position that is reported of a source with a
problem says where the first of its errors starts (`errors_in_order`).
-/

namespace Renumber

/-! ## Sorting -/

section
variable {α : Type} (key : α → Nat) {xs : List α}

theorem le_key_trans (a b c : α) (hab : decide (key a ≤ key b) = true)
    (hbc : decide (key b ≤ key c) = true) : decide (key a ≤ key c) = true :=
  decide_eq_true ((of_decide_eq_true hab).trans (of_decide_eq_true hbc))

theorem le_key_total (a b : α) : (decide (key a ≤ key b) || decide (key b ≤ key a)) = true := by
  simpa using Nat.le_total (key a) (key b)

theorem pairwise_mergeSort_le :
    (xs.mergeSort fun a b => decide (key a ≤ key b)).Pairwise fun a b => key a ≤ key b :=
  (List.pairwise_mergeSort (le_key_trans key) (le_key_total key) xs).imp fun hle => of_decide_eq_true hle

/-- Sorting leaves what is in order in the order that it has. -/
theorem filter_mergeSort_le {p : α → Bool} (h : (xs.filter p).Pairwise fun a b => key a ≤ key b) :
    (xs.mergeSort fun a b => decide (key a ≤ key b)).filter p = xs.filter p := by
  have hkept : (xs.filter p).Sublist (xs.mergeSort fun a b => decide (key a ≤ key b)) :=
    List.sublist_mergeSort (le_key_trans key) (le_key_total key) (h.imp fun hle => decide_eq_true hle)
      List.filter_sublist
  have hsub := hkept.filter p
  rw [List.filter_filter] at hsub
  simp only [Bool.and_self] at hsub
  exact (hsub.eq_of_length ((List.mergeSort_perm xs _).filter p).length_eq.symm).symm

end

/-! ## Positions -/

namespace Text

/-- A position on an earlier line, or on the same line in an earlier column. -/
def Position.Before (p q : Position) : Prop :=
  p.line < q.line ∨ p.line = q.line ∧ p.column < q.column

instance (p q : Position) : Decidable (p.Before q) := inferInstanceAs (Decidable (_ ∨ _))

theorem Position.Before.irrefl (p : Position) : ¬ p.Before p := by
  unfold Before
  omega

theorem Position.Before.asymm {p q : Position} (h : p.Before q) : ¬ q.Before p := by
  unfold Before at h ⊢
  omega

/-- Characters further on in a text have a later position. -/
theorem Position.after_before (as : List Char) {bs : List Char} (h : bs ≠ []) :
    (after as).Before (after (as ++ bs)) := by
  by_cases hfeed : '\n' ∈ bs
  · have := List.count_pos_iff.2 hfeed
    refine .inl ?_
    simp only [after, List.count_append]
    omega
  · have hnone := List.count_eq_zero.2 hfeed
    have hlength := List.length_pos_iff.2 h
    refine .inr ⟨?_, ?_⟩
    · simp only [after, List.count_append, hnone, Nat.add_zero]
    · simp only [after]
      rw [List.reverse_append, List.takeWhile_append_of_pos fun c hc => ?_, List.length_append,
        List.length_reverse]
      · omega
      · simp only [ne_eq, decide_eq_true_eq]
        rintro rfl
        exact hfeed (List.mem_reverse.1 hc)

/-- Between two characters of a text, or at an end of it. -/
theorem exists_before_of_isValid {source : String} {n : Nat} (h : (⟨n⟩ : String.Pos.Raw).IsValid source) :
    ∃ as bs, source.toList = as ++ bs ∧ String.utf8Len as = n ∧
      Position.ofOffset source n = .after as := by
  obtain ⟨s, t, rfl, hn⟩ := String.Pos.Raw.isValid_iff_exists_append.1 h
  have hn : n = String.utf8Len s.toList := by
    rw [String.utf8Len_toList]
    exact congrArg String.Pos.Raw.byteIdx hn
  refine ⟨s.toList, t.toList, String.toList_append, hn.symm, ?_⟩
  rw [Position.ofOffset, hn, String.toList_append, upTo_utf8Len]

theorem Position.before_ofOffset {source : String} {m n : Nat} (hm : (⟨m⟩ : String.Pos.Raw).IsValid source)
    (hn : (⟨n⟩ : String.Pos.Raw).IsValid source) (h : m < n) :
    (ofOffset source m).Before (ofOffset source n) := by
  obtain ⟨as, bs, htext, rfl, hposition⟩ := exists_before_of_isValid hm
  obtain ⟨as', bs', htext', rfl, hposition'⟩ := exists_before_of_isValid hn
  rw [hposition, hposition']
  rcases List.append_eq_append_iff.1 (htext.symm.trans htext') with ⟨cs, rfl, -⟩ | ⟨cs, rfl, -⟩
  · refine after_before as ?_
    rintro rfl
    rw [List.append_nil] at h
    exact Nat.lt_irrefl _ h
  · rw [String.utf8Len_append] at h
    omega

/-- Positions between characters come in the order of the offsets. -/
theorem Position.before_ofOffset_iff {source : String} {m n : Nat}
    (hm : (⟨m⟩ : String.Pos.Raw).IsValid source) (hn : (⟨n⟩ : String.Pos.Raw).IsValid source) :
    (ofOffset source m).Before (ofOffset source n) ↔ m < n := by
  refine ⟨fun h => ?_, before_ofOffset hm hn⟩
  rcases Nat.lt_trichotomy m n with hlt | rfl | hlt
  · exact hlt
  · exact absurd h (Before.irrefl _)
  · exact absurd h (before_ofOffset hn hm hlt).asymm

/-- The position between characters determines the offset. -/
theorem Position.ofOffset_inj {source : String} {m n : Nat}
    (hm : (⟨m⟩ : String.Pos.Raw).IsValid source) (hn : (⟨n⟩ : String.Pos.Raw).IsValid source) :
    ofOffset source m = ofOffset source n ↔ m = n := by
  refine ⟨fun h => ?_, fun h => by rw [h]⟩
  rcases Nat.lt_trichotomy m n with hlt | heq | hlt
  · exact absurd (h ▸ before_ofOffset hm hn hlt) (Before.irrefl _)
  · exact heq
  · exact absurd (h ▸ before_ofOffset hn hm hlt) (Before.irrefl _)

end Text

/-! ## Spans -/

/-- Tokens end between characters of the source. -/
theorem isValid_sizeOf {source : String} {us : List Token} (h : us <+: tokensOf source) :
    (⟨Token.sizeOf us⟩ : String.Pos.Raw).IsValid source := by
  obtain ⟨vs, hvs⟩ := h
  refine String.Pos.Raw.isValid_iff_exists_append.2 ⟨Token.textOf us, Token.textOf vs, ?_, ?_⟩
  · rw [← Token.textOf_append, hvs, textOf_tokensOf]
  · rw [← Token.utf8ByteSize_textOf]
    rfl

/-- The span of an error is that of one of the tokens, or of none where the text ends. -/
theorem exists_tokens_of_mem_errors {source : String} {e : ParseError} (h : e ∈ (parse source).errors) :
    ∃ us vs, us ++ vs <+: tokensOf source ∧
      e.span = ⟨Token.sizeOf us, Token.sizeOf us + Token.sizeOf vs⟩ := by
  rcases List.mem_append.1 (List.mem_mergeSort.1 h) with h | h
  · obtain ⟨⟨l, span⟩, hmem, hp⟩ := List.mem_filterMap.1 h
    obtain ⟨p, -, rfl⟩ := Option.map_eq_some_iff.1 hp
    obtain ⟨i, hi⟩ := List.getElem?_of_mem (List.of_mem_zip hmem).2
    obtain ⟨t, ht, hstart, hstop⟩ := Token.getElem?_spans_eq_some hi
    refine ⟨(tokensOf source).take i, [t], ?_, ?_⟩
    · have hnext : (tokensOf source).take i ++ [t] = (tokensOf source).take (i + 1) := by
        rw [List.take_add_one, show (tokensOf source)[i]? = some t from ht]
        rfl
      rw [hnext]
      exact List.take_prefix _ _
    · show span = _
      rw [show span = ⟨span.start, span.stop⟩ from rfl, hstart, hstop]
      rfl
  · obtain ⟨f, hf, rfl⟩ := List.mem_map.1 h
    obtain ⟨us, hus⟩ := ((Grammar.inOrder_readFile (tokensOf source)).within f hf).trans
      (Grammar.upcoming_suffix _)
    have hstart : Token.sizeOf (tokensOf source) - Token.sizeOf f.rest = Token.sizeOf us := by
      rw [← hus, Token.sizeOf_append, Nat.add_sub_cancel]
    refine ⟨us, f.rest.take 1, ?_, ?_⟩
    · rw [← hus, List.prefix_append_right_inj]
      exact List.take_prefix _ _
    · show (Fault.error (Token.sizeOf (tokensOf source)) f).span = _
      rw [Fault.error, hstart]
      cases f.rest <;> rfl

/-- The text in front of an error. -/
theorem exists_text_of_mem_errors {source : String} {e : ParseError}
    (h : e ∈ (parse source).errors) : ∃ before rest, source.toList = before ++ rest ∧
      String.utf8Len before = e.span.start ∧ e.position source = Text.Position.after before := by
  obtain ⟨us, vs, hprefix, hspan⟩ := exists_tokens_of_mem_errors h
  have hvalid := isValid_sizeOf ((List.prefix_append us vs).trans hprefix)
  rw [ParseError.position, hspan]
  exact Text.exists_before_of_isValid hvalid

/-! ## The order of the errors -/

/-- The error was found by the reading, and not among the lexemes. -/
def ParseError.isSyntactic (e : ParseError) : Bool :=
  match e.problem with
  | .lexical _ => false
  | .syntactic _ => true

/-- The errors of faults that come in order start in order. -/
theorem Grammar.Reading.InOrder.pairwise_start {ts : List Token} {r : Reading} (h : r.InOrder ts)
    (total : Nat) :
    (r.faults.map (Fault.error total)).Pairwise fun e f => e.span.start ≤ f.span.start := by
  rw [List.pairwise_map]
  refine h.pairwise.imp fun {f f'} hle => ?_
  obtain ⟨us, hus⟩ := hle
  have hsize : Token.sizeOf f'.rest ≤ Token.sizeOf f.rest := by
    rw [← hus, Token.sizeOf_append]
    exact Nat.le_add_left _ _
  exact Nat.sub_le_sub_left hsize total

theorem pairwise_errorsFrom (start : Nat) (ls : List Lexeme) :
    (errorsFrom start ls).Pairwise fun e f => e.span.start ≤ f.span.start := by
  induction ls generalizing start with
  | nil => exact .nil
  | cons l ls ih =>
    rw [errorsFrom_cons, List.pairwise_append]
    refine ⟨?_, ih _, fun e he f hf => ?_⟩
    · cases l.problem? with
      | none => exact .nil
      | some p => exact List.pairwise_singleton _ _
    · rw [Option.mem_toList, Option.map_eq_some_iff] at he
      obtain ⟨p, -, rfl⟩ := he
      exact (Nat.le_add_right _ _).trans (bounds_of_mem_errorsFrom hf).1

theorem not_isSyntactic_of_mem {ls : List Lexeme} {e : ParseError} (h : e ∈ lexicalErrors ls) :
    e.isSyntactic = false := by
  obtain ⟨⟨l, span⟩, -, hp⟩ := List.mem_filterMap.1 h
  obtain ⟨p, -, rfl⟩ := Option.map_eq_some_iff.1 hp
  rfl

/-- The errors that reading a list of tokens comes upon, in this order. -/
def syntacticErrors (ts : List Token) : List ParseError :=
  (Grammar.readFile ts).faults.map (Fault.error (Token.sizeOf ts))

theorem isSyntactic_of_mem {ts : List Token} {e : ParseError} (h : e ∈ syntacticErrors ts) :
    e.isSyntactic = true := by
  obtain ⟨f, -, rfl⟩ := List.mem_map.1 h
  rfl

theorem pairwise_syntacticErrors (ts : List Token) :
    (syntacticErrors ts).Pairwise fun e f => e.span.start ≤ f.span.start :=
  (Grammar.inOrder_readFile ts).pairwise_start _

/-- Errors in the order in which they were found, if that is the order in which they start. -/
theorem filter_errors (source : String) (p : ParseError → Bool)
    (h : ((lexicalErrors (lex source) ++ syntacticErrors (tokensOf source)).filter p).Pairwise
      fun e f => e.span.start ≤ f.span.start) :
    (parse source).errors.filter p =
      (lexicalErrors (lex source)).filter p ++ (syntacticErrors (tokensOf source)).filter p :=
  (filter_mergeSort_le (fun e : ParseError => e.span.start) h).trans (List.filter_append ..)

theorem filter_isSyntactic (source : String) :
    (parse source).errors.filter ParseError.isSyntactic = syntacticErrors (tokensOf source) := by
  have hlexical : (lexicalErrors (lex source)).filter ParseError.isSyntactic = [] :=
    List.filter_eq_nil_iff.2 fun e he => by simp [not_isSyntactic_of_mem he]
  have hsyntactic : (syntacticErrors (tokensOf source)).filter ParseError.isSyntactic =
      syntacticErrors (tokensOf source) :=
    List.filter_eq_self.2 fun e he => isSyntactic_of_mem he
  have hall := filter_errors source ParseError.isSyntactic
  rw [List.filter_append, hlexical, hsyntactic, List.nil_append] at hall
  exact hall (pairwise_syntacticErrors _)

/-- The errors of a source without lexical problems are the faults of its reading, which come in the
order of their spans. -/
theorem errors_parse {source : String} (h : lexicalErrors (lex source) = []) :
    (parse source).errors = syntacticErrors (tokensOf source) := by
  refine (List.filter_eq_self.2 fun e he => ?_).symm.trans (filter_isSyntactic source)
  rcases List.mem_append.1 (List.mem_mergeSort.1 he) with he | he
  · rw [h] at he
    cases he
  · exact isSyntactic_of_mem he

theorem filter_not_isSyntactic (source : String) :
    (parse source).errors.filter (fun e => !e.isSyntactic) = lexicalErrors (lex source) := by
  have hlexical : (lexicalErrors (lex source)).filter (fun e => !e.isSyntactic) =
      lexicalErrors (lex source) :=
    List.filter_eq_self.2 fun e he => by simp [not_isSyntactic_of_mem he]
  have hsyntactic : (syntacticErrors (tokensOf source)).filter (fun e => !e.isSyntactic) = [] :=
    List.filter_eq_nil_iff.2 fun e he => by simp [isSyntactic_of_mem he]
  have hall := filter_errors source fun e => !e.isSyntactic
  rw [List.filter_append, hlexical, hsyntactic, List.append_nil] at hall
  exact hall (pairwise_errorsFrom 0 (lex source))

/-- The errors that start at one place. -/
theorem filter_start (source : String) (n : Nat) :
    (parse source).errors.filter (fun e => e.span.start == n) =
      (lexicalErrors (lex source)).filter (fun e => e.span.start == n) ++
        (syntacticErrors (tokensOf source)).filter (fun e => e.span.start == n) := by
  refine filter_errors source _ (List.pairwise_of_forall_mem_list fun e he f hf => ?_)
  have hstart := eq_of_beq (List.mem_filter.1 he).2
  have hstart' := eq_of_beq (List.mem_filter.1 hf).2
  exact Nat.le_of_eq (hstart.trans hstart'.symm)

/-! ## Errors and their positions -/

/-- The errors of a source. Their spans lie between characters of the source. They are sorted by where they
start; those of the reading are in the order in which they were found, and behind the lexical ones that start
at the same place. What is reported is the first error and the position of it, and no error has a position
before that. Of errors that start between characters, the one that starts first has the first position, so
that a position is that of one place only. -/
theorem errors_in_order (source : String) :
    let errors := (parse source).errors
    (∀ e ∈ errors, e.span.start ≤ e.span.stop ∧ e.span.stop ≤ source.utf8ByteSize ∧
      (⟨e.span.start⟩ : String.Pos.Raw).IsValid source ∧
      (⟨e.span.stop⟩ : String.Pos.Raw).IsValid source) ∧
    errors.Pairwise (fun e f => e.span.start ≤ f.span.start) ∧
    (errors.filter ParseError.isSyntactic = syntacticErrors (tokensOf source) ∧
      errors.filter (fun e => !e.isSyntactic) = lexicalErrors (lex source) ∧
      ∀ n, errors.filter (fun e => e.span.start == n) =
        (lexicalErrors (lex source)).filter (fun e => e.span.start == n) ++
          (syntacticErrors (tokensOf source)).filter (fun e => e.span.start == n)) ∧
    ((errors = [] → (parse source).result source = .ok (parse source).tree) ∧
      ∀ e es, errors = e :: es →
        (parse source).result source = .error (.parse Failure.inMemory e.problem.message
          (e.position source).line (e.position source).column) ∧
        ∀ f ∈ es, ¬ (f.position source).Before (e.position source)) ∧
    ∀ e f : ParseError, (⟨e.span.start⟩ : String.Pos.Raw).IsValid source →
      (⟨f.span.start⟩ : String.Pos.Raw).IsValid source →
      ((e.position source).Before (f.position source) ↔ e.span.start < f.span.start) ∧
      (e.position source = f.position source ↔ e.span.start = f.span.start) := by
  intro errors
  have hvalid (e : ParseError) (he : e ∈ errors) : (⟨e.span.start⟩ : String.Pos.Raw).IsValid source := by
    obtain ⟨us, vs, hprefix, hspan⟩ := exists_tokens_of_mem_errors he
    rw [hspan]
    exact isValid_sizeOf ((List.prefix_append us vs).trans hprefix)
  have hsorted : errors.Pairwise fun e f => e.span.start ≤ f.span.start :=
    pairwise_mergeSort_le fun e : ParseError => e.span.start
  refine ⟨fun e he => ?_, hsorted, ⟨filter_isSyntactic source, filter_not_isSyntactic source,
    filter_start source⟩, ⟨fun hnil => ?_, fun e es hcons => ⟨?_, fun f hf => ?_⟩⟩, fun e f he hf =>
    ⟨Text.Position.before_ofOffset_iff he hf, Text.Position.ofOffset_inj he hf⟩⟩
  · have hstart := hvalid e he
    obtain ⟨us, vs, hprefix, hspan⟩ := exists_tokens_of_mem_errors he
    have hstop := isValid_sizeOf hprefix
    rw [Token.sizeOf_append] at hstop
    have hle := hstop.le_utf8ByteSize
    rw [hspan] at hstart ⊢
    exact ⟨Nat.le_add_right _ _, hle, hstart, hstop⟩
  · unfold Parse.result
    rw [show (parse source).errors = [] from hnil]
  · unfold Parse.result
    rw [show (parse source).errors = e :: es from hcons]
    rfl
  · have hle : e.span.start ≤ f.span.start := (List.pairwise_cons.1 (hcons ▸ hsorted)).1 f hf
    have he := hvalid e (hcons ▸ List.mem_cons_self)
    have hf := hvalid f (hcons ▸ List.mem_cons_of_mem e hf)
    exact fun h => Nat.not_lt.2 hle ((Text.Position.before_ofOffset_iff hf he).1 h)

/-- Three errors at one place, as an indent takes no room. -/
example : (parse "  ?)\n").errors = [⟨.lexical (.unexpectedCharacter '?'), ⟨2, 3⟩⟩,
    ⟨.syntactic .unexpectedIndent, ⟨2, 2⟩⟩, ⟨.syntactic .invalidSyntax, ⟨2, 3⟩⟩] := by
  cbv

end Renumber
