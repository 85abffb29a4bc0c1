import Renumber.Proofs.Layout.Step
import Renumber.Proofs.Sound

/-!
# Where strings end

A string goes up to the first place where its quotes close it (`Lexeme.Closed`): the characters in front of them
are read one by one, but a backslash together with the character behind it, and a string in single quotes stays in
its line. A string that nothing closes there goes up to the end of its line, or of the text, and is reported once
(`Lexeme.RunsOut`). What `Lexeme.bodyLength` counts is one of the two (`exists_body`), and a string starts in front
of its letters and quotes whatever stands there (`scan_of_start`, `exists_start_of_str`).
-/

namespace Renumber

open Text (isBreak)

namespace Lexeme

/-! ## Bodies -/

/-- The quotes that open a string, and those that close it. -/
def quotes (c : Char) (triple : Bool) : List Char := if triple then [c, c, c] else [c]

/-- Characters that end between two units: a backslash and the character behind it are one. -/
inductive Whole : List Char → Prop
  | nil : Whole []
  | escape (c : Char) {cs : List Char} (h : Whole cs) : Whole ('\\' :: c :: cs)
  | plain {c : Char} {cs : List Char} (hc : c ≠ '\\') (h : Whole cs) : Whole (c :: cs)

/-- Every line break has a backslash in front of it that takes it along. -/
def Unbroken (b : List Char) : Prop := ∀ as x bs, b = as ++ x :: bs → Whole as → isBreak x = false

/-- The body of a string, with quotes behind it that close it: they do not close it anywhere before. -/
structure Closed (q b : List Char) : Prop where
  whole : Whole b
  first : ∀ as bs, b ++ q = as ++ q ++ bs → Whole as → as = b
  line : q.length = 1 → Unbroken b

/-- The body of a string that nothing closes, with the rest of the text behind it. -/
structure RunsOut (q b rest : List Char) : Prop where
  ends : rest = [] ∨ q.length = 1 ∧ Whole b ∧ ∃ x xs, rest = x :: xs ∧ isBreak x = true
  line : q.length = 1 → Unbroken b

section
variable {c : Char} {cs b q rest : List Char}

theorem Unbroken.nil : Unbroken [] := by
  intro as x bs h
  simp at h

theorem Unbroken.slash : Unbroken ['\\'] := by
  intro as x bs h has
  cases as with
  | nil =>
    obtain ⟨rfl, -⟩ := List.cons.inj h
    rfl
  | cons a as => simpa using (List.cons.inj h).2

theorem Unbroken.escape (h : Unbroken b) (c : Char) : Unbroken ('\\' :: c :: b) := by
  intro as x bs heq has
  cases has with
  | nil =>
    obtain ⟨rfl, -⟩ := List.cons.inj heq
    rfl
  | escape d has =>
    obtain ⟨-, heq⟩ := List.cons.inj heq
    exact h _ _ _ (List.cons.inj heq).2 has
  | plain hd => exact absurd (List.cons.inj heq).1.symm hd

theorem Unbroken.plain (h : Unbroken b) (hc : c ≠ '\\') (hbreak : isBreak c = false) : Unbroken (c :: b) := by
  intro as x bs heq has
  cases has with
  | nil =>
    obtain ⟨rfl, -⟩ := List.cons.inj heq
    exact hbreak
  | escape => exact absurd (List.cons.inj heq).1 hc
  | plain _ has => exact h _ _ _ (List.cons.inj heq).2 has

/-- Quotes that come at once close nothing before. -/
theorem Closed.nil (q : List Char) : Closed q [] where
  whole := .nil
  first as bs h _ := by
    have := congrArg List.length h
    simp only [List.nil_append, List.length_append] at this
    exact List.length_eq_zero_iff.1 (by omega)
  line _ := .nil

theorem Closed.escape (h : Closed q b) (hq : q.head? ≠ some '\\') (hne : q ≠ []) (c : Char) :
    Closed q ('\\' :: c :: b) where
  whole := h.whole.escape c
  first as bs heq has := by
    cases has with
    | nil =>
      obtain ⟨a, q, rfl⟩ := List.exists_cons_of_ne_nil hne
      exact absurd (congrArg some (List.cons.inj heq).1.symm) hq
    | escape d has =>
      obtain ⟨rfl, hrest⟩ := List.cons.inj (List.cons.inj heq).2
      rw [h.first _ _ hrest has]
    | plain hd => exact absurd (List.cons.inj heq).1.symm hd
  line hlength := (h.line hlength).escape c

theorem Closed.plain (h : Closed q b) (hc : c ≠ '\\') (hquote : ¬q <+: c :: (b ++ q))
    (hbreak : q.length = 1 → isBreak c = false) : Closed q (c :: b) where
  whole := h.whole.plain hc
  first as bs heq has := by
    cases has with
    | nil => exact absurd ⟨bs, heq.symm⟩ hquote
    | escape => exact absurd (List.cons.inj heq).1 hc
    | plain _ has =>
      obtain ⟨rfl, hrest⟩ := List.cons.inj heq
      rw [h.first _ _ hrest has]
  line hlength := (h.line hlength).plain hc (hbreak hlength)

theorem RunsOut.escape (h : RunsOut q b rest) (c : Char) : RunsOut q ('\\' :: c :: b) rest where
  ends := h.ends.imp_right fun ⟨hlength, hwhole, hrest⟩ => ⟨hlength, hwhole.escape c, hrest⟩
  line hlength := (h.line hlength).escape c

theorem RunsOut.plain (h : RunsOut q b rest) (hc : c ≠ '\\') (hbreak : q.length = 1 → isBreak c = false) :
    RunsOut q (c :: b) rest where
  ends := h.ends.imp_right fun ⟨hlength, hwhole, hrest⟩ => ⟨hlength, hwhole.plain hc, hrest⟩
  line hlength := (h.line hlength).plain hc (hbreak hlength)

end

section
variable {quote : Char}

theorem length_quotes {triple : Bool} : (quotes quote triple).length = 1 ↔ triple = false := by
  cases triple <;> simp [quotes]

/-- How far the body of a string goes: up to the quotes that close it first, or to where nothing closes it. -/
theorem exists_body (hquote : quote ≠ '\\') (triple : Bool) (cs : List Char) :
    ((bodyLength quote triple cs).2 = true ∧ ∃ b rest, cs = b ++ quotes quote triple ++ rest ∧
      Closed (quotes quote triple) b ∧ (bodyLength quote triple cs).1 = (b ++ quotes quote triple).length) ∨
    ((bodyLength quote triple cs).2 = false ∧ ∃ b rest, cs = b ++ rest ∧
      RunsOut (quotes quote triple) b rest ∧ (bodyLength quote triple cs).1 = b.length) := by
  fun_induction bodyLength quote triple cs with
  | case1 => exact .inr ⟨rfl, [], [], rfl, ⟨.inl rfl, fun _ => .nil⟩, rfl⟩
  | case2 => exact .inr ⟨rfl, ['\\'], [], rfl, ⟨.inl rfl, fun _ => .slash⟩, rfl⟩
  | case3 c cs n closed hbody ih =>
    rw [hbody] at ih
    refine ih.imp ?_ ?_
    · rintro ⟨hclosed, b, rest, rfl, hb, hn⟩
      refine ⟨hclosed, '\\' :: c :: b, rest, rfl, hb.escape ?_ ?_ c, ?_⟩
      · cases triple <;> simp [quotes, hquote]
      · cases triple <;> simp [quotes]
      · simp only [List.cons_append, List.length_cons] at hn ⊢
        omega
    · rintro ⟨hclosed, b, rest, rfl, hb, hn⟩
      refine ⟨hclosed, '\\' :: c :: b, rest, rfl, hb.escape c, ?_⟩
      simp only [List.length_cons] at hn ⊢
      omega
  | case4 c cs h₁ h₂ hbreak =>
    rw [Bool.and_eq_true, Bool.not_eq_true'] at hbreak
    exact .inr ⟨rfl, [], c :: cs, rfl,
      ⟨.inr ⟨length_quotes.2 hbreak.2, .nil, c, cs, rfl, hbreak.1⟩, fun _ => .nil⟩, rfl⟩
  | case5 c cs h₁ h₂ hbreak hclose =>
    rw [Bool.and_eq_true, Bool.not_eq_true', beq_iff_eq] at hclose
    obtain ⟨rfl, rfl⟩ := hclose
    exact .inl ⟨rfl, [], cs, rfl, .nil _, rfl⟩
  | case6 c cs h₁ h₂ hbreak hsingle hclose =>
    rw [Bool.and_eq_true, beq_iff_eq] at hclose
    obtain ⟨rfl, hclose⟩ := hclose
    obtain ⟨rest, rfl⟩ := exists_of_long cs hclose
    have htriple : triple = true := by simpa using hsingle
    subst htriple
    exact .inl ⟨rfl, [], rest, rfl, .nil _, rfl⟩
  | case7 c cs h₁ h₂ hbreak hsingle hclose n closed hbody ih =>
    have hc := ne_slash h₁ h₂
    have hline (hlength : (quotes quote triple).length = 1) : isBreak c = false := by
      simpa [length_quotes.1 hlength] using hbreak
    rw [hbody] at ih
    refine ih.imp ?_ ?_
    · rintro ⟨hclosed, b, rest, rfl, hb, hn⟩
      refine ⟨hclosed, c :: b, rest, rfl, hb.plain hc ?_ hline, ?_⟩
      · -- Quotes here would have closed the string.
        rintro ⟨zs, hzs⟩
        cases triple with
        | false =>
          obtain rfl : quote = c := (List.cons.inj hzs).1
          exact hsingle (by simp)
        | true =>
          obtain ⟨rfl, htwo⟩ : quote = c ∧ quote :: quote :: zs = b ++ quotes quote true := List.cons.inj hzs
          exact hclose (by rw [← htwo]; simp)
      · simp only [List.cons_append, List.length_cons] at hn ⊢
        omega
    · rintro ⟨hclosed, b, rest, rfl, hb, hn⟩
      refine ⟨hclosed, c :: b, rest, rfl, hb.plain hc hline, ?_⟩
      simp only [List.length_cons] at hn ⊢
      omega

/-- A string has three quotes where three of them stand, and then its body. -/
theorem exists_opening (n : Nat) (quote : Char) (cs : List Char) :
    ∃ triple inner, (triple = true ↔ [quote, quote, quote] <+: quote :: cs) ∧
      quote :: cs = quotes quote triple ++ inner ∧
      (string n quote cs).more + 1 =
        n + (quotes quote triple).length + (bodyLength quote triple inner).1 ∧
      (string n quote cs).problem? =
        if (bodyLength quote triple inner).2 then none else some .unterminatedString := by
  cases hlong : cs.take 2 == [quote, quote] with
  | true =>
    obtain ⟨inner, rfl⟩ := exists_of_long cs hlong
    rw [string_of_long]
    refine ⟨true, inner, by simp, rfl, ?_, rfl⟩
    simp only [quotes, ↓reduceIte, List.length_cons, List.length_nil]
    omega
  | false =>
    rw [string_of_not_long _ _ hlong]
    refine ⟨false, cs, ?_, rfl, ?_, rfl⟩
    · refine iff_of_false Bool.false_ne_true fun ⟨rest, hrest⟩ => ?_
      obtain rfl : quote :: quote :: rest = cs := (List.cons.inj hrest).2
      simp at hlong
    · simp only [quotes, Bool.false_eq_true, ↓reduceIte, List.length_singleton]
      omega

/-- What a string is whose opening quote comes after some letters: its body is closed, or it runs out. -/
theorem exists_string (n : Nat) (hquote : quote ≠ '\\') (cs : List Char) :
    ∃ triple b rest, (triple = true ↔ [quote, quote, quote] <+: quote :: cs) ∧
      ((quote :: cs = quotes quote triple ++ b ++ quotes quote triple ++ rest ∧
          Closed (quotes quote triple) b ∧ (string n quote cs).problem? = none ∧
          (string n quote cs).more + 1 = n + (quotes quote triple ++ b ++ quotes quote triple).length) ∨
        (quote :: cs = quotes quote triple ++ b ++ rest ∧ RunsOut (quotes quote triple) b rest ∧
          (string n quote cs).problem? = some .unterminatedString ∧
          (string n quote cs).more + 1 = n + (quotes quote triple ++ b).length)) := by
  obtain ⟨triple, inner, htriple, hcs, hmore, hproblem⟩ := exists_opening n quote cs
  rw [hcs, hmore, hproblem]
  obtain ⟨hclosed, b, rest, hinner, hb, hlength⟩ | ⟨hclosed, b, rest, hinner, hb, hlength⟩ :=
    exists_body hquote triple inner
  · refine ⟨triple, b, rest, hcs ▸ htriple, .inl ⟨?_, hb, if_pos hclosed, ?_⟩⟩
    · rw [hinner]
      simp only [List.append_assoc]
    · simp only [hlength, List.length_append]
      omega
  · refine ⟨triple, b, rest, hcs ▸ htriple, .inr ⟨?_, hb, ?_, ?_⟩⟩
    · rw [hinner, List.append_assoc]
    · rw [hclosed]
      exact if_neg Bool.false_ne_true
    · simp only [hlength, List.length_append]
      omega

end

/-! ## Letters and quotes -/

section
variable {c : Char} {cs rest letters : List Char}

theorem ne_slash_of_isQuote (hc : isQuote c = true) : c ≠ '\\' := by
  rintro rfl
  cases hc

/-- A quote goes on with no name. -/
theorem not_continuesName_of_isQuote (hc : isQuote c = true) : continuesName c = false := by
  rw [isQuote, Bool.or_eq_true, beq_iff_eq, beq_iff_eq] at hc
  rcases hc with rfl | rfl <;> decide

theorem scanner_of_isQuote (hc : isQuote c = true) (cs : List Char) : Scanner.of c cs = .string := by
  rw [isQuote, Bool.or_eq_true, beq_iff_eq, beq_iff_eq] at hc
  rcases hc with rfl | rfl <;> rfl

theorem scanner_of_isStringLetter (hc : isStringLetter c = true) (cs : List Char) :
    Scanner.of c cs = .word := by
  simp only [isStringLetter, Bool.or_eq_true, beq_iff_eq] at hc
  rcases hc with ((((((rfl | rfl) | rfl) | rfl) | rfl) | rfl) | rfl) | rfl <;> rfl

theorem continuesName_of_isStringLetter (hc : isStringLetter c = true) : continuesName c = true := by
  simp only [isStringLetter, Bool.or_eq_true, beq_iff_eq] at hc
  rcases hc with ((((((rfl | rfl) | rfl) | rfl) | rfl) | rfl) | rfl) | rfl <;> decide +kernel

/-- A string starts with no line break. -/
theorem not_isBreak_of_start (hletters : isStringLetters letters = true) (hc : isQuote c = true)
    {a : Char} {as : List Char} (h : a :: as = letters ++ c :: rest) : isBreak a = false := by
  cases letters with
  | nil =>
    obtain ⟨rfl, -⟩ := List.cons.inj h
    rw [isQuote, Bool.or_eq_true, beq_iff_eq, beq_iff_eq] at hc
    rcases hc with rfl | rfl <;> rfl
  | cons l letters =>
    obtain ⟨rfl, -⟩ : a = l ∧ as = letters ++ c :: rest := List.cons.inj h
    have hall := (Bool.and_eq_true_iff.1 hletters).2
    rw [List.all_cons, Bool.and_eq_true] at hall
    have hname := continuesName_of_isStringLetter hall.1
    refine Bool.eq_false_iff.2 fun hbreak => ?_
    rw [not_continuesName_of_isBoundary (isBoundary_of_isBreak hbreak)] at hname
    cases hname

/-- A string is scanned in front of its letters and its quote. -/
theorem scan_of_start (hletters : isStringLetters letters = true) (hc : isQuote c = true)
    {a : Char} {as : List Char} (h : a :: as = letters ++ c :: rest) :
    Reach.scan a as = string letters.length c rest := by
  cases letters with
  | nil =>
    obtain ⟨rfl, rfl⟩ := List.cons.inj h
    rw [scan_eq, scanner_of_isQuote hc]
    rfl
  | cons l letters =>
    obtain ⟨rfl, has⟩ : a = l ∧ as = letters ++ c :: rest := List.cons.inj h
    subst has
    have hall := (Bool.and_eq_true_iff.1 hletters).2
    rw [List.all_cons, Bool.and_eq_true, List.all_eq_true] at hall
    have hnames : ∀ x ∈ letters, continuesName x = true := fun x hx =>
      continuesName_of_isStringLetter (hall.2 x hx)
    have hquote := not_continuesName_of_isQuote hc
    have htake : (letters ++ c :: rest).takeWhile continuesName = letters := by
      rw [takeWhile_append_cons hquote, List.takeWhile_eq_self_iff.2 hnames]
    have hdrop : (letters ++ c :: rest).dropWhile continuesName = c :: rest := by
      rw [dropWhile_append_cons hquote, List.dropWhile_eq_nil_iff.2 hnames, List.nil_append]
    rw [scan_eq, scanner_of_isStringLetter hall.1, Scanner.reach,
      word_of_letters hdrop (by rw [htake, hc, hletters]; rfl), runLength, htake, List.length_cons]

/-- Where a string is scanned, its letters and its quote stand. -/
theorem exists_start_of_str {a : Char} {as : List Char} (h : (Reach.scan a as).kind = .str) :
    ∃ letters c rest, a :: as = letters ++ c :: rest ∧ isStringLetters letters = true ∧
      isQuote c = true := by
  rcases scanner_of_str h with hs | hs
  · exact ⟨[], a, as, rfl, rfl, isQuote_of_string hs⟩
  · rw [scan_eq, hs, Scanner.reach] at h
    have hplain : word a as ≠ plainWord a as := fun heq => kind_plainWord_ne (heq ▸ h)
    cases hdrop : as.dropWhile continuesName with
    | nil => exact absurd (by rw [word_eq, hdrop]) hplain
    | cons q rest =>
      cases hq : isQuote q && isStringLetters (a :: as.takeWhile continuesName) with
      | false => exact absurd (word_of_not_letters hdrop hq) hplain
      | true =>
        obtain ⟨hquote, hletters⟩ := Bool.and_eq_true_iff.1 hq
        refine ⟨a :: as.takeWhile continuesName, q, rest, ?_, hletters, hquote⟩
        rw [List.cons_append, ← hdrop, List.takeWhile_append_dropWhile]

/-- What a reach takes of a text whose first characters it covers. -/
theorem toList_taken {r : Reach} {a : Char} {as xs ys : List Char} (h : a :: as = xs ++ ys)
    (hr : r.more + 1 = xs.length) : (r.taken a as).token.text.toList = xs := by
  rw [Reach.taken, String.toList_ofList, ← List.take_succ_cons, h, hr, List.take_left]

/-- A string that is not reported ends with the quotes that close it first. -/
theorem exists_closed_of_str {a : Char} {as : List Char} (h : (Reach.scan a as).kind = .str)
    (hproblem : (Reach.scan a as).problem? ≠ some .unterminatedString) :
    ∃ letters c triple b, isStringLetters letters = true ∧ isQuote c = true ∧
      (triple = true ↔ [c, c, c] <+: (a :: as).drop letters.length) ∧
      ((Reach.scan a as).taken a as).token.text.toList =
        letters ++ quotes c triple ++ b ++ quotes c triple ∧
      Closed (quotes c triple) b := by
  obtain ⟨letters, c, rest, hstart, hletters, hc⟩ := exists_start_of_str h
  have hscan := scan_of_start hletters hc hstart
  rw [hscan] at hproblem ⊢
  obtain ⟨triple, b, behind, htriple, ⟨hrest, hb, -, hmore⟩ | ⟨-, -, hrunsOut, -⟩⟩ :=
    exists_string letters.length (ne_slash_of_isQuote hc) rest
  · have hcut : a :: as = letters ++ quotes c triple ++ b ++ quotes c triple ++ behind := by
      rw [hstart, hrest]
      simp only [List.append_assoc]
    refine ⟨letters, c, triple, b, hletters, hc, ?_, toList_taken hcut ?_, hb⟩
    · rw [htriple, hstart, List.drop_left]
    · rw [hmore]
      simp only [List.length_append]
      omega
  · exact absurd hrunsOut hproblem

/-- A string whose body nothing closes runs out, and this is its problem. -/
theorem runsOut_of_start (hletters : isStringLetters letters = true) (hc : isQuote c = true)
    {a : Char} {as : List Char} (h : a :: as = letters ++ c :: rest) {triple : Bool}
    (htriple : triple = true ↔ [c, c, c] <+: c :: rest)
    (hnone : ¬∃ b behind, c :: rest = quotes c triple ++ b ++ quotes c triple ++ behind ∧
      Closed (quotes c triple) b) :
    (Reach.scan a as).problem? = some .unterminatedString ∧
    ∃ b behind, c :: rest = quotes c triple ++ b ++ behind ∧ RunsOut (quotes c triple) b behind ∧
      ((Reach.scan a as).taken a as).token.text.toList = letters ++ quotes c triple ++ b := by
  rw [scan_of_start hletters hc h]
  obtain ⟨triple', b, behind, htriple', ⟨hrest, hb, -⟩ | ⟨hrest, hb, hproblem, hmore⟩⟩ :=
    exists_string letters.length (ne_slash_of_isQuote hc) rest <;>
  obtain rfl : triple = triple' := Bool.eq_iff_iff.2 (htriple.trans htriple'.symm)
  · exact absurd ⟨b, behind, hrest, hb⟩ hnone
  · have hcut : a :: as = letters ++ quotes c triple ++ b ++ behind := by
      rw [h, hrest]
      simp only [List.append_assoc]
    refine ⟨hproblem, b, behind, hrest, hb, toList_taken hcut ?_⟩
    rw [hmore]
    simp only [List.length_append]
    omega

end

end Lexeme

/-! ## What is reported -/

/-- The lexical problems of some lexemes behind an offset. -/
def errorsFrom (start : Nat) (ls : List Lexeme) : List ParseError :=
  (ls.zip (Token.spans start (ls.map Lexeme.token))).filterMap fun (l, span) =>
    l.problem?.map fun p => ⟨.lexical p, span⟩

theorem errorsFrom_cons (start : Nat) (l : Lexeme) (ls : List Lexeme) : errorsFrom start (l :: ls) =
    (l.problem?.map fun p => ⟨.lexical p, ⟨start, start + l.token.size⟩⟩).toList ++
      errorsFrom (start + l.token.size) ls := by
  simp only [errorsFrom, List.map_cons, Token.spans, List.zip_cons_cons, List.filterMap_cons]
  cases l.problem? <;> rfl

theorem errorsFrom_append (start : Nat) (ls ms : List Lexeme) : errorsFrom start (ls ++ ms) =
    errorsFrom start ls ++ errorsFrom (start + Token.sizeOf (ls.map Lexeme.token)) ms := by
  induction ls generalizing start with
  | nil => rfl
  | cons l ls ih =>
    rw [List.cons_append, errorsFrom_cons, errorsFrom_cons, ih, List.append_assoc, List.map_cons,
      Token.sizeOf, Nat.add_assoc]

/-- The spans of problems lie among those of the tokens. -/
theorem bounds_of_mem_errorsFrom {start : Nat} {ls : List Lexeme} {e : ParseError}
    (h : e ∈ errorsFrom start ls) :
    start ≤ e.span.start ∧ e.span.stop ≤ start + Token.sizeOf (ls.map Lexeme.token) := by
  induction ls generalizing start with
  | nil => cases h
  | cons l ls ih =>
    rw [List.map_cons, Token.sizeOf]
    rw [errorsFrom_cons, List.mem_append, Option.mem_toList, Option.map_eq_some_iff] at h
    rcases h with ⟨p, -, rfl⟩ | h
    · exact ⟨Nat.le_refl start, by dsimp only; omega⟩
    · have := ih h
      omega

/-- What is reported of a token that covers something is what is wrong with it. -/
theorem filter_lexicalErrors {ls ms : List Lexeme} {l : Lexeme} (hl : l.token.text ≠ "") :
    let span : Span := ⟨Token.sizeOf (ls.map Lexeme.token),
      Token.sizeOf (ls.map Lexeme.token) + l.token.size⟩
    (lexicalErrors (ls ++ l :: ms)).filter (fun e => e.span == span) =
      (l.problem?.map fun p => ⟨.lexical p, span⟩).toList := by
  intro span
  have hsize : 0 < l.token.size :=
    Nat.pos_of_ne_zero fun h => hl (String.utf8ByteSize_eq_zero_iff.1 h)
  have hall : lexicalErrors (ls ++ l :: ms) = errorsFrom 0 ls ++
      ((l.problem?.map fun p => ⟨.lexical p, span⟩).toList ++ errorsFrom span.stop ms) := by
    rw [show lexicalErrors (ls ++ l :: ms) = errorsFrom 0 (ls ++ l :: ms) from rfl, errorsFrom_append,
      errorsFrom_cons, Nat.zero_add]
  have hbefore : (errorsFrom 0 ls).filter (fun e => e.span == span) = [] := by
    refine List.filter_eq_nil_iff.2 fun e he hspan => ?_
    have := (bounds_of_mem_errorsFrom he).2
    rw [eq_of_beq hspan] at this
    simp only [span] at this
    omega
  have hbehind : (errorsFrom span.stop ms).filter (fun e => e.span == span) = [] := by
    refine List.filter_eq_nil_iff.2 fun e he hspan => ?_
    have := (bounds_of_mem_errorsFrom he).1
    rw [eq_of_beq hspan] at this
    simp only [span] at this
    omega
  rw [hall, List.filter_append, List.filter_append, hbefore, hbehind, List.nil_append, List.append_nil]
  cases l.problem? with
  | none => rfl
  | some p => exact List.filter_cons_of_pos (beq_self_eq_true span)

/-- The error that says that nothing closes the string behind some tokens. -/
def unterminated (as : List Token) (t : Token) : ParseError :=
  ⟨.lexical .unterminatedString, ⟨Token.sizeOf as, Token.sizeOf as + t.size⟩⟩

open Lexeme in
/-- Strings of any source. One that is not reported ends with the quotes that close its body first. A string that
starts where nothing closes its body goes up to the end of its line, if it has single quotes, or else of the text,
and this is what is reported of it, once. -/
theorem strings_tokensOf {source : String} {as bs : List Token} {t : Token}
    (h : tokensOf source = as ++ t :: bs) :
    (t.kind = .str → unterminated as t ∉ lexicalErrors (lex source) →
      ∃ letters c triple b, isStringLetters letters = true ∧ isQuote c = true ∧
        (triple = true ↔ [c, c, c] <+: (Token.spelled (t :: bs)).drop letters.length) ∧
        t.text.toList = letters ++ quotes c triple ++ b ++ quotes c triple ∧
        Closed (quotes c triple) b) ∧
    ∀ letters c rest, t.text ≠ "" → Token.spelled (t :: bs) = letters ++ c :: rest →
      isStringLetters letters = true → isQuote c = true →
      ∀ triple, (triple = true ↔ [c, c, c] <+: c :: rest) →
      (¬∃ b behind, c :: rest = quotes c triple ++ b ++ quotes c triple ++ behind ∧
        Closed (quotes c triple) b) →
      t.kind = .str ∧
      (∃ b behind, c :: rest = quotes c triple ++ b ++ behind ∧ RunsOut (quotes c triple) b behind ∧
        t.text.toList = letters ++ quotes c triple ++ b) ∧
      (lexicalErrors (lex source)).filter (fun e => e.span == (unterminated as t).span) =
        [unterminated as t] ∧
      (unterminated as t).problem.message = "unterminated string literal" := by
  obtain ⟨ls, ms, hlex, rfl, hms⟩ := List.map_eq_append_iff.1 h
  obtain ⟨l, ns, rfl, rfl, rfl⟩ := List.map_eq_cons_iff.1 hms
  have hspelled : Token.spelled (l.token :: ns.map Lexeme.token) = Layout.covered (l :: ns) := by
    rw [← List.map_cons, Token.spelled, List.flatMap_map, Layout.covered]
  have hreported (hne : l.token.text ≠ "") (hproblem : l.problem? = some .unterminatedString) :
      (lexicalErrors (lex source)).filter
        (fun e => e.span == (unterminated (ls.map Lexeme.token) l.token).span) =
        [unterminated (ls.map Lexeme.token) l.token] := by
    rw [hlex]
    refine (filter_lexicalErrors hne).trans ?_
    rw [hproblem]
    rfl
  rw [hspelled]
  refine ⟨fun hstr hclean => ?_, fun letters c rest hne htext hletters hc triple htriple hnone => ?_⟩
  · have hne : l.token.text ≠ "" := by
      intro hempty
      rcases Layout.mark_of_lexFrom ls ns hlex hempty with h | h | ⟨h, -⟩ <;>
        exact absurd (hstr.symm.trans h) (by decide)
    obtain ⟨a, as, hcovered, ⟨-, hkind⟩ | rfl⟩ := Layout.scan_of_given (s := .start source) hlex hne
    · rcases hkind with h | h <;> exact absurd (hstr.symm.trans h) (by decide)
    · rw [hcovered]
      refine exists_closed_of_str hstr fun hproblem => hclean ?_
      exact (List.mem_filter.1 (hreported hne hproblem ▸ List.mem_singleton_self _)).1
  · obtain ⟨a, as, hcovered, hscan⟩ := Layout.scan_of_given (s := .start source) hlex hne
    have hstart : a :: as = letters ++ c :: rest := hcovered.symm.trans htext
    obtain rfl : l = (Reach.scan a as).taken a as := hscan.resolve_left fun h => by
      rw [not_isBreak_of_start hletters hc hstart] at h
      exact Bool.false_ne_true h.1
    obtain ⟨hproblem, hrunsOut⟩ := runsOut_of_start hletters hc hstart htriple hnone
    refine ⟨?_, hrunsOut, hreported hne hproblem, rfl⟩
    show (Reach.scan a as).kind = .str
    rw [scan_of_start hletters hc hstart]
    rfl

set_option maxRecDepth 4000 in
open Lexeme in
/-- A quote behind a backslash closes nothing, and one that nothing closes takes the rest of its line. -/
theorem strings_tokensOf_two :
    let source := "x = rb\x27a\\\x27b\x27 \x27c\n"
    let as : List Token := [⟨.ident, "x"⟩, ⟨.whitespace, " "⟩, ⟨.eq, "="⟩, ⟨.whitespace, " "⟩]
    let t : Token := ⟨.str, "rb\x27a\\\x27b\x27"⟩
    let u : Token := ⟨.str, "\x27c"⟩
    (∃ bs, tokensOf source = as ++ t :: bs ∧ unterminated as t ∉ lexicalErrors (lex source)) ∧
    (∃ letters c triple b, isStringLetters letters = true ∧ isQuote c = true ∧
      t.text.toList = letters ++ quotes c triple ++ b ++ quotes c triple ∧ Closed (quotes c triple) b) ∧
    lexicalErrors (lex source) = [unterminated (as ++ [t, ⟨.whitespace, " "⟩]) u] ∧
    (lexicalErrors (lex source)).filter
      (fun e => e.span == (unterminated (as ++ [t, ⟨.whitespace, " "⟩]) u).span) =
      [unterminated (as ++ [t, ⟨.whitespace, " "⟩]) u] := by
  have hlex : lex "x = rb\x27a\\\x27b\x27 \x27c\n" = Lexeme.sound [⟨.ident, "x"⟩, ⟨.whitespace, " "⟩,
      ⟨.eq, "="⟩, ⟨.whitespace, " "⟩, ⟨.str, "rb\x27a\\\x27b\x27"⟩, ⟨.whitespace, " "⟩] ++
        [⟨⟨.str, "\x27c"⟩, some .unterminatedString⟩, ⟨⟨.newline, "\n"⟩, none⟩] := by cbv
  intro source as t u
  have htokens : tokensOf source = as ++ t :: [⟨.whitespace, " "⟩, u, ⟨.newline, "\n"⟩] := by
    rw [tokensOf, show lex source = _ from hlex]
    rfl
  have htokens' : tokensOf source = (as ++ [t, ⟨.whitespace, " "⟩]) ++ u :: [⟨.newline, "\n"⟩] := htokens
  have herrors : lexicalErrors (lex source) = [unterminated (as ++ [t, ⟨.whitespace, " "⟩]) u] := by
    rw [show lex source = _ from hlex]
    rfl
  have hclean : unterminated as t ∉ lexicalErrors (lex source) := by
    rw [herrors]
    decide
  obtain ⟨letters, c, triple, b, hletters, hc, -, htext, hb⟩ :=
    (strings_tokensOf htokens).1 rfl hclean
  have hnone : ¬∃ b behind, ['\x27', 'c', '\n'] =
      quotes '\x27' false ++ b ++ quotes '\x27' false ++ behind ∧ Closed (quotes '\x27' false) b := by
    rintro ⟨b, behind, heq, -⟩
    have := congrArg (List.count '\x27') heq
    simp [quotes] at this
  obtain ⟨-, -, hreport, -⟩ := (strings_tokensOf htokens').2 [] '\x27' ['c', '\n'] (by decide)
    (by decide) rfl rfl false (by decide) hnone
  exact ⟨⟨_, htokens, hclean⟩, ⟨letters, c, triple, b, hletters, hc, htext, hb⟩, herrors, hreport⟩

end Renumber
