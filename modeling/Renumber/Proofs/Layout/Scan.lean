import Renumber.Proofs.Layout.Lexemes

/-!
# Scanning is local

How far a token reaches hangs on the text behind it, but not on much of it. Some characters bound every
number, word and operator (`isBoundary`): what such a token is hangs on the text up to the next of them
only (`number_append`, `word_append`, `operator_append`). Strings and comments run on over them, but a
boundary that a token does not reach has no say in what is behind it either (`scan_beyond`).
-/

namespace Renumber

open Text (isBreak isAlphabetic isNumeric)

namespace Lexeme

/-! ## Boundaries -/

/-- The characters that no number, name or operator goes on with, whatever comes next. -/
def boundaries : List Char := ['(', ')', ',', ' ', '\t', '\x0c', '#', '\\', '\n', '\r']

/-- The character bounds what stands in front of it. -/
def isBoundary (c : Char) : Bool := boundaries.contains c

section
variable {p : Char → Bool} {a : Char}

theorem runLength_le (p : Char → Bool) (xs : List Char) : runLength p xs ≤ xs.length :=
  (List.takeWhile_sublist p).length_le

/-- A run ends in front of a character that does not belong to it. -/
theorem runLength_append_cons (ha : p a = false) (xs ys : List Char) :
    runLength p (xs ++ a :: ys) = runLength p xs := by
  unfold runLength
  rw [List.takeWhile_append, List.takeWhile_cons, ha, if_neg Bool.false_ne_true, List.append_nil]
  split
  · rename_i h
    rw [h]
  · rfl

/-- What no character does that is a boundary. -/
theorem not_of_isBoundary (hany : boundaries.any p = false) (ha : isBoundary a = true) :
    p a = false := by
  rw [← Bool.not_eq_true]
  intro hp
  rw [List.any_eq_true.2 ⟨a, by simpa [isBoundary] using ha, hp⟩] at hany
  cases hany

section
variable (ha : isBoundary a = true) (xs ys : List Char)
include ha

/-! ## Numbers -/

theorem digitRun_append : digitRun (xs ++ a :: ys) = digitRun xs :=
  runLength_append_cons
    (not_of_isBoundary (p := fun c => c.isDigit || c == '_') rfl ha) xs ys

theorem exponentLength_append : exponentLength (xs ++ a :: ys) = exponentLength xs := by
  have hdigit := not_of_isBoundary (p := Char.isDigit) rfl ha
  have hexp := not_of_isBoundary (p := fun c => c == 'e' || c == 'E') rfl ha
  have hsign := not_of_isBoundary (p := fun c => c == '+' || c == '-') rfl ha
  match xs with
  | [] => simp [exponentLength, hexp]
  | [e] => simp [exponentLength, hsign, hdigit]
  | [e, s] =>
    have hrun := digitRun_append ha [s] ys
    have hnil := digitRun_append ha [] ys
    rw [List.nil_append] at hnil
    simp only [List.cons_append, List.nil_append] at hrun ⊢
    simp [exponentLength, hdigit, hrun]
  | e :: s :: d :: ds =>
    have hrun := digitRun_append ha (s :: d :: ds) ys
    have hrun' := digitRun_append ha (d :: ds) ys
    simp only [List.cons_append] at hrun hrun' ⊢
    simp only [exponentLength, hrun, hrun', List.head?_cons]
    rfl

theorem fractionLength_append : fractionLength (xs ++ a :: ys) = fractionLength xs := by
  cases xs with
  | nil =>
    have hdot := not_of_isBoundary (p := fun c => c == '.') rfl ha
    rw [List.nil_append]
    unfold fractionLength
    split
    · rename_i h
      exact absurd (List.cons.inj h).1 (beq_eq_false_iff_ne.1 hdot)
    · rfl
  | cons x xs =>
    rw [List.cons_append]
    unfold fractionLength
    split <;> rename_i h
    · obtain ⟨rfl, rfl⟩ := List.cons.inj h
      rw [digitRun_append ha]
      rfl
    · split <;> rename_i h'
      · obtain ⟨rfl, rfl⟩ := List.cons.inj h'
        exact absurd rfl (h _)
      · rfl

theorem suffixLength_append : suffixLength (xs ++ a :: ys) = suffixLength xs := by
  have hletter := not_of_isBoundary
    (p := fun c => c == 'j' || c == 'J' || c == 'l' || c == 'L') rfl ha
  cases xs with
  | nil => simp only [List.nil_append, suffixLength, hletter, if_neg Bool.false_ne_true]
  | cons x xs => rfl

omit ha in
theorem fractionLength_le : fractionLength xs ≤ xs.length := by
  unfold fractionLength
  split
  · have := runLength_le (fun c => c.isDigit || c == '_') ‹_›
    simp only [digitRun, List.length_cons]
    omega
  · exact Nat.zero_le _

omit ha in
theorem exponentLength_le : exponentLength xs ≤ xs.length := by
  unfold exponentLength
  have hrun (cs : List Char) : digitRun cs ≤ cs.length := runLength_le _ cs
  split
  · split
    · split
      · rename_i s ds
        have h₁ := hrun ds
        have h₂ := hrun (s :: ds)
        simp only [List.length_cons] at h₂ ⊢
        split
        · split <;> omega
        · split <;> omega
      · exact Nat.zero_le _
    · exact Nat.zero_le _
  · exact Nat.zero_le _

/-- How long a number is hangs on the text up to the next boundary. -/
theorem decimalLength_append : decimalLength (xs ++ a :: ys) = decimalLength xs := by
  have hwhole : digitRun xs ≤ xs.length := runLength_le _ xs
  have hfraction := fractionLength_le (xs.drop (digitRun xs))
  have hexponent :=
    exponentLength_le (xs.drop (digitRun xs + fractionLength (xs.drop (digitRun xs))))
  rw [List.length_drop] at hfraction hexponent
  unfold decimalLength
  dsimp only
  rw [digitRun_append ha, List.drop_append_of_le_length hwhole, fractionLength_append ha,
    List.drop_append_of_le_length (by omega), exponentLength_append ha,
    List.drop_append_of_le_length (by omega), suffixLength_append ha]

omit ha in
/-- Unless a base letter follows a zero, a number is decimal. -/
theorem number_eq_decimal {c : Char} {cs : List Char}
    (h : c = '0' → ∀ x ∈ cs.head?, isBaseLetter x = false) :
    number c cs = ⟨.number, decimalLength (c :: cs) - 1, none⟩ := by
  unfold number
  split
  · rw [h rfl _ rfl, if_neg Bool.false_ne_true]
  · rfl

theorem number_append (c : Char) : number c (xs ++ a :: ys) = number c xs := by
  have hdecimal := decimalLength_append ha (c :: xs) ys
  rw [List.cons_append] at hdecimal
  cases xs with
  | nil =>
    have hbase := not_of_isBoundary (p := isBaseLetter) rfl ha
    rw [number_eq_decimal fun _ x hx => ?_, number_eq_decimal fun _ x hx => ?_, hdecimal]
    · cases hx
    · obtain rfl : a = x := Option.some.inj hx
      exact hbase
  | cons x xs =>
    have hrun : runLength (fun d => d.isAlphanum || d == '_') (xs ++ a :: ys) =
        runLength (fun d => d.isAlphanum || d == '_') xs :=
      runLength_append_cons
        (not_of_isBoundary (p := fun c => c.isAlphanum || c == '_') rfl ha) xs ys
    rw [List.cons_append] at hdecimal ⊢
    by_cases hc : c = '0'
    · subst hc
      simp only [number, hrun, hdecimal]
    · rw [number_eq_decimal fun h => absurd h hc, number_eq_decimal fun h => absurd h hc, hdecimal]

/-! ## Words and operators -/

omit ha in
theorem isPrefixOf_append_cons {ts : List Char} (hts : a ∉ ts) :
    ts.isPrefixOf (xs ++ a :: ys) = ts.isPrefixOf xs := by
  induction ts generalizing xs with
  | nil => simp
  | cons t ts ih =>
    rw [List.mem_cons, not_or] at hts
    cases xs with
    | nil =>
      have : (t == a) = false := beq_eq_false_iff_ne.2 fun h => hts.1 h.symm
      simp [List.isPrefixOf, this]
    | cons x xs => rw [List.cons_append, List.isPrefixOf, List.isPrefixOf, ih xs hts.2]

/-- Which operator a text starts with hangs on the text up to the next boundary. -/
theorem operator_append (c : Char) : operator c (xs ++ a :: ys) = operator c xs := by
  have htable : operators.all (fun e => !boundaries.any e.1.tail.contains) = true := rfl
  have hprefix : ∀ e ∈ operators,
      e.1.isPrefixOf (c :: (xs ++ a :: ys)) = e.1.isPrefixOf (c :: xs) := by
    intro e he
    have hany : boundaries.any e.1.tail.contains = false := by
      simpa only [Bool.not_eq_true'] using List.all_eq_true.1 htable e he
    have ha' : a ∉ e.1.tail := by
      simpa only [List.contains_eq_mem, decide_eq_false_iff_not] using not_of_isBoundary hany ha
    cases hte : e.1 with
    | nil => rfl
    | cons t ts =>
      rw [hte] at ha'
      rw [List.isPrefixOf, List.isPrefixOf, isPrefixOf_append_cons xs ys (show a ∉ ts from ha')]
  unfold operator
  congr 1
  exact List.find?_congr hprefix

end

end

/-! ## Beyond a boundary -/

section
variable {a : Char} (xs ys zs : List Char)

/-- A run that ends in front of a character does so whatever follows the character. -/
theorem runLength_beyond {p : Char → Bool} (h : runLength p (xs ++ a :: ys) ≤ xs.length) :
    runLength p (xs ++ a :: zs) = runLength p (xs ++ a :: ys) := by
  unfold runLength at h ⊢
  simp only [List.takeWhile_append] at h ⊢
  split at h <;> rename_i hall
  · cases ha : p a with
    | true =>
      rw [List.takeWhile_cons, ha, if_pos rfl, List.length_append, List.length_cons] at h
      omega
    | false => simp [ha, hall]
  · rw [if_neg hall, if_neg hall]

theorem take_two_append {q : Char} (ha : a ≠ q) :
    ((xs ++ a :: ys).take 2 == [q, q]) = (xs.take 2 == [q, q]) := by
  have hne : (a == q) = false := beq_eq_false_iff_ne.2 ha
  match xs with
  | [] =>
    cases ys <;> simp [hne]
  | [x] => simp [hne]
  | x :: x' :: xs => rfl

theorem bodyLength_cons {q : Char} {triple : Bool} {c : Char} (hc : c ≠ '\\') (cs : List Char) :
    bodyLength q triple (c :: cs) =
      if isBreak c && !triple then (0, false)
      else if c == q && !triple then (1, true)
      else if c == q && cs.take 2 == [q, q] then (3, true)
      else ((bodyLength q triple cs).1 + 1, (bodyLength q triple cs).2) := by
  rw [bodyLength]
  · exact fun h => absurd h hc
  · exact fun _ _ h => absurd h hc

/-- A string that ends in front of a character does so whatever follows the character. -/
theorem bodyLength_beyond {q : Char} {triple : Bool} (hslash : a ≠ '\\') (ha : a ≠ q)
    (h : (bodyLength q triple (xs ++ a :: ys)).1 ≤ xs.length) :
    bodyLength q triple (xs ++ a :: zs) = bodyLength q triple (xs ++ a :: ys) := by
  have hne : (a == q) = false := beq_eq_false_iff_ne.2 ha
  induction hn : xs.length using Nat.strongRecOn generalizing xs with
  | ind n ih =>
    match xs with
    | [] =>
      rw [List.nil_append, bodyLength_cons hslash] at h ⊢
      rw [List.nil_append, bodyLength_cons hslash]
      simp only [hne, Bool.false_and, Bool.false_eq_true, ↓reduceIte] at h ⊢
      split at h <;> rename_i hbreak
      · rw [if_pos hbreak, if_pos hbreak]
      · simp at h
    | c :: xs =>
      by_cases hc : c = '\\'
      · subst hc
        cases xs with
        | nil => simp [bodyLength] at h
        | cons c xs =>
          simp only [List.cons_append, bodyLength, List.length_cons, Nat.add_le_add_iff_right] at h hn ⊢
          rw [ih xs.length (by omega) xs (by omega) rfl]
      · simp only [List.cons_append, bodyLength_cons hc, take_two_append xs _ ha] at h ⊢
        split at h <;> rename_i h₁
        · simp only [h₁, ↓reduceIte]
        split at h <;> rename_i h₂
        · simp only [h₁, h₂, ↓reduceIte]
        split at h <;> rename_i h₃
        · simp only [h₁, h₂, h₃, ↓reduceIte]
        · simp only [List.length_cons, Nat.add_le_add_iff_right] at h hn
          rw [ih xs.length (by omega) xs h rfl]

theorem string_beyond {q : Char} (hslash : a ≠ '\\') (ha : a ≠ q) {n : Nat}
    (h : (string n q (xs ++ a :: ys)).more ≤ n + xs.length) :
    string n q (xs ++ a :: zs) = string n q (xs ++ a :: ys) := by
  unfold string at h ⊢
  simp only [take_two_append xs _ ha] at h ⊢
  cases htriple : xs.take 2 == [q, q] with
  | false =>
    simp only [htriple, Bool.false_eq_true, ↓reduceIte, List.drop_zero] at h ⊢
    rw [bodyLength_beyond xs ys zs hslash ha (by omega)]
  | true =>
    have hlen : 2 ≤ xs.length := by
      have := congrArg List.length (beq_iff_eq.1 htriple)
      simp only [List.length_take, List.length_cons, List.length_nil] at this
      omega
    simp only [htriple, ↓reduceIte, List.drop_append_of_le_length hlen] at h ⊢
    have := List.length_drop (i := 2) (l := xs)
    rw [bodyLength_beyond _ ys zs hslash ha (by omega)]

/-- No boundary is a quote. -/
theorem ne_of_isQuote {q : Char} (ha : isBoundary a = true) (hq : isQuote q = true) : a ≠ q := by
  rintro rfl
  rw [not_of_isBoundary (p := isQuote) rfl ha] at hq
  cases hq

theorem word_beyond (hslash : a ≠ '\\') (ha : isBoundary a = true) (c : Char)
    (h : (word c (xs ++ a :: ys)).more ≤ xs.length) : word c (xs ++ a :: zs) = word c (xs ++ a :: ys) := by
  have hname : continuesName a = false := not_of_isBoundary (p := continuesName) (by decide) ha
  have hrun (ys : List Char) : runLength continuesName (xs ++ a :: ys) = runLength continuesName xs :=
    runLength_append_cons hname xs ys
  have hle := runLength_le continuesName xs
  unfold word at h ⊢
  simp only [hrun, List.take_append_of_le_length hle, List.drop_append_of_le_length hle] at h ⊢
  cases hd : xs.drop (runLength continuesName xs) with
  | nil => simp [not_of_isBoundary (p := isQuote) rfl ha]
  | cons q rest =>
    rw [hd] at h
    have hlen := congrArg List.length hd
    simp only [List.length_drop, List.length_cons] at hlen
    simp only [List.cons_append] at h ⊢
    split at h <;> rename_i hquote
    · simp only [hquote, ↓reduceIte]
      exact string_beyond rest ys zs hslash
        (ne_of_isQuote ha (Bool.and_eq_true_iff.1 hquote).1) (by omega)
    · simp only [hquote, Bool.false_eq_true, ↓reduceIte]

theorem breakMore_beyond (c : Char) :
    breakMore c (xs ++ a :: zs) = breakMore c (xs ++ a :: ys) := by
  cases xs <;> rfl

theorem continuation_beyond (h : (continuation (xs ++ a :: ys)).more ≤ xs.length) :
    continuation (xs ++ a :: zs) = continuation (xs ++ a :: ys) := by
  match xs with
  | [] =>
    simp only [List.nil_append, continuation] at h ⊢
    split at h <;> rename_i hbreak
    · simp only [List.length_nil] at h
      omega
    · simp [hbreak]
  | [x] => rfl
  | x :: x' :: xs => rfl

end

end Lexeme

open Lexeme in
/-- A token that ends in front of a boundary does so whatever follows the boundary. -/
theorem scan_beyond {a c : Char} {xs ys : List Char} (hslash : a ≠ '\\') (ha : isBoundary a = true)
    (h : (Reach.scan c (xs ++ a :: ys)).more ≤ xs.length) (zs : List Char) :
    Reach.scan c (xs ++ a :: zs) = Reach.scan c (xs ++ a :: ys) := by
  have hhead (ys : List Char) :
      (xs ++ a :: ys).head?.any Char.isDigit = xs.head?.any Char.isDigit := by
    cases xs with
    | nil => exact not_of_isBoundary (p := Char.isDigit) rfl ha
    | cons x xs => rfl
  unfold Reach.scan at h ⊢
  simp only [hhead] at h ⊢
  split at h <;> rename_i hspace
  · simp only [hspace, ↓reduceIte]
    rw [runLength_beyond xs ys zs h]
  split at h <;> rename_i hcomment
  · simp only [hspace, hcomment, Bool.false_eq_true, ↓reduceIte]
    rw [commentMore, runLength_beyond xs ys zs h, commentMore]
  split at h <;> rename_i hbackslash
  · simp only [hspace, hcomment, hbackslash, Bool.false_eq_true, ↓reduceIte]
    exact continuation_beyond xs ys zs h
  split at h <;> rename_i hdigit
  · simp only [hspace, hcomment, hbackslash, hdigit, Bool.false_eq_true, ↓reduceIte, number_append ha]
  split at h <;> rename_i hquote
  · simp only [hspace, hcomment, hbackslash, hdigit, hquote, Bool.false_eq_true, ↓reduceIte]
    exact string_beyond xs ys zs hslash (ne_of_isQuote ha hquote) (by omega)
  split at h <;> rename_i hname
  · simp only [hspace, hcomment, hbackslash, hdigit, hquote, hname, Bool.false_eq_true, ↓reduceIte]
    exact word_beyond xs ys zs hslash ha c h
  · simp only [hspace, hcomment, hbackslash, hdigit, hquote, hname, Bool.false_eq_true, ↓reduceIte,
      operator_append ha]

end Renumber
