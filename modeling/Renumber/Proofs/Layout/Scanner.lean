import Renumber.Proofs.Layout.Scan

/-!
# How a token goes on

The first character of a token says how to scan the rest of it, but for a point, which a digit turns into a
number (`Scanner.of`). A token without a problem that is followed by a boundary is what it is without it
(`scan_append`): a string has been closed by then, and of the rest only blanks go on over blanks and
comments over what is no line break.
-/

namespace Renumber

open Text (isBreak)

namespace Lexeme

/-! ## Runs -/

theorem take_runLength (p : Char → Bool) (cs : List Char) :
    cs.take (runLength p cs) = cs.takeWhile p := by
  conv_lhs => rw [← List.takeWhile_append_dropWhile (p := p) (l := cs)]
  exact List.take_left' (by rw [List.takeWhile_append_dropWhile]; rfl)

theorem drop_runLength (p : Char → Bool) (cs : List Char) :
    cs.drop (runLength p cs) = cs.dropWhile p := by
  conv_lhs => rw [← List.takeWhile_append_dropWhile (p := p) (l := cs)]
  exact List.drop_left' (by rw [List.takeWhile_append_dropWhile]; rfl)

theorem isSpace_of_isBreak {a : Char} (ha : isBreak a = true) : isSpace a = false := by
  rw [isBreak, Bool.or_eq_true, beq_iff_eq, beq_iff_eq] at ha
  rcases ha with rfl | rfl <;> rfl

theorem isBoundary_of_isBreak {a : Char} (ha : isBreak a = true) : isBoundary a = true := by
  rw [isBreak, Bool.or_eq_true, beq_iff_eq, beq_iff_eq] at ha
  rcases ha with rfl | rfl <;> rfl

section
variable {p : Char → Bool} {a : Char} (ha : p a = false) (xs ys : List Char)
include ha

theorem takeWhile_append_cons : (xs ++ a :: ys).takeWhile p = xs.takeWhile p := by
  rw [← take_runLength, runLength_append_cons ha,
    List.take_append_of_le_length (runLength_le p xs), take_runLength]

theorem dropWhile_append_cons : (xs ++ a :: ys).dropWhile p = xs.dropWhile p ++ a :: ys := by
  rw [← drop_runLength, runLength_append_cons ha,
    List.drop_append_of_le_length (runLength_le p xs), drop_runLength]

end

/-! ## Strings -/

section
variable {q : Char} (n : Nat) (cs : List Char)

theorem string_of_long : string n q (q :: q :: cs) = ⟨.str, n + 2 + (bodyLength q true cs).1,
    if (bodyLength q true cs).2 then none else some .unterminatedString⟩ := by
  simp [string]

theorem string_of_not_long (h : (cs.take 2 == [q, q]) = false) : string n q cs =
    ⟨.str, n + (bodyLength q false cs).1,
      if (bodyLength q false cs).2 then none else some .unterminatedString⟩ := by
  simp [string, h]

theorem exists_of_long (h : (cs.take 2 == [q, q]) = true) : ∃ rest, cs = q :: q :: rest := by
  refine ⟨cs.drop 2, ?_⟩
  conv_lhs => rw [← List.take_append_drop 2 cs, beq_iff_eq.1 h]
  rfl

theorem le_more_string : n ≤ (string n q cs).more := by
  simp only [string]
  omega

/-- A character in front of which the body of a string does not stop for an escape. -/
theorem ne_slash {c : Char} {cs : List Char} (hlast : c = '\\' → cs = [] → False)
    (hpair : ∀ a as, c = '\\' → cs = a :: as → False) : c ≠ '\\' := by
  intro hc
  cases cs with
  | nil => exact hlast hc rfl
  | cons a as => exact hpair a as hc rfl

/-- Three quotes close a string that three quotes open. -/
theorem length_of_closed {triple : Bool} (htriple : triple = true)
    (h : (bodyLength q triple cs).2 = true) : 3 ≤ cs.length := by
  fun_induction bodyLength q triple cs with
  | case1 | case2 | case4 => cases h
  | case3 c cs n closed hbody ih =>
    rw [hbody] at ih
    have := ih h
    simp only [List.length_cons]
    omega
  | case5 c cs h₁ h₂ hbreak hquote => simp [htriple] at hquote
  | case6 c cs h₁ h₂ hbreak hquote hclose =>
    obtain ⟨rest, rfl⟩ := exists_of_long cs (Bool.and_eq_true_iff.1 hclose).2
    simp only [List.length_cons]
    omega
  | case7 c cs h₁ h₂ hbreak hquote hclose n closed hbody ih =>
    rw [hbody] at ih
    exact Nat.le_succ_of_le (ih h)

/-- A string that has been closed does not look any further. -/
theorem bodyLength_of_closed {triple : Bool} (h : (bodyLength q triple cs).2 = true)
    (ds : List Char) : bodyLength q triple (cs ++ ds) = bodyLength q triple cs := by
  fun_induction bodyLength q triple cs with
  | case1 | case2 | case4 => cases h
  | case3 c cs n closed hbody ih =>
    rw [hbody] at ih
    rw [List.cons_append, List.cons_append, bodyLength, ih h]
  | case5 c cs h₁ h₂ hbreak hquote =>
    rw [List.cons_append, bodyLength_cons (ne_slash h₁ h₂), if_neg hbreak, if_pos hquote]
  | case6 c cs h₁ h₂ hbreak hquote hclose =>
    obtain ⟨rest, rfl⟩ := exists_of_long cs (Bool.and_eq_true_iff.1 hclose).2
    rw [List.cons_append, bodyLength_cons (ne_slash h₁ h₂), if_neg hbreak, if_neg hquote]
    exact if_pos hclose
  | case7 c cs h₁ h₂ hbreak hquote hclose n closed hbody ih =>
    rw [hbody] at ih
    have htwo : (c == q && (cs ++ ds).take 2 == [q, q]) = (c == q && cs.take 2 == [q, q]) := by
      cases hc : c == q with
      | false => rfl
      | true =>
        -- A quote that closes nothing stands in three quotes, and those that close come later.
        obtain rfl : triple = true := by simpa [hc] using hquote
        have hlength := length_of_closed (q := q) cs rfl (by rw [hbody]; exact h)
        rw [List.take_append_of_le_length (by omega)]
    rw [List.cons_append, bodyLength_cons (ne_slash h₁ h₂), if_neg hbreak, if_neg hquote, htwo,
      if_neg hclose, ih h]

/-- A string that has been closed in front of another character is the same with it. -/
theorem string_append {a : Char} (ha : a ≠ q) (h : (string n q cs).problem? = none)
    (ds : List Char) : string n q (cs ++ a :: ds) = string n q cs := by
  cases htriple : cs.take 2 == [q, q] with
  | true =>
    obtain ⟨rest, rfl⟩ := exists_of_long cs htriple
    rw [string_of_long] at h
    rw [List.cons_append, List.cons_append, string_of_long, string_of_long,
      bodyLength_of_closed _ (by simpa using h)]
  | false =>
    have htwo : ((cs ++ a :: ds).take 2 == [q, q]) = false := by
      match cs with
      | [] => simp [ha]
      | [c] => simp [ha]
      | c :: d :: cs => exact htriple
    rw [string_of_not_long _ _ htriple] at h
    rw [string_of_not_long _ _ htwo, string_of_not_long _ _ htriple,
      bodyLength_of_closed _ (by simpa using h)]

end

/-! ## Words -/

/-- A name or a keyword, with all the characters that go on with it. -/
def plainWord (c : Char) (cs : List Char) : Reach :=
  ⟨(Kind.ofKeyword? (String.ofList (c :: cs.takeWhile continuesName))).getD .ident,
    runLength continuesName cs, none⟩

/-- A word is a name or a keyword, unless it stands in front of a quote and a string may have such
letters. -/
theorem word_eq (c : Char) (cs : List Char) : word c cs =
    match cs.dropWhile continuesName with
    | q :: rest =>
      if isQuote q && isStringLetters (c :: cs.takeWhile continuesName) then
        string (runLength continuesName cs + 1) q rest
      else plainWord c cs
    | [] => plainWord c cs := by
  cases h : cs.dropWhile continuesName with
  | nil => simp only [word, take_runLength, drop_runLength, h, plainWord]
  | cons q rest => simp only [word, take_runLength, drop_runLength, h, plainWord]

section
variable {c : Char} {cs : List Char}

theorem kind_plainWord_ne : (plainWord c cs).kind ≠ .str := by
  have hkeywords : ∀ e ∈ Kind.keywords, e.2 ≠ .str := by decide
  rw [plainWord, Kind.ofKeyword?]
  cases h : Kind.keywords.lookup (String.ofList (c :: cs.takeWhile continuesName)) with
  | none => exact Kind.noConfusion
  | some k =>
    obtain ⟨l₁, l₂, hl, -⟩ := List.lookup_eq_some_iff.1 h
    exact hkeywords (String.ofList (c :: cs.takeWhile continuesName), k) (by rw [hl]; simp)

section
variable {q : Char} {rest : List Char} (hdrop : cs.dropWhile continuesName = q :: rest)
include hdrop

theorem word_of_letters (hq : (isQuote q && isStringLetters (c :: cs.takeWhile continuesName)) = true) :
    word c cs = string (runLength continuesName cs + 1) q rest := by
  rw [word_eq, hdrop]
  exact if_pos hq

theorem word_of_not_letters
    (hq : (isQuote q && isStringLetters (c :: cs.takeWhile continuesName)) = false) :
    word c cs = plainWord c cs := by
  rw [word_eq, hdrop]
  exact if_neg (by rw [hq]; exact Bool.false_ne_true)

/-- The characters that a string takes when letters stand in front of its quote. -/
theorem take_of_letters (m : Nat) : cs.take (runLength continuesName cs + 1 + m) =
    cs.takeWhile continuesName ++ q :: rest.take m := by
  have hcs : cs = cs.takeWhile continuesName ++ q :: rest := by
    rw [← hdrop, List.takeWhile_append_dropWhile]
  rw [runLength, Nat.add_assoc, Nat.add_comm 1 m, ← List.take_succ_cons,
    ← List.take_length_add_append, ← hcs]

end

theorem not_isQuote_of_isBoundary {a : Char} (ha : isBoundary a = true) : isQuote a = false :=
  not_of_isBoundary (p := isQuote) rfl ha

theorem not_continuesName_of_isBoundary {a : Char} (ha : isBoundary a = true) :
    continuesName a = false :=
  not_of_isBoundary (p := continuesName) (by decide) ha

/-- A word without a problem in front of a boundary is the same with it. -/
theorem word_append {a : Char} (ha : isBoundary a = true) (h : (word c cs).problem? = none)
    (ds : List Char) : word c (cs ++ a :: ds) = word c cs := by
  have hname := not_continuesName_of_isBoundary ha
  have htake := takeWhile_append_cons hname cs ds
  have hrest := dropWhile_append_cons hname cs ds
  have hplain : plainWord c (cs ++ a :: ds) = plainWord c cs := by
    rw [plainWord, plainWord, htake, runLength_append_cons hname]
  cases hdrop : cs.dropWhile continuesName with
  | nil =>
    rw [hdrop] at hrest
    rw [word_of_not_letters hrest (by rw [not_isQuote_of_isBoundary ha]; rfl), hplain, word_eq, hdrop]
  | cons q rest =>
    rw [hdrop, List.cons_append] at hrest
    cases hq : isQuote q && isStringLetters (c :: cs.takeWhile continuesName) with
    | false =>
      rw [word_of_not_letters hdrop hq, word_of_not_letters hrest (by rw [htake, hq]), hplain]
    | true =>
      have hne : a ≠ q := by
        rintro rfl
        rw [not_isQuote_of_isBoundary ha] at hq
        cases hq
      rw [word_of_letters hdrop hq] at h
      rw [word_of_letters hdrop hq, word_of_letters hrest (by rw [htake, hq]),
        runLength_append_cons hname, string_append _ _ hne h]

end

/-! ## First characters -/

/-- The ways in which a token goes on behind its first character. -/
inductive Scanner where
  | blanks
  | comment
  | backslash
  | number
  | string
  | word
  | operator
deriving DecidableEq

/-- How a token goes on. -/
def Scanner.of (c : Char) (cs : List Char) : Scanner :=
  if isSpace c then .blanks
  else if c == '#' then .comment
  else if c == '\\' then .backslash
  else if c.isDigit || (c == '.' && cs.head?.any Char.isDigit) then .number
  else if isQuote c then .string
  else if startsName c then .word
  else .operator

/-- What goes on in a way. -/
def Scanner.reach (c : Char) (cs : List Char) : Scanner → Reach
  | blanks => ⟨.whitespace, runLength isSpace cs, none⟩
  | comment => ⟨.comment, commentMore cs, none⟩
  | backslash => continuation cs
  | number => Lexeme.number c cs
  | string => Lexeme.string 0 c cs
  | word => Lexeme.word c cs
  | operator => Lexeme.operator c cs

theorem scan_eq (c : Char) (cs : List Char) : Reach.scan c cs = (Scanner.of c cs).reach c cs := by
  unfold Reach.scan Scanner.of
  repeat (first | rfl | split)

/-- Only a digit behind the first character has a say in how a token goes on. -/
theorem Scanner.of_congr {c : Char} {cs ds : List Char}
    (h : cs.head?.any Char.isDigit = ds.head?.any Char.isDigit) :
    Scanner.of c cs = Scanner.of c ds := by
  rw [Scanner.of, h, Scanner.of]

theorem isQuote_of_string {c : Char} {cs : List Char} (h : Scanner.of c cs = .string) :
    isQuote c = true := by
  unfold Scanner.of at h
  by_contra hquote
  rw [if_neg hquote] at h
  repeat (first | cases h | split at h)

/-- A string starts with its quote or with a letter. -/
theorem scanner_of_str {c : Char} {cs : List Char} (h : (Reach.scan c cs).kind = .str) :
    Scanner.of c cs = .string ∨ Scanner.of c cs = .word := by
  rw [scan_eq] at h
  cases hs : Scanner.of c cs with
  | string => exact .inl rfl
  | word => exact .inr rfl
  | blanks | comment => rw [hs] at h; cases h
  | backslash =>
    rw [hs, Scanner.reach] at h
    cases cs with
    | nil => cases h
    | cons b bs =>
      rw [continuation] at h
      split at h <;> cases h
  | number => rw [hs, Scanner.reach, kind_number] at h; cases h
  | operator =>
    rw [hs] at h
    exact absurd h (kind_operator (P := (· ≠ .str)) (by decide) (by decide) c cs)

/-! ## No token goes beyond the text -/

theorem decimalLength_le (cs : List Char) : decimalLength cs ≤ cs.length := by
  have hwhole : digitRun cs ≤ cs.length := runLength_le _ cs
  have hfraction := fractionLength_le (cs.drop (digitRun cs))
  have hexponent :=
    exponentLength_le (cs.drop (digitRun cs + fractionLength (cs.drop (digitRun cs))))
  have hsuffix (xs : List Char) : suffixLength xs ≤ xs.length := by
    cases xs with
    | nil => rfl
    | cons x xs => simp only [suffixLength, List.length_cons]; split <;> omega
  have hlast := hsuffix (cs.drop (digitRun cs + fractionLength (cs.drop (digitRun cs)) +
    exponentLength (cs.drop (digitRun cs + fractionLength (cs.drop (digitRun cs))))))
  rw [List.length_drop] at hfraction hexponent hlast
  unfold decimalLength
  dsimp only
  omega

theorem more_number_le (c : Char) (cs : List Char) : (number c cs).more ≤ cs.length := by
  have hdecimal := decimalLength_le (c :: cs)
  rw [List.length_cons] at hdecimal
  unfold number
  split
  · rename_i x rest
    have hrun := runLength_le (fun d => d.isAlphanum || d == '_') rest
    simp only [List.length_cons] at hdecimal ⊢
    split <;> dsimp only <;> omega
  · dsimp only
    omega

theorem more_operator_le (c : Char) (cs : List Char) : (operator c cs).more ≤ cs.length := by
  unfold operator
  split
  · rename_i text kind h
    have hstarts := List.find?_some h
    have hlength := (List.isPrefixOf_iff_prefix.1 hstarts).length_le
    rw [List.length_cons] at hlength
    dsimp only
    omega
  · exact Nat.zero_le _

theorem bodyLength_le (q : Char) (triple : Bool) (cs : List Char) :
    (bodyLength q triple cs).1 ≤ cs.length := by
  fun_induction bodyLength q triple cs with
  | case1 | case4 => exact Nat.zero_le _
  | case2 => exact Nat.le_refl 1
  | case3 c cs n closed hbody ih =>
    rw [hbody] at ih
    simpa using ih
  | case5 => exact Nat.le_add_left 1 _
  | case6 c cs h₁ h₂ hbreak hquote hclose =>
    obtain ⟨rest, rfl⟩ := exists_of_long cs (Bool.and_eq_true_iff.1 hclose).2
    exact Nat.le_add_left 3 _
  | case7 c cs h₁ h₂ hbreak hquote hclose n closed hbody ih =>
    rw [hbody] at ih
    exact Nat.succ_le_succ ih

theorem more_string_le (n : Nat) (q : Char) (cs : List Char) :
    (string n q cs).more ≤ n + cs.length := by
  cases htriple : cs.take 2 == [q, q] with
  | true =>
    obtain ⟨rest, rfl⟩ := exists_of_long cs htriple
    have := bodyLength_le q true rest
    rw [string_of_long, List.length_cons, List.length_cons]
    dsimp only
    omega
  | false =>
    rw [string_of_not_long _ _ htriple]
    exact Nat.add_le_add_left (bodyLength_le q false cs) n

theorem more_word_le (c : Char) (cs : List Char) : (word c cs).more ≤ cs.length := by
  have hplain : (plainWord c cs).more ≤ cs.length := runLength_le continuesName cs
  cases hdrop : cs.dropWhile continuesName with
  | nil => rwa [word_eq, hdrop]
  | cons q rest =>
    cases hq : isQuote q && isStringLetters (c :: cs.takeWhile continuesName) with
    | false => rwa [word_of_not_letters hdrop hq]
    | true =>
      have hlength := congrArg List.length (take_of_letters hdrop rest.length)
      have hmore := more_string_le (runLength continuesName cs + 1) q rest
      rw [List.take_length, List.length_take, List.length_append, List.length_cons, ← runLength]
        at hlength
      rw [word_of_letters hdrop hq]
      omega

theorem breakMore_le (b : Char) (bs : List Char) : breakMore b bs ≤ bs.length := by
  cases bs with
  | nil => simp [breakMore]
  | cons a as =>
    rw [breakMore, List.length_cons]
    split <;> omega

/-- A token ends where the text does at the latest. -/
theorem more_scan_le (c : Char) (cs : List Char) : (Reach.scan c cs).more ≤ cs.length := by
  rw [scan_eq]
  cases Scanner.of c cs with
  | blanks => exact runLength_le isSpace cs
  | comment => exact runLength_le _ cs
  | backslash =>
    cases cs with
    | nil => exact Nat.le_refl 0
    | cons b bs =>
      have hbreak := breakMore_le b bs
      rw [Scanner.reach, continuation, List.length_cons]
      split
      · dsimp only
        omega
      · exact Nat.zero_le _
  | number => exact more_number_le c cs
  | string => exact (more_string_le 0 c cs).trans_eq (Nat.zero_add _)
  | word => exact more_word_le c cs
  | operator => exact more_operator_le c cs

/-- A token without a problem in front of a boundary is the same with it. Blanks and comments have to end
there, and a continuation is none in front of a line break. -/
theorem scan_append {c a : Char} {cs : List Char} (ha : isBoundary a = true)
    (h : (Reach.scan c cs).problem? = none)
    (htrivia : (Reach.scan c cs).kind.isTrivia = true →
      isBreak a = true ∧ (Reach.scan c cs).kind ≠ .lineContinuation) (ds : List Char) :
    Reach.scan c (cs ++ a :: ds) = Reach.scan c cs := by
  have hhead : (cs ++ a :: ds).head?.any Char.isDigit = cs.head?.any Char.isDigit := by
    cases cs with
    | nil => exact not_of_isBoundary (p := Char.isDigit) rfl ha
    | cons b bs => rfl
  rw [scan_eq] at h htrivia ⊢
  rw [scan_eq, Scanner.of_congr hhead]
  cases hs : Scanner.of c cs <;> rw [hs] at h htrivia <;> simp only [Scanner.reach] at h htrivia ⊢
  case blanks =>
    rw [runLength_append_cons (isSpace_of_isBreak (htrivia rfl).1)]
  case comment =>
    rw [commentMore, runLength_append_cons (by rw [(htrivia rfl).1]; rfl), commentMore]
  case backslash =>
    cases cs with
    | nil => cases h
    | cons b bs =>
      rw [continuation] at h htrivia
      by_cases hb : isBreak b = true
      · rw [if_pos hb] at htrivia
        exact absurd rfl (htrivia rfl).2
      · rw [if_neg hb] at h
        cases h
  case number => exact number_append ha cs ds c
  case string =>
    refine string_append _ _ ?_ h ds
    rintro rfl
    have hquote := isQuote_of_string hs
    rw [not_isQuote_of_isBoundary ha] at hquote
    cases hquote
  case word => exact word_append ha h ds
  case operator => exact operator_append ha cs ds c

end Lexeme

end Renumber
