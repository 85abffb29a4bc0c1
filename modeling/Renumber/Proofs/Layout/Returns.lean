import Renumber.Proofs.Layout.Cut
import Renumber.Proofs.Layout.Inside

/-!
# Lines that end in a carriage return and a line feed

A text may end its lines with line feeds, or with a carriage return in front of every one of them
(`Text.withReturns`). The scan finds the same tokens in both, each with carriage returns in front of its own
line feeds (`lexFrom_withReturns`), with one exception: behind a backslash, a string in plain quotes takes
one character along. That is the line feed, or else the carriage return alone, and then the string is cut off
(`Token.goesOn`).
-/

namespace Renumber

open Text (isBreak)

namespace Text

/-- The characters with a carriage return in front of every line feed. -/
def withReturns (cs : List Char) : List Char :=
  cs.flatMap fun c => if c = '\n' then ['\r', '\n'] else [c]

@[simp] theorem withReturns_nil : withReturns [] = [] := rfl

@[simp] theorem withReturns_append (cs ds : List Char) :
    withReturns (cs ++ ds) = withReturns cs ++ withReturns ds :=
  List.flatMap_append

theorem withReturns_feed (cs : List Char) :
    withReturns ('\n' :: cs) = '\r' :: '\n' :: withReturns cs := rfl

theorem withReturns_cons {c : Char} (hc : c ≠ '\n') (cs : List Char) :
    withReturns (c :: cs) = c :: withReturns cs := by
  rw [withReturns, List.flatMap_cons, if_neg hc]
  rfl

theorem withReturns_of_not_mem {cs : List Char} (h : '\n' ∉ cs) : withReturns cs = cs := by
  induction cs with
  | nil => rfl
  | cons c cs ih =>
    rw [List.mem_cons, not_or] at h
    rw [withReturns_cons (Ne.symm h.1), ih h.2]

/-- What some characters become is the start of what they and the others become. -/
theorem take_withReturns (cs : List Char) (n : Nat) :
    (withReturns cs).take (withReturns (cs.take n)).length = withReturns (cs.take n) := by
  have h := withReturns_append (cs.take n) (cs.drop n)
  rw [List.take_append_drop] at h
  rw [h, List.take_left' rfl]

theorem drop_withReturns (cs : List Char) (n : Nat) :
    (withReturns cs).drop (withReturns (cs.take n)).length = withReturns (cs.drop n) := by
  have h := withReturns_append (cs.take n) (cs.drop n)
  rw [List.take_append_drop] at h
  rw [h, List.drop_left' rfl]

/-- A text is one line, or a first line and more behind a line feed. -/
theorem line_cases (cs : List Char) :
    '\n' ∉ cs ∨ ∃ xs ys, '\n' ∉ xs ∧ cs = xs ++ '\n' :: ys := by
  by_cases h : '\n' ∈ cs
  · obtain ⟨xs, ys, hcs, hxs⟩ := List.eq_append_cons_of_mem h
    exact .inr ⟨xs, ys, hxs, hcs⟩
  · exact .inl h

section
variable {p : Char → Bool} (hfeed : p '\n' = false)
include hfeed

theorem not_mem_takeWhile (cs : List Char) : '\n' ∉ cs.takeWhile p := by
  intro h
  rw [List.mem_takeWhile_imp h] at hfeed
  cases hfeed

variable (hreturn : p '\r' = false) (cs : List Char)
include hreturn

/-- A run that ends in front of any line break is the same with carriage returns. -/
theorem takeWhile_withReturns : (withReturns cs).takeWhile p = cs.takeWhile p := by
  induction cs with
  | nil => rfl
  | cons c cs ih =>
    by_cases hc : c = '\n'
    · subst hc
      rw [withReturns_feed, List.takeWhile_cons_of_neg (by simp [hreturn]),
        List.takeWhile_cons_of_neg (by simp [hfeed])]
    · rw [withReturns_cons hc, List.takeWhile_cons, List.takeWhile_cons, ih]

theorem dropWhile_withReturns : (withReturns cs).dropWhile p = withReturns (cs.dropWhile p) := by
  induction cs with
  | nil => rfl
  | cons c cs ih =>
    by_cases hc : c = '\n'
    · subst hc
      rw [withReturns_feed, List.dropWhile_cons_of_neg (by simp [hreturn]),
        List.dropWhile_cons_of_neg (by simp [hfeed]), withReturns_feed]
    · rw [withReturns_cons hc, List.dropWhile_cons, List.dropWhile_cons, ih]
      split
      · rfl
      · rw [withReturns_cons hc]

end

/-- Whether a text starts with two quotes hangs on no line break. -/
theorem take_two_withReturns {q : Char} (hfeed : q ≠ '\n') (hreturn : q ≠ '\r') (cs : List Char) :
    ((withReturns cs).take 2 == [q, q]) = (cs.take 2 == [q, q]) := by
  have h₁ : ('\n' == q) = false := beq_eq_false_iff_ne.2 hfeed.symm
  have h₂ : ('\r' == q) = false := beq_eq_false_iff_ne.2 hreturn.symm
  match cs with
  | [] => rfl
  | c :: cs =>
    by_cases hc : c = '\n'
    · subst hc
      cases cs <;> simp [withReturns_feed, h₁, h₂]
    rw [withReturns_cons hc]
    match cs with
    | [] => rfl
    | d :: cs =>
      by_cases hd : d = '\n'
      · subst hd
        simp [withReturns_feed, h₁, h₂]
      · rw [withReturns_cons hd]
        rfl

end Text

open Text (withReturns withReturns_cons withReturns_feed withReturns_append withReturns_of_not_mem
  take_withReturns drop_withReturns)

/-- The token with a carriage return in front of every line feed. -/
def Token.returned (t : Token) : Token :=
  ⟨t.kind, String.ofList (Text.withReturns t.text.toList)⟩

/-- The lexeme with a carriage return in front of every line feed. -/
def Lexeme.returned (l : Lexeme) : Lexeme := ⟨l.token.returned, l.problem?⟩

/-- Three quotes stand behind the letters of the string. -/
def Token.isLong (t : Token) : Bool :=
  match t.text.toList.dropWhile Lexeme.isStringLetter with
  | q :: cs => cs.take 2 == [q, q]
  | [] => false

/-- The token is a string in plain quotes that goes on in the next line. A backslash stands in front of
the line feed then. -/
def Token.goesOn (t : Token) : Bool :=
  t.kind == .str && !t.isLong && t.text.toList.contains '\n'

namespace Reach

/-- The reach of the same token when there are carriage returns. -/
def widened (r : Reach) (cs : List Char) : Reach :=
  ⟨r.kind, (Text.withReturns (cs.take r.more)).length, r.problem?⟩

section
variable {c : Char} (cs : List Char)

theorem widened_of_not_mem {r : Reach} {cs : List Char} (h : '\n' ∉ cs.take r.more)
    (hle : r.more ≤ cs.length) : r.widened cs = r := by
  rw [widened, withReturns_of_not_mem h, List.length_take, Nat.min_eq_left hle]

theorem taken_widened (r : Reach) (hc : c ≠ '\n') :
    (r.widened cs).taken c (withReturns cs) = (r.taken c cs).returned := by
  simp only [taken, widened, Lexeme.returned, Token.returned, String.toList_ofList,
    withReturns_cons hc, take_withReturns]

theorem left_widened (r : Reach) : (r.widened cs).left (withReturns cs) = withReturns (r.left cs) := by
  rw [left, widened, drop_withReturns, left]

/-- What hangs on the first line alone is the same when there are carriage returns. -/
theorem eq_widened {f : List Char → Reach} (hle : ∀ xs, (f xs).more ≤ xs.length)
    (hlocal : ∀ a, isBreak a = true → ∀ xs ys, f (xs ++ a :: ys) = f xs) :
    f (withReturns cs) = (f cs).widened cs := by
  rcases Text.line_cases cs with h | ⟨xs, ys, h, rfl⟩
  · rw [withReturns_of_not_mem h, widened_of_not_mem (fun hmem => h (List.mem_of_mem_take hmem))
      (hle cs)]
  · rw [withReturns_append, withReturns_of_not_mem h, withReturns_feed, hlocal '\r' rfl,
      hlocal '\n' rfl, widened_of_not_mem]
    · rw [List.take_append_of_le_length (hle xs)]
      exact fun hmem => h (List.mem_of_mem_take hmem)
    · rw [List.length_append]
      exact Nat.le_add_right_of_le (hle xs)

end

end Reach

namespace Lexeme

/-! ## Numbers, operators and runs -/

section
variable (c : Char) (cs : List Char)

theorem number_withReturns : number c (withReturns cs) = (number c cs).widened cs :=
  Reach.eq_widened cs (more_number_le c) fun _ ha xs ys =>
    number_append (isBoundary_of_isBreak ha) xs ys c

theorem operator_withReturns : operator c (withReturns cs) = (operator c cs).widened cs :=
  Reach.eq_widened cs (more_operator_le c) fun _ ha xs ys =>
    operator_append (isBoundary_of_isBreak ha) xs ys c

/-- A token that is a run of characters, none of them a line break. -/
theorem run_withReturns {p : Char → Bool} (hp : ∀ a, isBreak a = true → p a = false) (k : Kind) :
    (⟨k, runLength p (withReturns cs), none⟩ : Reach) =
      Reach.widened ⟨k, runLength p cs, none⟩ cs :=
  Reach.eq_widened (f := fun cs => ⟨k, runLength p cs, none⟩) cs (runLength_le p)
    fun a ha xs ys => by rw [runLength_append_cons (hp a ha)]

end

/-- A backslash takes both characters of a line break along. -/
theorem continuation_withReturns {cs : List Char} (h : '\r' ∉ cs) :
    continuation (withReturns cs) = (continuation cs).widened cs := by
  cases cs with
  | nil => rfl
  | cons c cs =>
    by_cases hc : c = '\n'
    · subst hc
      simp [withReturns_feed, continuation, isBreak, breakMore, Reach.widened]
    · have hbreak : isBreak c = false := by
        rw [List.mem_cons, not_or] at h
        simp [isBreak, hc, Ne.symm h.1]
      rw [withReturns_cons hc]
      simp [continuation, hbreak, Reach.widened]

/-! ## Strings -/

section
variable {q : Char} (hfeed : q ≠ '\n') (hreturn : q ≠ '\r')
include hfeed hreturn

/-- A body in which no line feed counts, or in which there is none, closes in the same place. -/
theorem bodyLength_withReturns {triple : Bool} (cs : List Char)
    (h : triple = true ∨ '\n' ∉ cs.take (bodyLength q triple cs).1) :
    bodyLength q triple (withReturns cs) =
      ((withReturns (cs.take (bodyLength q triple cs).1)).length, (bodyLength q triple cs).2) := by
  have hq : ('\n' == q) = false := beq_eq_false_iff_ne.2 hfeed.symm
  have hq' : ('\r' == q) = false := beq_eq_false_iff_ne.2 hreturn.symm
  fun_induction bodyLength q triple cs with
  | case1 => rfl
  | case2 => rfl
  | case3 c cs n closed hbody ih =>
    rw [hbody] at ih
    by_cases hc : c = '\n'
    · subst hc
      obtain rfl : triple = true := h.resolve_right fun h => h (by simp)
      rw [withReturns_cons (by decide), withReturns_feed, bodyLength, bodyLength_cons (by decide),
        ih (.inl rfl)]
      simp [hq, withReturns_cons, withReturns_feed]
    · rw [withReturns_cons (by decide), withReturns_cons hc, bodyLength, ih]
      · simp [withReturns_cons, hc]
      · exact h.imp_right fun h hmem => h (by simp [hmem])
  | case4 c cs h₁ h₂ hbreak =>
    by_cases hc : c = '\n'
    · subst hc
      have htriple : triple = false := by simpa [isBreak] using hbreak
      rw [withReturns_feed, bodyLength_cons (by decide), if_pos (by simp [isBreak, htriple])]
      rfl
    · rw [withReturns_cons hc, bodyLength_cons (ne_slash h₁ h₂), if_pos hbreak]
      rfl
  | case5 c cs h₁ h₂ hbreak hquote =>
    have hc : c ≠ '\n' := by
      rintro rfl
      simp [hq] at hquote
    rw [withReturns_cons hc, bodyLength_cons (ne_slash h₁ h₂), if_neg hbreak, if_pos hquote]
    simp [withReturns_cons hc]
  | case6 c cs h₁ h₂ hbreak hquote hclose =>
    rw [Bool.and_eq_true, beq_iff_eq, beq_iff_eq] at hclose
    obtain ⟨rfl, hcs⟩ := hclose
    have htwo : ((withReturns cs).take 2 == [c, c]) = true := by
      rw [Text.take_two_withReturns hfeed hreturn, hcs, beq_self_eq_true]
    rw [withReturns_cons hfeed, bodyLength_cons (ne_slash h₁ h₂), if_neg hbreak, if_neg hquote,
      if_pos (by rw [htwo, beq_self_eq_true]; rfl), List.take_succ_cons, hcs]
    simp [withReturns_cons hfeed]
  | case7 c cs h₁ h₂ hbreak hquote hclose n closed hbody ih =>
    rw [hbody] at ih
    have htail : triple = true ∨ '\n' ∉ cs.take n := h.imp_right fun h hmem => h (by simp [hmem])
    by_cases hc : c = '\n'
    · subst hc
      obtain rfl : triple = true := h.resolve_right fun h => h (by simp)
      rw [withReturns_feed, bodyLength_cons (by decide), bodyLength_cons (by decide), ih htail]
      simp [hq, hq', withReturns_feed]
    · rw [withReturns_cons hc, bodyLength_cons (ne_slash h₁ h₂), if_neg hbreak, if_neg hquote,
        Text.take_two_withReturns hfeed hreturn, if_neg hclose, ih htail]
      simp [withReturns_cons hc]

/-- A body with a line feed in it, which stands behind a backslash, is cut off by a carriage return. -/
theorem bodyLength_withReturns_of_mem (cs : List Char)
    (h : '\n' ∈ cs.take (bodyLength q false cs).1) :
    (bodyLength q false (withReturns cs)).2 = false := by
  have hq : ('\n' == q) = false := beq_eq_false_iff_ne.2 hfeed.symm
  generalize htriple : false = triple at h ⊢
  fun_induction bodyLength q triple cs with
  | case1 => cases h
  | case2 => simp at h
  | case3 c cs n closed hbody ih =>
    subst htriple
    rw [hbody] at ih
    by_cases hc : c = '\n'
    · subst hc
      rw [withReturns_cons (by decide), withReturns_feed, bodyLength, bodyLength_cons (by decide)]
      rfl
    · rw [withReturns_cons (by decide), withReturns_cons hc, bodyLength]
      exact ih (by simpa [Ne.symm hc] using h)
  | case4 => cases h
  | case5 c cs h₁ h₂ hbreak hquote =>
    obtain rfl : '\n' = c := by simpa using h
    simp [hq] at hquote
  | case6 c cs h₁ h₂ hbreak hquote hclose =>
    subst htriple
    rw [Bool.and_eq_true] at hclose
    exact absurd (by rw [hclose.1]; rfl) hquote
  | case7 c cs h₁ h₂ hbreak hquote hclose n closed hbody ih =>
    subst htriple
    rw [hbody] at ih
    have hc : c ≠ '\n' := by
      rintro rfl
      exact hbreak rfl
    rw [withReturns_cons hc, bodyLength_cons (ne_slash h₁ h₂), if_neg hbreak, if_neg hquote,
      Text.take_two_withReturns hfeed hreturn, if_neg hclose]
    exact ih (by simpa [Ne.symm hc] using h)

end

section
variable {q : Char} (n : Nat) (cs : List Char)

/-- The characters behind the opening quote of a string start with two more when the text does. -/
theorem take_two_string : ((cs.take ((string n q cs).more - n)).take 2 == [q, q]) =
    (cs.take 2 == [q, q]) := by
  refine take_two_take fun hlong => ?_
  obtain ⟨rest, rfl⟩ := exists_of_long cs hlong
  rw [string_of_long]
  dsimp only
  omega

variable (hq : isQuote q = true)
include hq

omit n cs in
theorem ne_break_of_isQuote : q ≠ '\n' ∧ q ≠ '\r' := by
  rw [isQuote, Bool.or_eq_true, beq_iff_eq, beq_iff_eq] at hq
  rcases hq with rfl | rfl <;> decide

/-- A string in three quotes, or one on one line, is the same with carriage returns. -/
theorem string_withReturns
    (h : (cs.take 2 == [q, q]) = true ∨ '\n' ∉ cs.take ((string n q cs).more - n)) :
    string n q (withReturns cs) =
      ⟨.str, n + (withReturns (cs.take ((string n q cs).more - n))).length,
        (string n q cs).problem?⟩ := by
  obtain ⟨hfeed, hreturn⟩ := ne_break_of_isQuote hq
  cases htriple : cs.take 2 == [q, q] with
  | true =>
    obtain ⟨rest, rfl⟩ := exists_of_long cs htriple
    rw [withReturns_cons hfeed, withReturns_cons hfeed, string_of_long, string_of_long,
      bodyLength_withReturns hfeed hreturn rest (.inl rfl)]
    have hmore : n + 2 + (bodyLength q true rest).1 - n = (bodyLength q true rest).1 + 2 := by omega
    simp only [hmore, List.take_succ_cons, withReturns_cons hfeed, List.length_cons, Reach.mk.injEq,
      true_and, and_true]
    omega
  | false =>
    have htwo := Text.take_two_withReturns hfeed hreturn cs
    rw [htriple] at h htwo
    rw [string_of_not_long _ _ htriple, Nat.add_sub_cancel_left] at h ⊢
    rw [string_of_not_long _ _ htwo, bodyLength_withReturns hfeed hreturn cs h]

/-- A string in plain quotes that goes on in the next line is cut off by a carriage return. -/
theorem string_withReturns_of_mem (htriple : (cs.take 2 == [q, q]) = false)
    (h : '\n' ∈ cs.take ((string n q cs).more - n)) :
    (string n q (withReturns cs)).problem? = some .unterminatedString := by
  obtain ⟨hfeed, hreturn⟩ := ne_break_of_isQuote hq
  have htwo := Text.take_two_withReturns hfeed hreturn cs
  rw [htriple] at htwo
  rw [string_of_not_long _ _ htriple, Nat.add_sub_cancel_left] at h
  rw [string_of_not_long _ _ htwo, bodyLength_withReturns_of_mem hfeed hreturn cs h]
  rfl

/-- Whether a string goes on in the next line, by its letters and what stands behind its first quote. -/
theorem goesOn_string {letters : List Char} (hletters : letters.all isStringLetter = true)
    (body : List Char) : Token.goesOn ⟨.str, String.ofList (letters ++ q :: body)⟩ =
      (!(body.take 2 == [q, q]) && body.contains '\n') := by
  obtain ⟨hfeed, -⟩ := ne_break_of_isQuote hq
  have hletter : isStringLetter q = false := by
    rw [isQuote, Bool.or_eq_true, beq_iff_eq, beq_iff_eq] at hq
    rcases hq with rfl | rfl <;> rfl
  have hdrop : (letters ++ q :: body).dropWhile isStringLetter = q :: body := by
    rw [List.dropWhile_append_of_pos (List.all_eq_true.1 hletters),
      List.dropWhile_cons_of_neg (by simp [hletter])]
  have hmem : '\n' ∉ letters := fun hmem => by
    have := List.all_eq_true.1 hletters _ hmem
    cases this
  have hcontains : (letters ++ q :: body).contains '\n' = body.contains '\n' := by
    rw [Bool.eq_iff_iff]
    simp [hmem, hfeed.symm]
  rw [Token.goesOn, Token.isLong, String.toList_ofList, hdrop, hcontains]
  rfl

end

/-! ## Words -/

section
variable {c : Char} {cs : List Char}

theorem plainWord_withReturns : plainWord c (withReturns cs) = (plainWord c cs).widened cs := by
  have hrun := run_withReturns cs (fun _ ha =>
    not_continuesName_of_isBoundary (isBoundary_of_isBreak ha)) (plainWord c cs).kind
  rwa [plainWord, Text.takeWhile_withReturns (by decide) (by decide)]

section
variable {q : Char} {rest : List Char} (hdrop : cs.dropWhile continuesName = q :: rest)
  (hq : (isQuote q && isStringLetters (c :: cs.takeWhile continuesName)) = true)
include hdrop hq

/-- A string with letters goes on in the next line when there is a line feed behind its only quote. -/
theorem goesOn_of_letters : ((word c cs).taken c cs).token.goesOn =
    (!(rest.take 2 == [q, q]) &&
      (rest.take ((word c cs).more - (runLength continuesName cs + 1))).contains '\n') := by
  have hle := le_more_string (q := q) (runLength continuesName cs + 1) rest
  obtain ⟨hquote, hletters⟩ := Bool.and_eq_true_iff.1 hq
  have hall : (c :: cs.takeWhile continuesName).all isStringLetter = true :=
    (Bool.and_eq_true_iff.1 hletters).2
  rw [word_of_letters hdrop hq]
  obtain ⟨m, hm⟩ := Nat.exists_eq_add_of_le hle
  have htwo := take_two_string (q := q) (runLength continuesName cs + 1) rest
  have hgoes := goesOn_string hquote hall (rest.take m)
  rw [hm, Nat.add_sub_cancel_left] at htwo ⊢
  rw [htwo] at hgoes
  rw [← hgoes, Reach.taken, hm, take_of_letters hdrop]
  rfl

end

/-- A word with carriage returns behind it, when it has letters in front of a quote. -/
theorem word_withReturns_of_letters {q : Char} {rest : List Char}
    (hdrop : cs.dropWhile continuesName = q :: rest)
    (hq : (isQuote q && isStringLetters (c :: cs.takeWhile continuesName)) = true) :
    word c (withReturns cs) = string (runLength continuesName cs + 1) q (withReturns rest) := by
  have hfeed := (ne_break_of_isQuote (Bool.and_eq_true_iff.1 hq).1).1
  have htake := Text.takeWhile_withReturns (p := continuesName) (by decide) (by decide) cs
  have hrest := Text.dropWhile_withReturns (p := continuesName) (by decide) (by decide) cs
  rw [hdrop, withReturns_cons hfeed] at hrest
  rw [word_of_letters hrest (by rw [htake, hq]), runLength, htake, runLength]

theorem word_withReturns (h : ((word c cs).taken c cs).token.goesOn = false) :
    word c (withReturns cs) = (word c cs).widened cs := by
  have htake := Text.takeWhile_withReturns (p := continuesName) (by decide) (by decide) cs
  have hrest := Text.dropWhile_withReturns (p := continuesName) (by decide) (by decide) cs
  cases hdrop : cs.dropWhile continuesName with
  | nil =>
    rw [word_eq, word_eq c cs, hrest, hdrop]
    exact plainWord_withReturns
  | cons q rest =>
    cases hq : isQuote q && isStringLetters (c :: cs.takeWhile continuesName) with
    | true =>
      have hquote := (Bool.and_eq_true_iff.1 hq).1
      obtain ⟨m, hm⟩ := Nat.exists_eq_add_of_le
        (le_more_string (q := q) (runLength continuesName cs + 1) rest)
      rw [goesOn_of_letters hdrop hq, word_of_letters hdrop hq, Bool.and_eq_false_iff,
        Bool.not_eq_false', List.contains_eq_mem, decide_eq_false_iff_not] at h
      have hname : withReturns (cs.takeWhile continuesName) = cs.takeWhile continuesName :=
        withReturns_of_not_mem (Text.not_mem_takeWhile (by decide) cs)
      rw [word_withReturns_of_letters hdrop hq, string_withReturns _ _ hquote h,
        word_of_letters hdrop hq, Reach.widened, hm, Nat.add_sub_cancel_left,
        take_of_letters hdrop, withReturns_append, hname,
        withReturns_cons (ne_break_of_isQuote hquote).1, List.length_append, List.length_cons]
      congr 1
      rw [runLength]
      omega
    | false =>
      rw [word_of_not_letters hdrop hq, ← plainWord_withReturns]
      by_cases hfeed : q = '\n'
      · subst hfeed
        rw [hdrop, withReturns_feed] at hrest
        exact word_of_not_letters hrest rfl
      · rw [hdrop, withReturns_cons hfeed] at hrest
        exact word_of_not_letters hrest (by rw [htake, hq])

theorem kind_of_goesOn {t : Token} (h : t.goesOn = true) : t.kind = .str := by
  rw [Token.goesOn, Bool.and_eq_true, Bool.and_eq_true, beq_iff_eq] at h
  exact h.1.1

/-- A string with letters that goes on in the next line is cut off by a carriage return. -/
theorem word_withReturns_of_goesOn (h : ((word c cs).taken c cs).token.goesOn = true) :
    (word c (withReturns cs)).problem? = some .unterminatedString := by
  have hkind : (word c cs).kind = .str := kind_of_goesOn h
  cases hdrop : cs.dropWhile continuesName with
  | nil =>
    rw [word_eq, hdrop] at hkind
    exact absurd hkind kind_plainWord_ne
  | cons q rest =>
    cases hq : isQuote q && isStringLetters (c :: cs.takeWhile continuesName) with
    | true =>
      rw [goesOn_of_letters hdrop hq, word_of_letters hdrop hq, Bool.and_eq_true,
        Bool.not_eq_true', List.contains_eq_mem, decide_eq_true_iff] at h
      rw [word_withReturns_of_letters hdrop hq]
      exact string_withReturns_of_mem _ _ (Bool.and_eq_true_iff.1 hq).1 h.1 h.2
    | false =>
      rw [word_of_not_letters hdrop hq] at hkind
      exact absurd hkind kind_plainWord_ne

end

end Lexeme

/-! ## Scanning -/

namespace Reach

open Lexeme

section
variable {c : Char} {cs : List Char}

theorem head?_withReturns : (withReturns cs).head?.any Char.isDigit = cs.head?.any Char.isDigit := by
  cases cs with
  | nil => rfl
  | cons a as =>
    by_cases ha : a = '\n'
    · subst ha
      rfl
    · rw [withReturns_cons ha]
      rfl

/-- The text of a string without letters goes on in the next line when there is a line feed behind its
only quote. -/
theorem goesOn_string_taken (hq : isQuote c = true) : ((string 0 c cs).taken c cs).token.goesOn =
    (!(cs.take 2 == [c, c]) && (cs.take ((string 0 c cs).more - 0)).contains '\n') := by
  have hletters : ([] : List Char).all isStringLetter = true := rfl
  rw [← take_two_string (q := c) 0 cs, ← goesOn_string hq hletters]
  rfl

theorem scanner_withReturns : Scanner.of c (withReturns cs) = Scanner.of c cs :=
  Scanner.of_congr head?_withReturns

/-- A token that does not go on in the next line inside a string is the same with carriage returns. -/
theorem scan_withReturns (hreturn : '\r' ∉ cs)
    (h : ((scan c cs).taken c cs).token.goesOn = false) :
    scan c (withReturns cs) = (scan c cs).widened cs := by
  rw [scan_eq] at h ⊢
  rw [scan_eq, scanner_withReturns]
  cases hs : Scanner.of c cs <;> rw [hs] at h
  case blanks => exact run_withReturns cs (fun _ => isSpace_of_isBreak) .whitespace
  case comment => exact run_withReturns cs (fun a ha => by rw [ha]; rfl) .comment
  case backslash => exact continuation_withReturns hreturn
  case number => exact number_withReturns c cs
  case string =>
    have hquote := isQuote_of_string hs
    rw [Scanner.reach, goesOn_string_taken hquote, Bool.and_eq_false_iff, Bool.not_eq_false',
      List.contains_eq_mem, decide_eq_false_iff_not] at h
    rw [Scanner.reach, string_withReturns _ _ hquote h, Nat.zero_add]
    rfl
  case word => exact word_withReturns h
  case operator => exact operator_withReturns c cs

/-- A string that goes on in the next line is cut off by a carriage return. -/
theorem scan_withReturns_of_goesOn (h : ((scan c cs).taken c cs).token.goesOn = true) :
    (scan c (withReturns cs)).problem? = some .unterminatedString := by
  rcases scanner_of_str (kind_of_goesOn h) with hs | hs <;>
    rw [scan_eq, hs] at h <;> rw [scan_eq, scanner_withReturns, hs]
  · have hquote := isQuote_of_string hs
    rw [Scanner.reach, goesOn_string_taken hquote, Bool.and_eq_true, Bool.not_eq_true',
      List.contains_eq_mem, decide_eq_true_iff] at h
    exact string_withReturns_of_mem _ _ hquote h.1 h.2
  · exact word_withReturns_of_goesOn h

end

end Reach

/-! ## Lexing -/

/-- The lexemes of a text with carriage returns are those of the text, unless a string goes on in the
next line. Then one is cut off. -/
inductive Lexeme.Follows (ls ls' : List Lexeme) : Prop where
  | same (hlines : ∀ l ∈ ls, l.token.goesOn = false) (heq : ls' = ls.map returned)
  | cut (hgoes : ∃ l ∈ ls, l.token.goesOn = true)
      (hcut : ∃ l ∈ ls', l.problem? = some .unterminatedString)

namespace Lexeme

theorem goesOn_of_not_mem {t : Token} (h : '\n' ∉ t.text.toList) : t.goesOn = false := by
  rw [Token.goesOn, List.contains_eq_mem, decide_eq_false h, Bool.and_false]

theorem returned_of_not_mem {l : Lexeme} (h : '\n' ∉ l.token.text.toList) : l.returned = l := by
  rw [returned, Token.returned, withReturns_of_not_mem h, String.ofList_toList]

theorem goesOn_of_ne {t : Token} (h : t.kind ≠ .str) : t.goesOn = false := by
  rw [← Bool.not_eq_true]
  exact fun hgoes => h (kind_of_goesOn hgoes)

namespace Follows

variable {ls ls' : List Lexeme}

theorem append {ms : List Lexeme} (hms : ∀ l ∈ ms, l.token.goesOn = false) (h : Follows ls ls') :
    Follows (ms ++ ls) (ms.map returned ++ ls') := by
  cases h with
  | same hlines heq =>
    exact .same (fun l hl => (List.mem_append.1 hl).elim (hms l) (hlines l))
      (by rw [heq, List.map_append])
  | cut hgoes hcut =>
    obtain ⟨l, hl, hgoes⟩ := hgoes
    obtain ⟨l', hl', hcut⟩ := hcut
    exact .cut ⟨l, List.mem_append_right ms hl, hgoes⟩
      ⟨l', List.mem_append_right _ hl', hcut⟩

theorem cons {l : Lexeme} (hl : l.token.goesOn = false) (h : Follows ls ls') :
    Follows (l :: ls) (l.returned :: ls') := by
  have hone : ∀ m ∈ [l], m.token.goesOn = false := fun m hm => by rw [List.mem_singleton.1 hm, hl]
  exact append hone h

/-- Lexemes that cover no line feed are the same with carriage returns. -/
theorem append_of_covered {ms : List Lexeme} (hms : '\n' ∉ Layout.covered ms) (h : Follows ls ls') :
    Follows (ms ++ ls) (ms ++ ls') := by
  have htext {l : Lexeme} (hl : l ∈ ms) : '\n' ∉ l.token.text.toList :=
    fun hmem => hms (List.mem_flatMap.2 ⟨l, hl, hmem⟩)
  have hmap : ms.map returned = ms := by
    conv_rhs => rw [← List.map_id ms]
    exact List.map_congr_left fun l hl => returned_of_not_mem (htext hl)
  have happend := append (fun l hl => goesOn_of_not_mem (htext hl)) h
  rwa [hmap] at happend

theorem of_covered {ms : List Lexeme} (hms : '\n' ∉ Layout.covered ms) : Follows ms ms := by
  have h : Follows (ms ++ []) (ms ++ []) := append_of_covered hms (.same (List.forall_mem_nil _) rfl)
  rwa [List.append_nil] at h

end Follows

end Lexeme

namespace Layout

open Lexeme (Follows)

/-- A run of blanks and what follows it, with carriage returns. -/
theorem withReturns_indented {text cs : List Char} {c : Char}
    (h : text.dropWhile Lexeme.isSpace = c :: cs) :
    withReturns text = text.takeWhile Lexeme.isSpace ++ withReturns (c :: cs) := by
  conv_lhs => rw [← List.takeWhile_append_dropWhile (p := Lexeme.isSpace) (l := text), h]
  rw [withReturns_append, withReturns_of_not_mem (Text.not_mem_takeWhile (by decide) text)]

/-- A line break with a carriage return in front of it. -/
theorem taken_break (k : Kind) (cs : List Char) :
    Reach.taken ⟨k, Lexeme.breakMore '\r' ('\n' :: withReturns cs), none⟩ '\r'
        ('\n' :: withReturns cs) =
      (Reach.taken ⟨k, Lexeme.breakMore '\n' cs, none⟩ '\n' cs).returned := by
  rw [Lexeme.returned, Token.returned, Reach.taken, Reach.taken, String.toList_ofList]
  rfl

theorem left_break (k : Kind) (cs : List Char) :
    Reach.left ⟨k, Lexeme.breakMore '\r' ('\n' :: withReturns cs), none⟩
        ('\n' :: withReturns cs) =
      withReturns (Reach.left ⟨k, Lexeme.breakMore '\n' cs, none⟩ cs) := rfl

/-- The lexemes of a text that ends its lines in a carriage return and a line feed. -/
theorem lexFrom_withReturns {text : List Char} (hreturn : '\r' ∉ text) (blocks : List Nat)
    (mode : Mode) : Follows (lexFrom blocks mode text) (lexFrom blocks mode (withReturns text)) := by
  have hblanks (text : List Char) : '\n' ∉ covered (blanks (text.takeWhile Lexeme.isSpace)) := by
    rw [covered_blanks]
    exact Text.not_mem_takeWhile (by decide) text
  have hrest {text cs : List Char} {c : Char} (h : text.dropWhile Lexeme.isSpace = c :: cs)
      (hreturn : '\r' ∉ text) : '\r' ∉ c :: cs := fun hmem =>
    hreturn ((List.dropWhile_sublist Lexeme.isSpace).subset (h ▸ hmem))
  have hleft {c : Char} {cs : List Char} (r : Reach) (hreturn : '\r' ∉ c :: cs) : '\r' ∉ r.left cs :=
    fun hmem => hreturn (List.mem_cons_of_mem c (List.mem_of_mem_drop hmem))
  have hbreak {c : Char} {cs : List Char} (hc : isBreak c = true) (hreturn : '\r' ∉ c :: cs) :
      c = '\n' := by
    rw [isBreak, Bool.or_eq_true, beq_iff_eq, beq_iff_eq] at hc
    exact hc.resolve_right fun h => hreturn (h ▸ List.mem_cons_self)
  have hfeed {c : Char} (hc : ¬isBreak c = true) : c ≠ '\n' := by
    rintro rfl
    exact hc rfl
  fun_induction lexFrom blocks mode text with
  | case1 blocks text indentation h =>
    have htext : '\n' ∉ text := by
      have hmem := Text.not_mem_takeWhile (p := Lexeme.isSpace) (by decide) text
      rwa [← List.append_nil (text.takeWhile _), ← h, List.takeWhile_append_dropWhile] at hmem
    rw [withReturns_of_not_mem htext, ← lexFrom_fresh_of_blank h]
    exact .of_covered (by rwa [covered_lexFrom])
  | case2 blocks text indentation c cs hd hb r ih =>
    have htext := hrest hd hreturn
    obtain rfl := hbreak hb htext
    rw [withReturns_indented hd, withReturns_feed,
      lexFrom_fresh_cons isSpace_of_mem_takeWhile (by decide), if_pos (by decide), taken_break, left_break]
    exact .append_of_covered (hblanks text) (.cons (Lexeme.goesOn_of_ne Kind.noConfusion)
      (ih (hleft r htext)))
  | case3 blocks text indentation c cs hd hb hc r ih =>
    have hcomment : ⟨.comment, Lexeme.commentMore (withReturns cs), none⟩ = r.widened cs :=
      Lexeme.run_withReturns cs (fun a ha => by rw [ha]; rfl) .comment
    rw [withReturns_indented hd, withReturns_cons (hfeed hb),
      lexFrom_fresh_cons isSpace_of_mem_takeWhile (not_isSpace_of_dropWhile hd), if_neg hb, if_pos hc,
      hcomment, Reach.taken_widened cs r (hfeed hb), Reach.left_widened cs r]
    exact .append_of_covered (hblanks text) (.cons (Lexeme.goesOn_of_ne Kind.noConfusion)
      (ih (hleft r (hrest hd hreturn))))
  | case4 blocks text indentation c cs hd hb hc before blocks' hm ih =>
    have htext := hrest hd hreturn
    have hbefore : covered before = [] := by
      have := covered_marks blocks (columnOf indentation)
      rwa [hm] at this
    have ih := ih htext
    rw [withReturns_cons (hfeed hb)] at ih
    rw [withReturns_indented hd, withReturns_cons (hfeed hb),
      lexFrom_fresh_cons isSpace_of_mem_takeWhile (not_isSpace_of_dropWhile hd), if_neg hb, if_neg hc,
      show marks blocks (columnOf (text.takeWhile Lexeme.isSpace)) = (before, blocks') from hm,
      List.append_assoc]
    exact .append_of_covered (hblanks text) (.append_of_covered (by rw [hbefore]; simp) ih)
  | case5 blocks depth content =>
    rw [withReturns, List.flatMap_nil, lexFrom]
    exact .of_covered (by simp)
  | case6 blocks depth content c cs hb hd r ih =>
    obtain rfl := hbreak hb hreturn
    rw [withReturns_feed, lexFrom_inLine_cons, if_pos (by decide), if_pos hd, taken_break, left_break]
    exact .cons (Lexeme.goesOn_of_ne Kind.noConfusion) (ih (hleft r hreturn))
  | case7 blocks depth content c cs hb hd r ih =>
    obtain rfl := hbreak hb hreturn
    rw [withReturns_feed, lexFrom_inLine_cons, if_pos (by decide), if_neg hd, taken_break, left_break]
    exact .cons (Lexeme.goesOn_of_ne Kind.noConfusion) (ih (hleft r hreturn))
  | case8 blocks depth content c cs hb r ih =>
    have hcs : '\r' ∉ cs := fun hmem => hreturn (List.mem_cons_of_mem c hmem)
    rw [withReturns_cons (hfeed hb), lexFrom_inLine_cons, if_neg hb]
    cases hgoes : (r.taken c cs).token.goesOn with
    | false =>
      rw [Reach.scan_withReturns hcs hgoes, Reach.taken_widened cs r (hfeed hb),
        Reach.left_widened cs r]
      exact .cons hgoes (ih (hleft r hreturn))
    | true =>
      exact .cut ⟨_, List.mem_cons_self, hgoes⟩
        ⟨_, List.mem_cons_self, Reach.scan_withReturns_of_goesOn hgoes⟩

end Layout

end Renumber
