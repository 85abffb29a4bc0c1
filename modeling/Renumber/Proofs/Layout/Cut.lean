import Renumber.Proofs.Layout.Scanner

/-!
# Tokens by themselves

A token is scanned up to its last character and no further: in front of a part of the text that holds the whole
token, the same token is scanned (`Reach.scan_take`). What is scanned one by one, runs, fractions and bodies of
strings, ends there of itself; an exponent and an operator, which have to be there as a whole, do not come about
in a part of the text.
-/

namespace Renumber

open Text (isBreak)

namespace Lexeme

section
variable {p : Char → Bool} {cs : List Char} {n : Nat}

theorem runLength_take (h : runLength p cs ≤ n) : runLength p (cs.take n) = runLength p cs := by
  induction cs generalizing n with
  | nil => rw [List.take_nil]
  | cons c cs ih =>
    cases hc : p c with
    | false => cases n <;> simp [runLength, hc]
    | true =>
      have hrun (cs : List Char) : runLength p (c :: cs) = runLength p cs + 1 := by
        rw [runLength, List.takeWhile_cons_of_pos hc, List.length_cons, runLength]
      rw [hrun] at h
      obtain ⟨n, rfl⟩ : ∃ m, n = m + 1 := ⟨n - 1, by omega⟩
      rw [List.take_succ_cons, hrun, hrun, ih (Nat.le_of_succ_le_succ h)]

theorem takeWhile_take (h : runLength p cs ≤ n) : (cs.take n).takeWhile p = cs.takeWhile p := by
  rw [← take_runLength, runLength_take h, List.take_take, Nat.min_eq_left h, take_runLength]

theorem dropWhile_take (h : runLength p cs ≤ n) :
    (cs.take n).dropWhile p = (cs.dropWhile p).take (n - runLength p cs) := by
  rw [← drop_runLength, runLength_take h, List.drop_take, drop_runLength]

theorem any_head?_take (h : (cs.head?.any p) = true → n ≠ 0) :
    (cs.take n).head?.any p = cs.head?.any p := by
  cases n with
  | zero =>
    rw [List.take_zero, List.head?_nil, Option.any_none]
    exact (Bool.eq_false_iff.2 fun hcs => h hcs rfl).symm
  | succ n => cases cs <;> rfl

/-! ## Numbers -/

theorem fractionLength_take (h : fractionLength cs ≤ n) :
    fractionLength (cs.take n) = fractionLength cs := by
  cases cs with
  | nil => rw [List.take_nil]
  | cons c cs =>
    by_cases hc : c = '.'
    · subst hc
      rw [fractionLength] at h
      obtain ⟨n, rfl⟩ : ∃ m, n = m + 1 := ⟨n - 1, by omega⟩
      rw [List.take_succ_cons, fractionLength, fractionLength, digitRun,
        runLength_take (by rw [digitRun] at h; omega), digitRun]
    · have hzero (cs : List Char) : fractionLength (c :: cs) = 0 := by
        rw [fractionLength]
        exact fun _ heq => hc (List.cons.inj heq).1
      cases n with
      | zero => rw [hzero]; rfl
      | succ n => rw [List.take_succ_cons, hzero, hzero]

theorem suffixLength_take (h : suffixLength cs ≤ n) : suffixLength (cs.take n) = suffixLength cs := by
  cases n with
  | zero => exact (Nat.le_zero.1 h).symm
  | succ n => cases cs <;> rfl

theorem one_le_digitRun (h : cs.head?.any Char.isDigit = true) : 1 ≤ digitRun cs := by
  cases cs with
  | nil => cases h
  | cons c cs =>
    have hc : c.isDigit = true := by simpa using h
    rw [digitRun, runLength, List.takeWhile_cons_of_pos (by rw [hc]; rfl), List.length_cons]
    exact Nat.le_add_left 1 _

/-- An exponent is its letter, a sign or none, and a digit at least. -/
theorem exponentLength_take (h : exponentLength cs ≤ n) :
    exponentLength (cs.take n) = exponentLength cs := by
  match cs, n with
  | [], n => rw [List.take_nil]
  | e :: cs, 0 => exact (Nat.le_zero.1 h).symm
  | [e], n + 1 => rw [List.take_succ_cons, List.take_nil]
  | e :: s :: ds, n + 1 =>
    rw [List.take_succ_cons]
    simp only [exponentLength] at h ⊢
    split at h <;> rename_i he
    · rw [if_pos he, if_pos he]
      split at h <;> rename_i hs
      · split at h <;> rename_i hds
        · obtain ⟨n, rfl⟩ : ∃ m, n = m + 1 := ⟨n - 1, by omega⟩
          have hrun := one_le_digitRun hds
          have hds' : (ds.take n).head?.any Char.isDigit = true := by
            rw [any_head?_take fun _ => by omega, hds]
          simp only [List.take_succ_cons, hs, hds, hds', ↓reduceIte]
          rw [digitRun, runLength_take (by rw [digitRun] at h; omega), digitRun]
        · cases n with
          | zero => simp only [List.take_zero, hs, hds, ↓reduceIte]; rfl
          | succ n =>
            have hds' := any_head?_take (n := n) fun h => absurd h hds
            simp only [List.take_succ_cons, hs, hds, hds', Bool.false_eq_true, ↓reduceIte]
      · split at h <;> rename_i hdigit
        · have hrun : 1 ≤ digitRun (s :: ds) := one_le_digitRun (by simpa using hdigit)
          obtain ⟨n, rfl⟩ : ∃ m, n = m + 1 := ⟨n - 1, by omega⟩
          have htake : digitRun ((s :: ds).take (n + 1)) = digitRun (s :: ds) :=
            runLength_take (by rw [digitRun] at h; omega)
          rw [List.take_succ_cons] at htake
          simp only [List.take_succ_cons, hs, hdigit, htake, Bool.false_eq_true, ↓reduceIte]
        · cases n with
          | zero => simp only [List.take_zero, hs, hdigit]; rfl
          | succ n => simp only [List.take_succ_cons, hs, hdigit]; rfl
    · rw [if_neg he, if_neg he]

theorem decimalLength_take (h : decimalLength cs ≤ n) : decimalLength (cs.take n) = decimalLength cs := by
  have hdrop (m : Nat) : (cs.take n).drop m = (cs.drop m).take (n - m) := List.drop_take
  unfold decimalLength at h ⊢
  dsimp only at h ⊢
  have hwhole : digitRun (cs.take n) = digitRun cs := runLength_take (by rw [digitRun] at h; omega)
  rw [hwhole, hdrop, fractionLength_take (by omega), hdrop, exponentLength_take (by omega), hdrop,
    suffixLength_take (by omega)]

theorem number_take {c : Char} (h : (number c cs).more ≤ n) : number c (cs.take n) = number c cs := by
  have hdecimal (h : decimalLength (c :: cs) - 1 ≤ n) :
      decimalLength (c :: cs.take n) = decimalLength (c :: cs) := by
    rw [← List.take_succ_cons, decimalLength_take (by omega)]
  cases cs with
  | nil => rw [List.take_nil]
  | cons x cs =>
    by_cases hbase : c = '0' ∧ isBaseLetter x = true
    · obtain ⟨rfl, hx⟩ := hbase
      have hnumber (cs : List Char) : number '0' (x :: cs) =
          ⟨.number, 1 + runLength (fun d => d.isAlphanum || d == '_') cs, none⟩ := by
        rw [number, if_pos hx]
      rw [hnumber] at h
      obtain ⟨n, rfl⟩ : ∃ m, n = m + 1 := ⟨n - 1, by dsimp only at h; omega⟩
      rw [List.take_succ_cons, hnumber, hnumber, runLength_take (by dsimp only at h; omega)]
    · have hletter (hc : c = '0') : isBaseLetter x = false := Bool.eq_false_iff.2 fun hx => hbase ⟨hc, hx⟩
      have hnumber : number c (x :: cs) = _ := number_eq_decimal fun hc a ha => by
        obtain rfl : x = a := Option.some.inj ha
        exact hletter hc
      rw [hnumber] at h ⊢
      rw [number_eq_decimal, hdecimal h]
      intro hc a ha
      cases n with
      | zero => cases ha
      | succ n =>
        obtain rfl : x = a := Option.some.inj ha
        exact hletter hc

/-! ## Strings, words and operators -/

section
variable {q : Char} {triple : Bool}

theorem take_two_take (h : (cs.take 2 == [q, q]) = true → 2 ≤ n) :
    ((cs.take n).take 2 == [q, q]) = (cs.take 2 == [q, q]) := by
  rw [List.take_take]
  by_cases hn : 2 ≤ n
  · rw [Nat.min_eq_left hn]
  · rw [Bool.eq_false_iff.2 fun hcs => hn (h hcs), beq_eq_false_iff_ne]
    intro heq
    have hlength := congrArg List.length heq
    simp only [List.length_take, List.length_cons, List.length_nil] at hlength
    omega

theorem bodyLength_take (h : (bodyLength q triple cs).1 ≤ n) :
    bodyLength q triple (cs.take n) = bodyLength q triple cs := by
  fun_induction bodyLength q triple cs generalizing n with
  | case1 => rw [List.take_nil, bodyLength]
  | case2 =>
    obtain ⟨n, rfl⟩ : ∃ m, n = m + 1 := ⟨n - 1, by omega⟩
    rw [List.take_succ_cons, List.take_nil, bodyLength]
  | case3 c cs m closed hbody ih =>
    obtain ⟨n, rfl⟩ : ∃ m, n = m + 2 := ⟨n - 2, by dsimp only at h; omega⟩
    rw [hbody] at ih
    rw [List.take_succ_cons, List.take_succ_cons, bodyLength, ih (Nat.le_of_add_le_add_right h)]
  | case4 c cs h₁ h₂ hbreak =>
    cases n with
    | zero => rfl
    | succ n => rw [List.take_succ_cons, bodyLength_cons (ne_slash h₁ h₂), if_pos hbreak]
  | case5 c cs h₁ h₂ hbreak hclose =>
    obtain ⟨n, rfl⟩ : ∃ m, n = m + 1 := ⟨n - 1, by dsimp only at h; omega⟩
    rw [List.take_succ_cons, bodyLength_cons (ne_slash h₁ h₂), if_neg hbreak, if_pos hclose]
  | case6 c cs h₁ h₂ hbreak hsingle hclose =>
    obtain ⟨n, rfl⟩ : ∃ m, n = m + 1 := ⟨n - 1, by dsimp only at h; omega⟩
    rw [List.take_succ_cons, bodyLength_cons (ne_slash h₁ h₂), if_neg hbreak, if_neg hsingle,
      take_two_take fun _ => by dsimp only at h; omega, if_pos hclose]
  | case7 c cs h₁ h₂ hbreak hsingle hclose m closed hbody ih =>
    obtain ⟨n, rfl⟩ : ∃ m, n = m + 1 := ⟨n - 1, by dsimp only at h; omega⟩
    have hopen : (c == q && (cs.take n).take 2 == [q, q]) = false := by
      cases hcs : cs.take 2 == [q, q] with
      | true =>
        have hc : (c == q) = false := Bool.eq_false_iff.2 fun hc => hclose (by rw [hc, hcs]; rfl)
        rw [hc, Bool.false_and]
      | false => rw [take_two_take fun h => absurd (h.symm.trans hcs) (by decide), hcs, Bool.and_false]
    rw [hbody] at ih
    rw [List.take_succ_cons, bodyLength_cons (ne_slash h₁ h₂), if_neg hbreak, if_neg hsingle, hopen,
      if_neg Bool.false_ne_true, ih (Nat.le_of_add_le_add_right h)]

theorem string_take {m : Nat} (h : (string m q cs).more ≤ m + n) :
    string m q (cs.take n) = string m q cs := by
  cases hlong : cs.take 2 == [q, q] with
  | true =>
    obtain ⟨rest, rfl⟩ := exists_of_long cs hlong
    rw [string_of_long] at h
    obtain ⟨n, rfl⟩ : ∃ k, n = k + 2 := ⟨n - 2, by dsimp only at h; omega⟩
    rw [List.take_succ_cons, List.take_succ_cons, string_of_long, string_of_long,
      bodyLength_take (by dsimp only at h; omega)]
  | false =>
    have hlong' : ((cs.take n).take 2 == [q, q]) = false := by
      rw [take_two_take fun h => absurd (h.symm.trans hlong) (by decide), hlong]
    rw [string_of_not_long _ _ hlong] at h
    rw [string_of_not_long _ _ hlong', string_of_not_long _ _ hlong,
      bodyLength_take (Nat.le_of_add_le_add_left h)]

end

section
variable {c : Char}

theorem word_take (h : (word c cs).more ≤ n) : word c (cs.take n) = word c cs := by
  have htake := word_eq c (cs.take n)
  have hplain (hrun : runLength continuesName cs ≤ n) : plainWord c (cs.take n) = plainWord c cs := by
    rw [plainWord, takeWhile_take hrun, runLength_take hrun, plainWord]
  cases hdrop : cs.dropWhile continuesName with
  | nil =>
    have hcs : word c cs = plainWord c cs := by rw [word_eq, hdrop]
    rw [hcs] at h ⊢
    have hrun : runLength continuesName cs ≤ n := h
    rw [dropWhile_take hrun, hdrop, List.take_nil] at htake
    rw [htake]
    exact hplain hrun
  | cons q rest =>
    cases hq : isQuote q && isStringLetters (c :: cs.takeWhile continuesName) with
    | false =>
      rw [word_of_not_letters hdrop hq] at h ⊢
      have hrun : runLength continuesName cs ≤ n := h
      have hdrop' := dropWhile_take hrun
      rw [hdrop] at hdrop'
      cases hm : n - runLength continuesName cs with
      | zero =>
        rw [hm, List.take_zero] at hdrop'
        rw [htake, hdrop']
        exact hplain hrun
      | succ m =>
        rw [hm, List.take_succ_cons] at hdrop'
        rw [word_of_not_letters hdrop' (by rw [takeWhile_take hrun, hq]), hplain hrun]
    | true =>
      rw [word_of_letters hdrop hq] at h ⊢
      have hmore := le_more_string (q := q) (runLength continuesName cs + 1) rest
      have hrun : runLength continuesName cs ≤ n := by omega
      obtain ⟨m, hm⟩ : ∃ m, n - runLength continuesName cs = m + 1 :=
        ⟨n - runLength continuesName cs - 1, by omega⟩
      have hdrop' := dropWhile_take hrun
      rw [hdrop, hm, List.take_succ_cons] at hdrop'
      rw [word_of_letters hdrop' (by rw [takeWhile_take hrun, hq]), runLength_take hrun,
        string_take (by omega)]

/-- Where less is looked for, the same is found first if it still counts. -/
theorem find?_eq_of_imp {α : Type} {p q : α → Bool} {xs : List α} (himp : ∀ x, p x = true → q x = true)
    (hfound : ∀ x, xs.find? q = some x → p x = true) : xs.find? p = xs.find? q := by
  induction xs with
  | nil => rfl
  | cons x xs ih =>
    cases hq : q x with
    | true =>
      have hx : (x :: xs).find? q = some x := List.find?_cons_of_pos hq
      rw [hx, List.find?_cons_of_pos (hfound x hx)]
    | false =>
      have hq' : (x :: xs).find? q = xs.find? q := List.find?_cons_of_neg (by simp [hq])
      have hp : ¬p x = true := fun h => Bool.false_ne_true (hq.symm.trans (himp x h))
      rw [hq', List.find?_cons_of_neg hp]
      exact ih fun y hy => hfound y (hq'.trans hy)

/-- A part of a text starts with fewer operators, and the one that the text starts with is among them. -/
theorem operator_take (h : (operator c cs).more ≤ n) : operator c (cs.take n) = operator c cs := by
  unfold operator at h ⊢
  congr 1
  refine find?_eq_of_imp (fun e htext => ?_) fun e hfind => ?_
  · exact List.isPrefixOf_iff_prefix.2 ((List.isPrefixOf_iff_prefix.1 htext).trans
      ((List.prefix_cons_inj c).2 (List.take_prefix n cs)))
  · have hstarts := List.find?_some hfind
    rw [hfind] at h
    refine List.isPrefixOf_iff_prefix.2 ?_
    rw [← List.take_succ_cons, List.prefix_take_iff]
    exact ⟨List.isPrefixOf_iff_prefix.1 hstarts, by dsimp only at h; omega⟩

/-! ## Tokens -/

theorem breakMore_take (h : breakMore c cs ≤ n) : breakMore c (cs.take n) = breakMore c cs := by
  cases n with
  | zero => exact (Nat.le_zero.1 h).symm ▸ by simp [breakMore]
  | succ n => cases cs <;> rfl

theorem continuation_take (h : (continuation cs).more ≤ n) :
    continuation (cs.take n) = continuation cs := by
  cases cs with
  | nil => rw [List.take_nil]
  | cons b bs =>
    cases hb : isBreak b with
    | false =>
      have hstray (bs : List Char) : continuation (b :: bs) = continuation [] := by
        rw [continuation, hb, if_neg Bool.false_ne_true, continuation]
      rw [hstray]
      cases n with
      | zero => rfl
      | succ n => rw [List.take_succ_cons, hstray]
    | true =>
      have hline (bs : List Char) :
          continuation (b :: bs) = ⟨.lineContinuation, 1 + breakMore b bs, none⟩ := by
        rw [continuation, if_pos hb]
      rw [hline] at h
      obtain ⟨n, rfl⟩ : ∃ k, n = k + 1 := ⟨n - 1, by dsimp only at h; omega⟩
      rw [List.take_succ_cons, hline, hline, breakMore_take (by dsimp only at h; omega)]

theorem scanner_of_take (h : (Reach.scan c cs).more ≤ n) :
    Scanner.of c (cs.take n) = Scanner.of c cs := by
  cases n with
  | succ n => exact Scanner.of_congr (by cases cs <;> rfl)
  | zero =>
    -- A point in front of a digit goes on.
    have hpoint : (c == '.' && cs.head?.any Char.isDigit) = false := by
      refine Bool.eq_false_iff.2 fun hc => ?_
      obtain ⟨hdot, hdigit⟩ := Bool.and_eq_true_iff.1 hc
      obtain rfl := eq_of_beq hdot
      have hscanner : Scanner.of '.' cs = .number := by
        rw [Scanner.of, hdigit]
        rfl
      have hdecimal : decimalLength ('.' :: cs) - 1 ≤ 0 := by
        rwa [scan_eq, hscanner, Scanner.reach, number_eq_decimal fun hc => absurd hc (by decide)] at h
      have hrun := one_le_digitRun hdigit
      have hwhole : digitRun ('.' :: cs) = 0 := rfl
      unfold decimalLength at hdecimal
      simp only [hwhole, List.drop_zero, fractionLength] at hdecimal
      omega
    rw [Scanner.of, Scanner.of, hpoint, List.take_zero, List.head?_nil, Option.any_none, Bool.and_false]

end

end

end Lexeme

open Lexeme in
/-- What is scanned hangs on the characters only that it covers. -/
theorem Reach.scan_take {c : Char} {cs : List Char} {n : Nat} (h : (Reach.scan c cs).more ≤ n) :
    Reach.scan c (cs.take n) = Reach.scan c cs := by
  have hscanner := scanner_of_take h
  rw [scan_eq] at h ⊢
  rw [scan_eq, hscanner]
  cases hs : Scanner.of c cs <;> rw [hs] at h <;> simp only [Scanner.reach] at h ⊢
  case blanks => rw [runLength_take h]
  case comment => rw [commentMore, runLength_take h, commentMore]
  case backslash => exact continuation_take h
  case number => exact number_take h
  case string => exact string_take (by rwa [Nat.zero_add])
  case word => exact word_take h
  case operator => exact operator_take h

end Renumber
