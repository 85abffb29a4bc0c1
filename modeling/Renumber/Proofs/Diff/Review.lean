import Renumber.Diff.Review
import Renumber.Proofs.Diff.Hunks

/-!
# What a review shows

A line is shown with its sign and without a character lost but blanks (`filter_collapse`), and of these
only spaces are left (`plain_collapse`), so it takes one line of the review. The review of two
texts is its heading and hunks that turn the one into the other, each with a header that says which lines
these are (`review_turns`).
-/

namespace Renumber.Diff

open Text (isBlank breakLines feedLines)

/-! ## Lines as they are shown -/

theorem flatten_wordsOf (cs : List Char) :
    (wordsOf cs).flatten = cs.filter fun c => !isBlank c := by
  induction cs with
  | nil => rfl
  | cons c cs ih =>
    rw [wordsOf.eq_def]
    dsimp only
    by_cases hc : isBlank c = true
    · rw [if_pos hc, ih, List.filter_cons_of_neg (by simp [hc])]
    · rw [if_neg hc, List.filter_cons_of_pos (by simp [hc])]
      cases cs with
      | nil => rfl
      | cons d cs =>
        dsimp only
        split
        · rw [List.flatten_cons, ih]
          rfl
        · rw [Text.flatten_prepend, ih]

theorem toList_collapse (line : List Char) :
    (collapse line).toList = [' '].intercalate (wordsOf line) := by
  have hwords : ((wordsOf line).map String.ofList).map String.toList = wordsOf line := by
    simp [Function.comp_def, String.toList_ofList]
  rw [collapse, String.toList_intercalate, hwords]
  rfl

/-- What is kept of words put together with spaces is kept of the words. -/
theorem filter_intercalate (ws : List (List Char)) :
    ([' '].intercalate ws).filter (fun c => !isBlank c) = ws.flatten.filter fun c => !isBlank c := by
  induction ws with
  | nil => rfl
  | cons w ws ih =>
    cases ws with
    | nil => simp
    | cons v ws =>
      have hspace : [' '].filter (fun c => !isBlank c) = [] := by decide
      rw [List.intercalate_cons_of_ne_nil (List.cons_ne_nil v ws), List.filter_append,
        List.filter_append, ih, hspace, List.append_nil, List.flatten_cons (l := w), List.filter_append]

/-- A line is shown with all its characters but the blanks, in order. -/
theorem filter_collapse (line : List Char) :
    ((collapse line).toList.filter fun c => !isBlank c) = line.filter fun c => !isBlank c := by
  rw [toList_collapse, filter_intercalate, flatten_wordsOf, List.filter_filter]
  simp

theorem mem_intercalate {c : Char} {ws : List (List Char)} (h : c ∈ [' '].intercalate ws) :
    c = ' ' ∨ c ∈ ws.flatten := by
  induction ws with
  | nil => cases h
  | cons w ws ih =>
    cases ws with
    | nil => exact .inr (by simpa using h)
    | cons v ws =>
      rw [List.intercalate_cons_of_ne_nil (List.cons_ne_nil v ws), List.mem_append,
        List.mem_append, List.mem_singleton] at h
      rw [List.flatten_cons, List.mem_append]
      rcases h with (h | h) | h
      · exact .inr (.inl h)
      · exact .inl h
      · exact (ih h).imp_right .inr

/-- Of all blanks, what is shown has spaces only. -/
def Plain (s : String) : Prop := ∀ c ∈ s.toList, isBlank c = true → c = ' '

instance : DecidablePred Plain := fun s =>
  decidable_of_iff (s.toList.all (fun c => !isBlank c || c == ' ') = true) (by
    rw [List.all_eq_true]
    refine forall₂_congr fun c _ => ?_
    rw [Bool.or_eq_true, Bool.not_eq_true', beq_iff_eq]
    cases isBlank c <;> simp)

theorem plain_collapse (line : List Char) : Plain (collapse line) := by
  intro c hc hblank
  rw [toList_collapse] at hc
  rcases mem_intercalate hc with hspace | hword
  · exact hspace
  · rw [flatten_wordsOf, List.mem_filter, hblank] at hword
    cases hword.2

theorem Plain.append {s t : String} (hs : Plain s) (ht : Plain t) : Plain (s ++ t) := by
  intro c hc hblank
  rw [String.toList_append] at hc
  rcases List.mem_append.1 hc with hc | hc
  · exact hs c hc hblank
  · exact ht c hc hblank

theorem not_isBlank_of_isDigit {c : Char} (h : c.isDigit = true) : isBlank c = false := by
  rw [Char.isDigit, Bool.and_eq_true, decide_eq_true_eq, decide_eq_true_eq] at h
  have hlow : 48 ≤ c.toNat := h.1
  have hhigh : c.toNat ≤ 57 := h.2
  have hascii : Text.isAscii c = true := by
    rw [Text.isAscii, decide_eq_true_eq]
    omega
  have hspace : (c == ' ') = false := by
    rw [beq_eq_false_iff_ne]
    rintro rfl
    exact absurd hlow (by decide)
  have hreturn : ¬ c ≤ '\r' := by
    intro hle
    have hle : c.toNat ≤ 13 := hle
    omega
  rw [isBlank, if_pos hascii, hspace, decide_eq_false hreturn, Bool.and_false, Bool.or_false]

theorem plain_toString (n : Nat) : Plain (toString n) := by
  intro c hc hblank
  rw [Nat.toString_eq_repr, Nat.toList_repr] at hc
  rw [not_isBlank_of_isDigit (Nat.isDigit_of_mem_toDigits (by decide) (by decide) hc)] at hblank
  cases hblank

theorem plain_rangeText (start length : Nat) : Plain (rangeText start length) :=
  ((plain_toString _).append (by decide)).append (plain_toString _)

theorem plain_header (h : Hunk) : Plain h.header := by
  have hstart : Plain "@@ -" := by decide
  have hmiddle : Plain " +" := by decide
  have hend : Plain " @@" := by decide
  exact (((hstart.append (plain_rangeText _ _)).append hmiddle).append (plain_rangeText _ _)).append hend

theorem plain_reviewLines {old new line : String} (h : line ∈ reviewLines old new) : Plain line := by
  unfold reviewLines at h
  split at h
  · cases h
  · rcases List.mem_append.1 h with hheading | hhunk
    · rw [heading, List.mem_pair] at hheading
      rcases hheading with rfl | rfl <;> decide
    · obtain ⟨g, -, hg⟩ := List.mem_flatMap.1 hhunk
      rcases List.mem_cons.1 hg with rfl | hbody
      · exact plain_header g
      · rw [Hunk.body, List.mem_append, List.mem_map, List.mem_map] at hbody
        rcases hbody with ⟨l, -, rfl⟩ | ⟨l, -, rfl⟩
        · exact plain_collapse _
        · exact plain_collapse _

/-! ## Lines of a review -/

theorem feedLines_append {cs : List Char} (h : '\n' ∉ cs) (rest : List Char) :
    feedLines (cs ++ '\n' :: rest) = (cs ++ ['\n']) :: feedLines rest := by
  induction cs with
  | nil => rfl
  | cons c cs ih =>
    rw [List.mem_cons, not_or] at h
    rw [List.cons_append, feedLines, if_neg fun hc => h.1 hc.symm, ih h.2]
    rfl

theorem feedLines_flatMap {lines : List String} (h : ∀ l ∈ lines, '\n' ∉ l.toList) :
    feedLines (lines.flatMap fun l => l.toList ++ ['\n']) = lines.map fun l => l.toList ++ ['\n'] := by
  induction lines with
  | nil => rfl
  | cons l lines ih =>
    rw [List.flatMap_cons, List.append_assoc, List.singleton_append,
      feedLines_append (h l List.mem_cons_self), ih fun m hm => h m (List.mem_cons_of_mem _ hm)]
    rfl

/-- The lines of a review are cut where its lines end. -/
theorem feedLines_review (old new : String) :
    feedLines (review old new).toList =
      (reviewLines old new).map fun l => l.toList ++ ['\n'] := by
  have hbreak : ∀ l ∈ reviewLines old new, '\n' ∉ l.toList := by
    intro l hl hmem
    exact absurd (plain_reviewLines hl _ hmem (by decide)) (by decide)
  have htext : (review old new).toList = (reviewLines old new).flatMap fun l => l.toList ++ ['\n'] := by
    rw [review, String.toList_join, List.flatMap_map]
    simp only [String.toList_append]
    rfl
  rw [htext, feedLines_flatMap hbreak]

theorem breakLines_injective {old new : String} (h : breakLines old.toList = breakLines new.toList) :
    old = new := by
  have hflatten := congrArg List.flatten h
  rw [Text.flatten_breakLines, Text.flatten_breakLines] at hflatten
  exact String.toList_inj.1 hflatten

/-- The lines of a hunk as they are shown, by the ranges of its header. -/
def Hunk.shown (h : Hunk) (before after : List (List Char)) : List String :=
  (h.oldRange.lines before).map (fun l => collapse ('-' :: l)) ++
    (h.newRange.lines after).map fun l => collapse ('+' :: l)

/-- The review of two texts that differ is a heading and hunks. Each has a header with a range of either
text and the lines of these ranges, shown with a sign on a line each, all of them but for blanks. The
ranges come one after the other and lie in the texts; the lines outside them are the same in both, so
the old text with the new ranges for the old ones is the new text. The changes follow each other in both
texts wherever they have lines; what is asked of them is that the first of them, if nothing comes before
it, is where both texts begin, also if it has lines of one text only. -/
theorem review_turns {old new : String} (hne : old ≠ new)
    (htop : FromTop (settle (breakLines old.toList) (breakLines new.toList)
      (scriptFrom 0 0 (breakLines old.toList) (breakLines new.toList)))) :
    let before := breakLines old.toList
    let after := breakLines new.toList
    ∃ hs : List Hunk, hs ≠ [] ∧
      feedLines (review old new).toList =
        (heading ++ hs.flatMap fun h => h.header :: h.shown before after).map
          (fun l => l.toList ++ ['\n']) ∧
      (∀ h ∈ hs, ∀ l ∈ h.shown before after, Plain l) ∧
      (∀ sign line, isBlank sign = false →
        ((collapse (sign :: line)).toList.filter fun c => !isBlank c) =
          sign :: line.filter fun c => !isBlank c) ∧
      (∀ h ∈ hs, h.oldRange.stop ≤ before.length ∧ h.newRange.stop ≤ after.length ∧
        (h.oldRange.lines before).length = h.oldRange.length ∧
        (h.newRange.lines after).length = h.newRange.length) ∧
      hs.Pairwise (fun h h' => h.oldRange.stop ≤ h'.oldRange.start ∧
        h.newRange.stop ≤ h'.newRange.start) ∧
      outside (hs.map Hunk.oldRange) before = outside (hs.map Hunk.newRange) after ∧
      substitute before 0 (hs.map fun h => (h.oldRange, h.newRange.lines after)) = after := by
  intro before after
  have hturns : Turns before after 0 0 (hunks before after) :=
    turns_hunks (leads_settle before after) htop
  refine ⟨hunks before after, ?_, ?_, ?_, ?_, ?_, hturns.pairwise, hturns.outside_eq,
    hturns.substitute_eq⟩
  · intro hnil
    rw [hnil] at hturns
    exact hne (breakLines_injective hturns.drop_eq)
  · have hbody : ∀ h ∈ hunks before after, h.header :: h.body before after =
        h.header :: h.shown before after := by
      intro h hh
      obtain ⟨hold, hnew⟩ := hturns.lines_eq h hh
      rw [Hunk.body, Hunk.shown, hold, hnew]
    have hlines : reviewLines old new =
        heading ++ (hunks before after).flatMap fun h => h.header :: h.shown before after := by
      rw [reviewLines, if_neg (by simpa using hne)]
      exact congrArg (heading ++ ·) (List.flatMap_congr hbody)
    rw [feedLines_review, hlines]
  · intro h _ l hl
    rcases List.mem_append.1 hl with hl | hl
    · obtain ⟨line, -, rfl⟩ := List.mem_map.1 hl
      exact plain_collapse _
    · obtain ⟨line, -, rfl⟩ := List.mem_map.1 hl
      exact plain_collapse _
  · intro sign line hsign
    rw [filter_collapse, List.filter_cons_of_pos (by simp [hsign])]
  · intro h hh
    obtain ⟨-, hold, -, hnew⟩ := hturns.inside h hh
    exact ⟨hold, hnew, length_lines hold, length_lines hnew⟩

/-- Two calls that get codes in a text of four lines. -/
theorem review_turns_separate :
    let old := "f()\nx\ny\nf()\n"
    let new := "f(1)\nx\ny\nf(2)\n"
    let before := breakLines old.toList
    let after := breakLines new.toList
    old ≠ new ∧ FromTop (settle before after (scriptFrom 0 0 before after)) ∧
    ∃ hs : List Hunk, hs ≠ [] ∧
      feedLines (review old new).toList =
        (heading ++ hs.flatMap fun h => h.header :: h.shown before after).map
          (fun l => l.toList ++ ['\n']) ∧
      (∀ h ∈ hs, ∀ l ∈ h.shown before after, Plain l) ∧
      (∀ sign line, isBlank sign = false →
        ((collapse (sign :: line)).toList.filter fun c => !isBlank c) =
          sign :: line.filter fun c => !isBlank c) ∧
      (∀ h ∈ hs, h.oldRange.stop ≤ before.length ∧ h.newRange.stop ≤ after.length ∧
        (h.oldRange.lines before).length = h.oldRange.length ∧
        (h.newRange.lines after).length = h.newRange.length) ∧
      hs.Pairwise (fun h h' => h.oldRange.stop ≤ h'.oldRange.start ∧
        h.newRange.stop ≤ h'.newRange.start) ∧
      outside (hs.map Hunk.oldRange) before = outside (hs.map Hunk.newRange) after ∧
      substitute before 0 (hs.map fun h => (h.oldRange, h.newRange.lines after)) = after := by
  intro old new before after
  have hne : old ≠ new := by decide
  have htop : FromTop (settle before after (scriptFrom 0 0 before after)) := by decide +kernel
  exact ⟨hne, htop, review_turns hne htop⟩

end Renumber.Diff
