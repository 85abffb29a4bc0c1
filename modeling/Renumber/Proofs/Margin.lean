import Mathlib.Data.List.Forall2
import Mathlib.Data.List.TakeWhile
import Renumber.Margin

/-!
# Taking off a margin

The margin is read off the lines that line feeds end, and taken off them one by one. Cutting a text
behind every line feed (`Text.linesOf`) gives it one more line than line feeds, the last one perhaps
empty; a list of such lines is what `Text.Lined` says, and it is cut back into itself (`linesOf_flatten`).
The margin of lines that are shifted by blanks is the margin behind these blanks (`Margin.ofLines_shift`).
From this follow both that nothing is left to take off (`Margin.strip_strip`) and that a margin put in
front of the lines is taken off again (`Margin.strip_put`).
-/

namespace Renumber

open Text (isBlank feedLines)

/-! ## Lines -/

namespace Text

/-- The text cut behind every line feed; what is behind the last one is a line as well. -/
def linesOf : List Char → List (List Char)
  | [] => [[]]
  | c :: cs => if c = '\n' then [c] :: linesOf cs else prepend c (linesOf cs)

/-- Lines as a text is cut into: all but the last end in a line feed, which is their only one. -/
inductive Lined : List (List Char) → Prop
  | last {line : List Char} : '\n' ∉ line → Lined [line]
  | cons {line : List Char} {lines : List (List Char)} :
      '\n' ∉ line → Lined lines → Lined ((line ++ ['\n']) :: lines)

theorem flatten_linesOf (cs : List Char) : (linesOf cs).flatten = cs := by
  induction cs with
  | nil => rfl
  | cons c cs ih => rw [linesOf]; split <;> simp [ih]

theorem Lined.prepend {c : Char} (hc : c ≠ '\n') {lines : List (List Char)} (h : Lined lines) :
    Lined (prepend c lines) := by
  cases h with
  | last h => exact .last (List.not_mem_cons_of_ne_of_not_mem hc.symm h)
  | cons h hs => exact .cons (List.not_mem_cons_of_ne_of_not_mem hc.symm h) hs

theorem lined_linesOf (cs : List Char) : Lined (linesOf cs) := by
  induction cs with
  | nil => exact .last List.not_mem_nil
  | cons c cs ih =>
    rw [linesOf]
    split
    · rename_i hc
      subst hc
      exact .cons List.not_mem_nil ih
    · rename_i hc
      exact ih.prepend hc

theorem linesOf_of_not_mem {line : List Char} (h : '\n' ∉ line) : linesOf line = [line] := by
  induction line with
  | nil => rfl
  | cons c cs ih =>
    rw [linesOf, if_neg (List.ne_of_not_mem_cons h).symm, ih (List.not_mem_of_not_mem_cons h)]
    rfl

theorem linesOf_append_feed {line : List Char} (h : '\n' ∉ line) (cs : List Char) :
    linesOf (line ++ '\n' :: cs) = (line ++ ['\n']) :: linesOf cs := by
  induction line with
  | nil => rfl
  | cons c line ih =>
    rw [List.cons_append, linesOf, if_neg (List.ne_of_not_mem_cons h).symm,
      ih (List.not_mem_of_not_mem_cons h)]
    rfl

/-- Lines that are put together are cut again where they were. -/
theorem linesOf_flatten {lines : List (List Char)} (h : Lined lines) :
    linesOf lines.flatten = lines := by
  induction h with
  | last h => rw [List.flatten_singleton, linesOf_of_not_mem h]
  | cons h hs ih =>
    rw [List.flatten_cons, List.append_assoc, List.singleton_append, linesOf_append_feed h, ih]

/-- The last line is left out of the lines that line feeds end if nothing is on it. -/
theorem linesOf_eq (cs : List Char) :
    linesOf cs = feedLines cs ∨ linesOf cs = feedLines cs ++ [[]] := by
  induction cs with
  | nil => exact .inr rfl
  | cons c cs ih =>
    rw [linesOf, feedLines]
    split
    · rcases ih with ih | ih <;> simp [ih]
    · rcases ih with ih | ih
      · exact .inl (by rw [ih])
      · rw [ih]
        cases feedLines cs with
        | nil => exact .inl rfl
        | cons line lines => exact .inr rfl

/-- A line is changed, but neither gets nor loses a line feed at its end. -/
def FeedsAlike (line line' : List Char) : Prop :=
  line'.count '\n' = line.count '\n' ∧ (line.getLast? = some '\n' → line'.getLast? = some '\n')

theorem Lined.of_feedsAlike {lines lines' : List (List Char)} (h : Lined lines)
    (halike : List.Forall₂ FeedsAlike lines lines') : Lined lines' := by
  induction h generalizing lines' with
  | last h =>
    cases halike with
    | cons hline hrest =>
      cases hrest
      refine .last (List.count_eq_zero.1 ?_)
      rw [hline.1, List.count_eq_zero.2 h]
  | cons h hs ih =>
    cases halike with
    | cons hline hrest =>
      obtain ⟨line', heq⟩ := List.getLast?_eq_some_iff.1 (hline.2 List.getLast?_concat)
      subst heq
      refine .cons (List.count_eq_zero.1 ?_) (ih hrest)
      have hcount := hline.1
      rw [List.count_append, List.count_append, List.count_eq_zero.2 h] at hcount
      simpa using hcount

theorem Lined.mem {lines : List (List Char)} (h : Lined lines) {line : List Char}
    (hline : line ∈ lines) : '\n' ∉ line ∨ ∃ body, '\n' ∉ body ∧ line = body ++ ['\n'] := by
  induction h with
  | last h =>
    obtain rfl := List.mem_singleton.1 hline
    exact .inl h
  | @cons body _ h _ ih =>
    rcases List.mem_cons.1 hline with rfl | hline
    · exact .inr ⟨body, h, rfl⟩
    · exact ih hline

theorem feedsAlike_append {m : List Char} (hm : '\n' ∉ m) (line : List Char) :
    FeedsAlike line (m ++ line) := by
  refine ⟨by rw [List.count_append, List.count_eq_zero.2 hm, Nat.zero_add], fun hlast => ?_⟩
  rw [List.getLast?_append, hlast]
  rfl

theorem append_feedsAlike {m : List Char} (hm : '\n' ∉ m) (line : List Char) :
    FeedsAlike (m ++ line) line := by
  refine ⟨by rw [List.count_append, List.count_eq_zero.2 hm, Nat.zero_add], fun hlast => ?_⟩
  rw [List.getLast?_append, Option.or_eq_some_iff] at hlast
  exact hlast.resolve_right fun h => hm (List.mem_of_getLast? h.2)

end Text

namespace Margin

open Text (linesOf Lined FeedsAlike)

/-- The margin of a text. -/
def ofText (text : String) : List Char := ofLines (feedLines text.toList)

theorem strip_eq (text : String) : strip text = if (ofText text).isEmpty then text
    else String.ofList ((feedLines text.toList).flatMap (stripLine (ofText text))) := rfl

/-! ## What lines have in common -/

theorem common_prefix_left (as bs : List Char) : common as bs <+: as := by
  fun_induction common as bs with
  | case1 a as bs ih => exact List.cons_prefix_cons.2 ⟨rfl, ih⟩
  | case2 | case3 => exact List.nil_prefix

theorem common_prefix_right (as bs : List Char) : common as bs <+: bs := by
  fun_induction common as bs with
  | case1 a as bs ih => exact List.cons_prefix_cons.2 ⟨rfl, ih⟩
  | case2 | case3 => exact List.nil_prefix

theorem foldl_common_prefix (indent : List Char) (indents : List (List Char)) :
    ∀ i ∈ indent :: indents, indents.foldl common indent <+: i := by
  induction indents generalizing indent with
  | nil => exact fun i hi => List.mem_singleton.1 hi ▸ List.prefix_rfl
  | cons j indents ih =>
    intro i hi
    have hfirst := ih (common indent j) _ List.mem_cons_self
    rcases List.mem_cons.1 hi with rfl | hi
    · exact hfirst.trans (common_prefix_left i j)
    rcases List.mem_cons.1 hi with rfl | hi
    · exact hfirst.trans (common_prefix_right indent i)
    · exact ih _ i (List.mem_cons_of_mem _ hi)

theorem prefix_common {run as bs : List Char} (ha : run <+: as) (hb : run <+: bs) :
    run <+: common as bs := by
  induction run generalizing as bs with
  | nil => exact List.nil_prefix
  | cons c run ih =>
    obtain ⟨as, rfl⟩ := ha
    obtain ⟨bs, rfl⟩ := hb
    rw [List.cons_append, List.cons_append, common, if_pos rfl]
    exact List.cons_prefix_cons.2 ⟨rfl, ih (List.prefix_append ..) (List.prefix_append ..)⟩

theorem prefix_foldl_common {run indent : List Char} {indents : List (List Char)}
    (h : ∀ i ∈ indent :: indents, run <+: i) : run <+: indents.foldl common indent := by
  induction indents generalizing indent with
  | nil => exact h indent List.mem_cons_self
  | cons j indents ih =>
    refine ih fun i hi => ?_
    rcases List.mem_cons.1 hi with rfl | hi
    · exact prefix_common (h indent (by simp)) (h j (by simp))
    · exact h i (by simp [hi])

theorem common_append (m as bs : List Char) : common (m ++ as) (m ++ bs) = m ++ common as bs := by
  induction m with
  | nil => rfl
  | cons c m ih => rw [List.cons_append, List.cons_append, common, if_pos rfl, ih, List.cons_append]

theorem foldl_common_append (m indent : List Char) (indents : List (List Char)) :
    (indents.map (m ++ ·)).foldl common (m ++ indent) = m ++ indents.foldl common indent := by
  induction indents generalizing indent with
  | nil => rfl
  | cons j indents ih => rw [List.map_cons, List.foldl_cons, common_append, ih, List.foldl_cons]

/-! ## The margin of lines -/

/-- The longest beginning in common to what the lines with something on them are indented by. -/
structure IsMargin (lines : List (List Char)) (margin : List Char) : Prop where
  starts {line : List Char} : line ∈ lines → isEmptyLine line = false → margin <+: indentOf line
  longest {run : List Char} : (∃ line ∈ lines, isEmptyLine line = false) →
    (∀ line ∈ lines, isEmptyLine line = false → run <+: indentOf line) → run <+: margin
  none : (∀ line ∈ lines, isEmptyLine line = true) → margin = []

/-- The indentations of the lines with something on them. -/
def indents (lines : List (List Char)) : List (List Char) :=
  (lines.filter fun line => !isEmptyLine line).map indentOf

theorem mem_indents {lines : List (List Char)} {line : List Char} (hline : line ∈ lines)
    (hfull : isEmptyLine line = false) : indentOf line ∈ indents lines :=
  List.mem_map_of_mem (List.mem_filter.2 ⟨hline, by rw [hfull]; rfl⟩)

theorem exists_of_mem_indents {lines : List (List Char)} {indent : List Char}
    (h : indent ∈ indents lines) :
    ∃ line ∈ lines, isEmptyLine line = false ∧ indentOf line = indent := by
  obtain ⟨line, hline, rfl⟩ := List.mem_map.1 h
  obtain ⟨hline, hfull⟩ := List.mem_filter.1 hline
  exact ⟨line, hline, by simpa using hfull, rfl⟩

theorem ofLines_of_indents_eq_nil {lines : List (List Char)} (h : indents lines = []) :
    ofLines lines = [] := by
  unfold ofLines
  rw [← indents, h]

theorem ofLines_of_indents_eq_cons {lines is : List (List Char)} {i : List Char}
    (h : indents lines = i :: is) : ofLines lines = is.foldl common i := by
  unfold ofLines
  rw [← indents, h]

theorem ofLines_congr {lines lines' : List (List Char)} (h : indents lines = indents lines') :
    ofLines lines = ofLines lines' := by
  cases hindents : indents lines' with
  | nil => rw [ofLines_of_indents_eq_nil hindents, ofLines_of_indents_eq_nil (h.trans hindents)]
  | cons i is =>
    rw [ofLines_of_indents_eq_cons hindents, ofLines_of_indents_eq_cons (h.trans hindents)]

theorem isMargin_ofLines (lines : List (List Char)) : IsMargin lines (ofLines lines) := by
  cases hindents : indents lines with
  | nil =>
    have hnone {line : List Char} (hline : line ∈ lines) : isEmptyLine line ≠ false := fun hfull => by
      have hmem := mem_indents hline hfull
      rw [hindents] at hmem
      cases hmem
    rw [ofLines_of_indents_eq_nil hindents]
    exact ⟨fun _ _ => List.nil_prefix, fun ⟨_, hline, hfull⟩ => absurd hfull (hnone hline),
      fun _ => rfl⟩
  | cons i is =>
    have hfirst : i ∈ indents lines := hindents ▸ List.mem_cons_self
    obtain ⟨first, hmem, hfull, -⟩ := exists_of_mem_indents hfirst
    rw [ofLines_of_indents_eq_cons hindents]
    refine ⟨fun hline hfull => ?_, fun _ hrun => prefix_foldl_common fun j hj => ?_, fun hnone => ?_⟩
    · exact foldl_common_prefix i is _ (hindents ▸ mem_indents hline hfull)
    · obtain ⟨line, hline, hfull, rfl⟩ := exists_of_mem_indents (hindents ▸ hj)
      exact hrun line hline hfull
    · rw [hnone first hmem] at hfull
      cases hfull

/-- A margin of blanks in front of a line, unless the line is empty. -/
def ShiftsBy (m line line' : List Char) : Prop :=
  isEmptyLine line = isEmptyLine line' ∧ (isEmptyLine line' = false → line = m ++ line')

theorem indentOf_append {m : List Char} (hm : ∀ c ∈ m, c = ' ' ∨ c = '\t') (line : List Char) :
    indentOf (m ++ line) = m ++ indentOf line :=
  List.takeWhile_append_of_pos fun c hc => by simpa using hm c hc

section
variable {m : List Char} (hm : ∀ c ∈ m, c = ' ' ∨ c = '\t') {lines lines' : List (List Char)}
  (h : List.Forall₂ (ShiftsBy m) lines lines')
include hm h

theorem indents_shift : indents lines = (indents lines').map (m ++ ·) := by
  induction h with
  | nil => rfl
  | @cons line line' lines lines' hline hrest ih =>
    cases hfull : isEmptyLine line' with
    | true =>
      rw [indents, List.filter_cons_of_neg (by simp [hline.1, hfull]), ← indents, ih, indents, indents,
        List.filter_cons_of_neg (by simp [hfull])]
    | false =>
      rw [indents, List.filter_cons_of_pos (by simp [hline.1, hfull]), List.map_cons, ← indents, ih,
        hline.2 hfull, indentOf_append hm, indents, indents,
        List.filter_cons_of_pos (by simp [hfull]), List.map_cons, List.map_cons]

/-- The margin of lines that are shifted. -/
theorem ofLines_shift (hfull : indents lines' ≠ []) : ofLines lines = m ++ ofLines lines' := by
  have hindents := indents_shift hm h
  cases hindents' : indents lines' with
  | nil => exact absurd hindents' hfull
  | cons i is =>
    rw [hindents', List.map_cons] at hindents
    rw [ofLines_of_indents_eq_cons hindents, ofLines_of_indents_eq_cons hindents',
      foldl_common_append]

end

/-! ## Taking the margin off -/

theorem ofText_eq (text : String) : ofText text = ofLines (linesOf text.toList) := by
  rcases Text.linesOf_eq text.toList with h | h
  · rw [ofText, h]
  · rw [h]
    exact ofLines_congr (by simp [indents, isEmptyLine])

theorem mem_ofText {text : String} {c : Char} (hc : c ∈ ofText text) : c = ' ' ∨ c = '\t' := by
  have hmargin := isMargin_ofLines (feedLines text.toList)
  by_cases hfull : ∃ line ∈ feedLines text.toList, isEmptyLine line = false
  · obtain ⟨line, hline, hfull⟩ := hfull
    simpa using List.mem_takeWhile_imp ((hmargin.starts hline hfull).subset hc)
  · rw [ofText, hmargin.none fun line hline => ?_] at hc
    · cases hc
    · push Not at hfull
      simpa using hfull line hline

theorem not_mem_ofText (text : String) : '\n' ∉ ofText text := fun h => by
  have := mem_ofText h
  simp at this

theorem toList_strip {text : String} (h : ofText text ≠ []) :
    (strip text).toList = ((linesOf text.toList).map (stripLine (ofText text))).flatten := by
  rw [strip_eq, if_neg (by rwa [List.isEmpty_iff]), String.toList_ofList, ← List.flatMap_def]
  rcases Text.linesOf_eq text.toList with hlines | hlines
  · rw [hlines]
  · rw [hlines, List.flatMap_append, List.flatMap_singleton]
    exact (List.append_nil _).symm

/-- What is left of a line: without the margin, or its end if there is nothing on it. -/
def Left (m line line' : List Char) : Prop :=
  if isEmptyLine line then line' = lineEnd line else line = m ++ line'

theorem left_stripLine {m line : List Char} (h : isEmptyLine line = false → m <+: line) :
    Left m line (stripLine m line) := by
  rw [Left, stripLine]
  split
  · rfl
  · rename_i hfull
    obtain ⟨line, rfl⟩ := h (by simpa using hfull)
    rw [if_pos (by simp), List.drop_left]

theorem lineEnd_suffix (line : List Char) : lineEnd line <:+ line := by
  rw [lineEnd, ← List.reverse_prefix, List.reverse_reverse]
  exact List.takeWhile_prefix _

theorem Left.feedsAlike {m line line' : List Char} (hm : '\n' ∉ m) (h : Left m line line')
    (hline : '\n' ∉ line ∨ ∃ body, '\n' ∉ body ∧ line = body ++ ['\n']) : FeedsAlike line line' := by
  unfold Left at h
  split at h
  · subst h
    rcases hline with hline | ⟨body, hbody, rfl⟩
    · have hline' : '\n' ∉ lineEnd line := fun h => hline ((lineEnd_suffix line).subset h)
      exact ⟨by rw [List.count_eq_zero.2 hline, List.count_eq_zero.2 hline'],
        fun h => absurd (List.mem_of_getLast? h) hline⟩
    · have hbody' : '\n' ∉ lineEnd body := fun h => hbody ((lineEnd_suffix body).subset h)
      have hend : lineEnd (body ++ ['\n']) = lineEnd body ++ ['\n'] := by simp [lineEnd]
      rw [hend]
      refine ⟨?_, fun _ => List.getLast?_concat⟩
      rw [List.count_append, List.count_append, List.count_eq_zero.2 hbody,
        List.count_eq_zero.2 hbody']
  · subst h
    exact Text.append_feedsAlike hm line'

theorem isEmptyLine_append {m : List Char} (hm : ∀ c ∈ m, c = ' ' ∨ c = '\t') (line : List Char) :
    isEmptyLine (m ++ line) = isEmptyLine line := by
  have hblank : m.all isBlank = true := List.all_eq_true.2 fun c hc => by
    rcases hm c hc with rfl | rfl <;> rfl
  rw [isEmptyLine, List.all_append, hblank, Bool.true_and, isEmptyLine]

theorem Left.shiftsBy {m line line' : List Char} (hm : ∀ c ∈ m, c = ' ' ∨ c = '\t')
    (h : Left m line line') : ShiftsBy m line line' := by
  unfold Left at h
  split at h
  · rename_i hempty
    have hempty' : isEmptyLine line' = true := List.all_eq_true.2 fun c hc =>
      List.all_eq_true.1 hempty c ((lineEnd_suffix line).subset (h ▸ hc))
    exact ⟨hempty.trans hempty'.symm, fun hfull => by rw [hempty'] at hfull; cases hfull⟩
  · subst h
    exact ⟨isEmptyLine_append hm line', fun _ => rfl⟩

theorem left_of_mem {text : String} {line : List Char} (hline : line ∈ linesOf text.toList) :
    Left (ofText text) line (stripLine (ofText text) line) := by
  refine left_stripLine fun hfull => ?_
  rw [ofText_eq]
  exact ((isMargin_ofLines _).starts hline hfull).trans (List.takeWhile_prefix _)

theorem linesOf_strip {text : String} (h : ofText text ≠ []) :
    linesOf (strip text).toList = (linesOf text.toList).map (stripLine (ofText text)) := by
  have hlined := Text.lined_linesOf text.toList
  rw [toList_strip h, Text.linesOf_flatten (hlined.of_feedsAlike ?_)]
  rw [List.forall₂_map_right_iff, List.forall₂_same]
  exact fun line hline => (left_of_mem hline).feedsAlike (not_mem_ofText text) (hlined.mem hline)

theorem left_linesOf {text : String} (h : ofText text ≠ []) :
    List.Forall₂ (Left (ofText text)) (linesOf text.toList) (linesOf (strip text).toList) := by
  rw [linesOf_strip h, List.forall₂_map_right_iff, List.forall₂_same]
  exact fun line hline => left_of_mem hline

/-- What is left has no margin. -/
theorem ofText_strip (text : String) : ofText (strip text) = [] := by
  by_cases h : ofText text = []
  · rw [strip_eq, h]
    exact h
  · have hleft : List.Forall₂ (ShiftsBy (ofText text)) (linesOf text.toList)
        (linesOf (strip text).toList) :=
      (left_linesOf h).imp fun _ _ => Left.shiftsBy fun _ => mem_ofText
    have hindents : indents (linesOf (strip text).toList) ≠ [] := by
      intro hnone
      have hshift := indents_shift (fun _ => mem_ofText) hleft
      rw [hnone] at hshift
      exact h (by rw [ofText_eq, ofLines_of_indents_eq_nil hshift])
    have hmargin := ofLines_shift (fun _ => mem_ofText) hleft hindents
    rw [← ofText_eq, ← ofText_eq] at hmargin
    exact List.append_right_eq_self.1 hmargin.symm

/-- Only a text without a margin is left alone. -/
theorem strip_eq_self_iff (text : String) : strip text = text ↔ ofText text = [] := by
  constructor
  · intro h
    rw [← h]
    exact ofText_strip text
  · intro h
    rw [strip_eq, h]
    rfl

theorem strip_strip (text : String) : strip (strip text) = strip text :=
  (strip_eq_self_iff _).2 (ofText_strip text)

/-! ## Putting a margin in front -/

/-- A line with a margin in front, unless there is nothing on it. -/
def putLine (m line : List Char) : List Char := if isEmptyLine line then line else m ++ line

/-- A text with a margin in front of every line with something on it. -/
def put (m : List Char) (text : String) : String :=
  String.ofList ((linesOf text.toList).flatMap (putLine m))

theorem put_eq_self {m : List Char} {text : String}
    (h : m = [] ∨ indents (linesOf text.toList) = []) : put m text = text := by
  have hline : ∀ line ∈ linesOf text.toList, putLine m line = line := by
    intro line hline
    rw [putLine]
    split
    · rfl
    · rename_i hfull
      rcases h with rfl | h
      · rfl
      · have hmem := mem_indents hline (by simpa using hfull)
        rw [h] at hmem
        cases hmem
  rw [put, List.flatMap_def, List.map_congr_left hline, List.map_id', Text.flatten_linesOf,
    String.ofList_toList]


section
variable {m : List Char} (hm : ∀ c ∈ m, c = ' ' ∨ c = '\t')
include hm

theorem putLine_feedsAlike (line : List Char) : FeedsAlike line (putLine m line) := by
  have hfeed : '\n' ∉ m := fun h => by
    have := hm _ h
    simp at this
  rw [putLine]
  split
  · exact ⟨rfl, id⟩
  · exact Text.feedsAlike_append hfeed line

theorem putLine_shiftsBy (line : List Char) : ShiftsBy m (putLine m line) line := by
  rw [putLine]
  split
  · rename_i hempty
    exact ⟨rfl, fun hfull => by rw [hempty] at hfull; cases hfull⟩
  · exact ⟨isEmptyLine_append hm line, fun _ => rfl⟩

theorem stripLine_putLine {line : List Char} (h : isEmptyLine line = true → lineEnd line = line) :
    stripLine m (putLine m line) = line := by
  rw [putLine]
  split
  · rename_i hempty
    rw [stripLine, if_pos hempty, h hempty]
  · rename_i hfull
    rw [stripLine, if_neg (by rwa [isEmptyLine_append hm]), if_pos (by simp), List.drop_left]

theorem linesOf_put (text : String) :
    linesOf (put m text).toList = (linesOf text.toList).map (putLine m) := by
  rw [put, String.toList_ofList, List.flatMap_def]
  refine Text.linesOf_flatten ((Text.lined_linesOf text.toList).of_feedsAlike ?_)
  rw [List.forall₂_map_right_iff, List.forall₂_same]
  exact fun line _ => putLine_feedsAlike hm line

/-- A margin that was put in front of the lines is taken off them again. -/
theorem strip_put {text : String} (hmargin : ofText text = [])
    (hends : ∀ line ∈ linesOf text.toList, isEmptyLine line = true → lineEnd line = line) :
    strip (put m text) = text := by
  by_cases hself : m = [] ∨ indents (linesOf text.toList) = []
  · rw [put_eq_self hself]
    exact (strip_eq_self_iff text).2 hmargin
  · obtain ⟨hne, hindents⟩ := not_or.1 hself
    have hshift : List.Forall₂ (ShiftsBy m) (linesOf (put m text).toList) (linesOf text.toList) := by
      rw [linesOf_put hm, List.forall₂_map_left_iff, List.forall₂_same]
      exact fun line _ => putLine_shiftsBy hm line
    have hput := ofLines_shift hm hshift hindents
    rw [← ofText_eq, ← ofText_eq, hmargin, List.append_nil] at hput
    apply String.toList_injective
    have hlines : ∀ line ∈ linesOf text.toList, (stripLine m ∘ putLine m) line = line :=
      fun line hline => stripLine_putLine hm (hends line hline)
    rw [toList_strip (by rwa [hput]), hput, linesOf_put hm, List.map_map, List.map_congr_left hlines,
      List.map_id', Text.flatten_linesOf]

end

/-! ## What is taken off -/

/-- The margin is the longest beginning that the indentations of the lines with something on them have
in common. Without one the text stays as it is; else there are as many lines as before, a line with
something on it is without the margin, and any other keeps the line end only. Then there is no margin
left, and a margin put in front of the lines of a text without one is taken off again. -/
theorem strip_lines (text : String) :
    IsMargin (linesOf text.toList) (ofText text) ∧
    (ofText text = [] → strip text = text) ∧
    (ofText text ≠ [] → List.Forall₂
      (fun line line' => if isEmptyLine line then line' = lineEnd line else line = ofText text ++ line')
      (linesOf text.toList) (linesOf (strip text).toList)) ∧
    strip (strip text) = strip text ∧
    (ofText text = [] →
      (∀ line ∈ linesOf text.toList, isEmptyLine line = true → lineEnd line = line) →
        ∀ m : List Char, (∀ c ∈ m, c = ' ' ∨ c = '\t') → strip (put m text) = text) := by
  refine ⟨?_, (strip_eq_self_iff text).2, left_linesOf, strip_strip text,
    fun h hends m hm => strip_put hm h hends⟩
  rw [ofText_eq]
  exact isMargin_ofLines _

/-- A margin of a tab and a blank in front of two lines, and none in front of the empty one. -/
theorem strip_put_block : put ['\t', ' '] "a:\r\n\n  b" = "\t a:\r\n\n\t   b" ∧
    strip "a:\r\n\n  b" = "a:\r\n\n  b" ∧ strip "\t a:\r\n\n\t   b" = "a:\r\n\n  b" ∧
    List.Forall₂
      (fun line line' => if isEmptyLine line then line' = lineEnd line else line = ['\t', ' '] ++ line')
      (linesOf "\t a:\r\n\n\t   b".toList) (linesOf "a:\r\n\n  b".toList) := by
  have hput : put ['\t', ' '] "a:\r\n\n  b" = "\t a:\r\n\n\t   b" := by decide
  have hmargin : ofText "\t a:\r\n\n\t   b" = ['\t', ' '] := by decide
  obtain ⟨-, hself, -, -, hstrip⟩ := strip_lines "a:\r\n\n  b"
  have hback := hstrip (by decide) (by decide) ['\t', ' '] (by simp)
  rw [hput] at hback
  have hleft := (strip_lines "\t a:\r\n\n\t   b").2.2.1 (by decide)
  rw [hmargin, hback] at hleft
  exact ⟨hput, hself (by decide), hback, hleft⟩

end Margin

end Renumber
