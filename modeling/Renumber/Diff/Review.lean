import Renumber.Diff.Hunk
import Renumber.Text.Blank
import Renumber.Text.Lines

/-!
# Reviews

The difference of two texts for a reader who goes through many: no lines around a change, and every run
of blanks in a line shown as one space, so that indentation does not hide what was changed. The sign of
a line is part of what is shown, so a line that starts with blanks has a space behind its sign.
-/

namespace Renumber.Diff

open Text (isBlank breakLines)

/-- The words of a line. -/
def wordsOf : List Char → List (List Char)
  | [] => []
  | c :: cs =>
    if isBlank c then wordsOf cs
    else
      match cs with
      | [] => [[c]]
      | d :: _ =>
        if isBlank d then [c] :: wordsOf cs
        else Text.prepend c (wordsOf cs)

/-- A line with each run of blanks as one space and without blanks at both ends. -/
def collapse (line : List Char) : String :=
  " ".intercalate ((wordsOf line).map String.ofList)

/-- The heading of a review. -/
def heading : List String := ["--- Before Fix", "+++ After Fix"]

/-- The range of a hunk on one side, in the words of its header. -/
def rangeText (start length : Nat) : String := toString (start + 1) ++ "," ++ toString length

/-- The header of a hunk. -/
def Hunk.header (h : Hunk) : String :=
  "@@ -" ++ rangeText h.oldStart h.old.length ++ " +" ++ rangeText h.newStart h.new.length ++ " @@"

/-- The lines of a hunk as they are shown: first those that go, then those that come. -/
def Hunk.body (h : Hunk) (old new : List (List Char)) : List String :=
  (h.old.lines old).map (fun l => collapse ('-' :: l)) ++
    (h.new.lines new).map fun l => collapse ('+' :: l)

/-- The lines of the review of two texts; none if they are equal. -/
def reviewLines (old new : String) : List String :=
  if old == new then []
  else
    let before := breakLines old.toList
    let after := breakLines new.toList
    heading ++ (hunks before after).flatMap fun h => h.header :: h.body before after

/-- The review of two texts, each line with a line feed. -/
def review (old new : String) : String :=
  String.join ((reviewLines old new).map (· ++ "\n"))

end Renumber.Diff
