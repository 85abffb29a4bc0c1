import Renumber.Text.Blank
import Renumber.Text.Lines

/-!
# Margins

The margin of a text is the longest run of spaces and tabs that starts every line with something on
it. Taking it off (`Margin.strip`) also empties the lines that hold blanks only, but for the line end;
a text without a margin stays as it is.
-/

namespace Renumber.Margin

open Text (isBlank feedLines)

/-- A line holds nothing but blanks. -/
def isEmptyLine (line : List Char) : Bool := line.all isBlank

/-- The spaces and tabs that a line starts with. -/
def indentOf (line : List Char) : List Char := line.takeWhile fun c => c == ' ' || c == '\t'

/-- The longest common beginning. -/
def common : List Char → List Char → List Char
  | a :: as, b :: bs => if a = b then a :: common as bs else []
  | _, _ => []

/-- The margin of the lines that are not empty; without such a line there is none. -/
def ofLines (lines : List (List Char)) : List Char :=
  match (lines.filter fun l => !isEmptyLine l).map indentOf with
  | [] => []
  | i :: is => is.foldl common i

/-- The carriage returns and line feeds that a line ends in. -/
def lineEnd (line : List Char) : List Char :=
  (line.reverse.takeWhile fun c => c == '\r' || c == '\n').reverse

/-- A line without the margin. -/
def stripLine (margin : List Char) (line : List Char) : List Char :=
  if isEmptyLine line then lineEnd line
  else if margin.isPrefixOf line then line.drop margin.length
  else line

/-- The text without its margin. -/
def strip (text : String) : String :=
  let lines := feedLines text.toList
  let margin := ofLines lines
  if margin.isEmpty then text else String.ofList (lines.flatMap (stripLine margin))

end Renumber.Margin
