/-!
# Positions in a text

A byte offset as a line and a column, both counted from one. Only the line feed starts a line, and a
column counts characters.
-/

namespace Renumber.Text

/-- A line and a column, both counted from one. -/
structure Position where
  line : Nat
  column : Nat
deriving DecidableEq, Repr

/-- The characters that end within the first bytes of a text. -/
def upTo : Nat → List Char → List Char
  | _, [] => []
  | n, c :: cs => if c.utf8Size ≤ n then c :: upTo (n - c.utf8Size) cs else []

/-- The position just after the characters given. -/
def Position.after (before : List Char) : Position :=
  ⟨before.count '\n' + 1, (before.reverse.takeWhile (· ≠ '\n')).length + 1⟩

/-- The position of a byte offset; an offset inside a character is that of the character. -/
def Position.ofOffset (source : String) (offset : Nat) : Position :=
  .after (upTo offset source.toList)

end Renumber.Text
