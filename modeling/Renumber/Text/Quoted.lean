import Renumber.Text.Printed

/-!
# Quoted text

How a text is shown inside double quotes: the usual controls, the quote and the backslash have an
escape of one letter; a character that joins its neighbour or has no glyph is shown by its number.
-/

namespace Renumber.Text

/-- The escape by number, in lower case and without leading zeros. -/
def numbered (c : Char) : List Char :=
  "\\u\x7b".toList ++ Nat.toDigits 16 c.toNat ++ ['\x7d']

/-- How one character is shown inside double quotes. -/
def escaped (c : Char) : List Char :=
  match c with
  | '\x00' => ['\\', '0']
  | '\t' => ['\\', 't']
  | '\r' => ['\\', 'r']
  | '\n' => ['\\', 'n']
  | '\x22' => ['\\', '\x22']
  | '\\' => ['\\', '\\']
  | c => if isExtending c || !isPrintable c then numbered c else [c]

/-- The text between double quotes. -/
def quoted (s : String) : String :=
  String.ofList ('\x22' :: s.toList.flatMap escaped ++ ['\x22'])

end Renumber.Text
