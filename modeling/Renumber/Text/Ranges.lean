/-!
# Classes of characters as ranges

A class of characters beyond ASCII is a list of ranges of code points, both ends included. The ASCII
part of each class is a rule of its own, so that what holds of ASCII text needs no table.
-/

namespace Renumber.Text

/-- Ranges of code points, both ends included. -/
abbrev Ranges := List (Nat × Nat)

/-- A code point lies in one of the ranges. -/
def Ranges.holds (rs : Ranges) (n : Nat) : Bool := rs.any fun r => r.1 ≤ n && n ≤ r.2

/-- A character lies below U+0080. -/
def isAscii (c : Char) : Bool := c.toNat < 0x80

end Renumber.Text
