import Renumber.Text.Quoted
import Renumber.Tree

/-!
# Outlines

A tree as indented lines, one for each element. A token shows its text in quotes.
-/

namespace Renumber.Tree

/-- The line of an element at a depth. -/
def outlineLine (depth : Nat) (t : Tree) : String :=
  "".pushn ' ' (2 * depth) ++
    match t with
    | token t => t.kind.label ++ " " ++ Text.quoted t.text
    | node k _ => k.label

/-- The lines of a tree, each element before the ones it holds. -/
def outline (t : Tree) : List String :=
  t.elements.map fun (p, u) => outlineLine p.length u

end Renumber.Tree
