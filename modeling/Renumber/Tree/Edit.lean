import Renumber.Failure
import Renumber.Text.Quoted
import Renumber.Tree.Leading

/-!
# Edits

An edit puts a list of elements in the place of one element (`substitute`). It changes the list of
children of one node and nothing else, so the root, which is nobody's child, cannot be edited.
-/

namespace Renumber.Tree

/-- Puts what a function makes of the element at the end of a path in its place. -/
def substitute (f : Tree → List Tree) : List Nat → Tree → List Tree
  | [], t => f t
  | _ :: _, token t => [token t]
  | i :: p, node k cs =>
    match cs[i]? with
    | none => [node k cs]
    | some c => [node k (cs.take i ++ substitute f p c ++ cs.drop (i + 1))]

/-- Puts what a function makes of an element in its place, unless the element is the root. -/
def edit (root : Tree) (p : List Nat) (f : Tree → List Tree) : Except Failure Tree :=
  match p with
  | [] => .error (.internal (root.kind.label ++ " has no parent to edit"))
  | p =>
    match substitute f p root with
    | [t] => .ok t
    | _ => .ok root

/-- Puts elements directly before an element. -/
def insertBefore (root : Tree) (p : List Nat) (new : List Tree) : Except Failure Tree :=
  root.edit p fun t => new ++ [t]

/-- Puts elements directly after an element. -/
def insertAfter (root : Tree) (p : List Nat) (new : List Tree) : Except Failure Tree :=
  root.edit p fun t => t :: new

/-- Puts an element in the place of another. The trivia around it stay. -/
def replace (root : Tree) (p : List Nat) (new : Tree) : Except Failure Tree :=
  root.edit p fun _ => [new]

/-- Takes an element out; the root stays. -/
def remove (root : Tree) (p : List Nat) : Tree :=
  match root.edit p fun _ => [] with
  | .ok t => t
  | .error _ => root

/-- Takes several elements out, none inside another, given in order. They go from the last to the
first, so that the paths of those still to go stay right. -/
def removeAll (t : Tree) (ps : List (List Nat)) : Tree := ps.foldr (fun p t => t.remove p) t

/-- The path to a sibling some places behind the element at the end of a path. -/
def alongside (n : Nat) : List Nat → List Nat
  | [] => []
  | [i] => [i + n]
  | i :: p => i :: alongside n p

/-- A token of blanks. -/
def blanks (text : String) : Tree := token ⟨.whitespace, text⟩

/-- The characters that may be put in front of an element. -/
def isHorizontal (c : Char) : Bool := c == ' ' || c == '\t' || c == '\x0c'

/-- Puts blanks in the place of the trivia in front of an element. The old trivia are gone even when
the new text is refused: the tree is what is there afterwards, in either case. -/
def setLeading (root : Tree) (p : List Nat) (text : String) : Tree × Except Failure Unit :=
  let old := (root.leading p).map Prod.fst
  if text == "" then (root.removeAll old, .ok ())
  else if text.toList.all isHorizontal then
    -- The old trivia stand before the new blanks, so their paths are still right.
    match root.insertBefore p [blanks text] with
    | .ok t => (t.removeAll old, .ok ())
    | .error e => (root.removeAll old, .error e)
  else
    (root.removeAll old,
      .error (.internal ("prefix " ++ Text.quoted text ++ " is not horizontal whitespace")))

/-! ## Elements to put in -/

def comma : Tree := token ⟨.comma, ","⟩

/-- The numeral of a code. -/
def numberLiteral (n : UInt64) : Tree :=
  node .literal [token ⟨.number, toString n.toNat⟩]

/-- The numeral of a code as the only argument of a call. -/
def numberArgList (n : UInt64) : Tree := node .argList [numberLiteral n]

end Renumber.Tree
