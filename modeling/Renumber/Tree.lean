import Renumber.Token

/-!
# Source trees

A tree has tokens for leaves; a node has a kind and its children in order. The text of a tree is the
text of its leaves, so a tree stands for a text without loss whenever its leaves do.
-/

namespace Renumber

/-- A token, or a node with the elements it holds. -/
inductive Tree where
  | token (t : Token)
  | node (kind : Kind) (children : List Tree)
deriving Repr, Inhabited

namespace Tree

/-- The kind of an element. -/
def kind : Tree → Kind
  | token t => t.kind
  | node k _ => k

/-- The elements directly below; a token has none. -/
def children : Tree → List Tree
  | token _ => []
  | node _ cs => cs

/-- The element is a node. -/
def isNode : Tree → Bool
  | token _ => false
  | node .. => true

mutual

/-- The tokens of a tree in order. -/
def leaves : Tree → List Token
  | token t => [t]
  | node _ cs => leavesOf cs

/-- The tokens of a list of trees in order. -/
def leavesOf : List Tree → List Token
  | [] => []
  | t :: ts => t.leaves ++ leavesOf ts

end

@[simp] theorem leaves_token (t : Token) : (token t).leaves = [t] := by rw [leaves]
@[simp] theorem leaves_node (k : Kind) (cs : List Tree) : (node k cs).leaves = leavesOf cs := by
  rw [leaves]
@[simp] theorem leavesOf_nil : leavesOf [] = [] := by rw [leavesOf]
@[simp] theorem leavesOf_cons (t : Tree) (ts : List Tree) :
    leavesOf (t :: ts) = t.leaves ++ leavesOf ts := by rw [leavesOf]

@[simp] theorem leavesOf_append (ts us : List Tree) :
    leavesOf (ts ++ us) = leavesOf ts ++ leavesOf us := by
  induction ts with
  | nil => simp
  | cons t ts ih => simp [ih]

@[simp] theorem leavesOf_map_token (ts : List Token) : leavesOf (ts.map token) = ts := by
  induction ts with
  | nil => simp
  | cons t ts ih => simp [ih]

/-- The text of a tree. -/
def text (t : Tree) : String := Token.textOf t.leaves

/-- How many bytes a tree covers. -/
def size (t : Tree) : Nat := Token.sizeOf t.leaves

/-- The children that are not trivia, each with its index among all children. -/
def significant (t : Tree) : List (Nat × Tree) :=
  (t.children.zipIdx.map fun (c, i) => (i, c)).filter fun (_, c) => !c.kind.isTrivia

/-! ## Walking a tree -/

mutual

/-- The elements of a tree, each before the ones it holds, with the path of child indices to it. -/
def elements : Tree → List (List Nat × Tree)
  | token t => [([], token t)]
  | node k cs => ([], node k cs) :: elementsFrom 0 cs

/-- The elements of a list of siblings whose first has a given index. -/
def elementsFrom (i : Nat) : List Tree → List (List Nat × Tree)
  | [] => []
  | t :: ts => (t.elements.map fun (p, u) => (i :: p, u)) ++ elementsFrom (i + 1) ts

end

/-- The element at the end of a path. -/
def at? : List Nat → Tree → Option Tree
  | [], t => some t
  | i :: p, t => t.children[i]?.bind (at? p)

/-- The tokens before the element at the end of a path. -/
def leavesBefore : List Nat → Tree → List Token
  | [], _ => []
  | i :: p, t =>
    leavesOf (t.children.take i) ++
      match t.children[i]? with
      | some c => leavesBefore p c
      | none => []

/-- How many line feeds the tokens hold. -/
def feeds : List Token → Nat
  | [] => 0
  | t :: ts => t.text.toList.count '\n' + feeds ts

/-- The line on which the element at the end of a path starts, counted from one. -/
def lineOf (p : List Nat) (t : Tree) : Nat := feeds (leavesBefore p t) + 1

/-- The byte offset at which the element at the end of a path starts. -/
def offsetOf (p : List Nat) (t : Tree) : Nat := Token.sizeOf (leavesBefore p t)

end Tree

end Renumber
