import Renumber.Tree

/-!
# Trivia in front of an element

The first and the last token of an element are sought through its first and its last child only, so
an element with an empty node at that end has none. The token in front of a token is the last token of
its previous sibling, or of the previous sibling of the nearest element around it that has one.

The trivia in front of an element are the trivia tokens met on the way back from its first token
(`leading`).
-/

namespace Renumber.Tree

/-- The path from an element to its first token. -/
def firstToken? : Tree → Option (List Nat)
  | token _ => some []
  | node _ [] => none
  | node _ (c :: _) => (firstToken? c).map (0 :: ·)

mutual

/-- The path from an element to its last token. -/
def lastToken? : Tree → Option (List Nat)
  | token _ => some []
  | node _ cs => lastTokenFrom 0 cs

/-- The path to the last token of the last of some siblings, the first of which has an index. -/
def lastTokenFrom (i : Nat) : List Tree → Option (List Nat)
  | [] => none
  | [c] => (lastToken? c).map (i :: ·)
  | _ :: c :: cs => lastTokenFrom (i + 1) (c :: cs)

end

/-- The path of the previous sibling of an element, or of the nearest element around it that has
one. -/
def siblingBefore? (p : List Nat) : Option (List Nat) :=
  match p.reverse.dropWhile (· == 0) with
  | [] => none
  | i :: q => some (q.reverse ++ [i - 1])

/-- The path of the token in front of the one at the end of a path. -/
def tokenBefore? (root : Tree) (p : List Nat) : Option (List Nat) := do
  let s ← siblingBefore? p
  let t ← at? s root
  let q ← t.lastToken?
  return s ++ q

/-- The trivia tokens in front of the token at the end of a path, nearest first, at most as many as
the bound says. -/
def triviaBefore (root : Tree) : Nat → List Nat → List (List Nat × Token)
  | 0, _ => []
  | n + 1, p =>
    match tokenBefore? root p with
    | none => []
    | some q =>
      match at? q root with
      | some (token t) => if t.kind.isTrivia then (q, t) :: triviaBefore root n q else []
      | _ => []

/-- The trivia tokens in front of the element at the end of a path, in order. A tree has no more
tokens than leaves, which bounds the way back. -/
def leading (root : Tree) (p : List Nat) : List (List Nat × Token) :=
  match (at? p root).bind firstToken? with
  | none => []
  | some q => (triviaBefore root root.leaves.length (p ++ q)).reverse

/-- The text of the trivia in front of an element. -/
def leadingText (root : Tree) (p : List Nat) : String :=
  Token.textOf ((root.leading p).map Prod.snd)

end Renumber.Tree
