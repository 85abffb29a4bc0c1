import Renumber.Kind

/-!
# Tokens

A token is a kind with the text it covers. A token has no place of its own: its span in a source is
how many bytes the tokens before it cover (`Token.spans`), so the spans of a list of tokens are
contiguous whatever the tokens are.
-/

namespace Renumber

/-- A range of byte offsets, from the first to just after the last. -/
structure Span where
  start : Nat
  stop : Nat
deriving DecidableEq, Repr

/-- A kind and the text it covers. -/
structure Token where
  kind : Kind
  text : String
deriving DecidableEq, Repr, Inhabited

namespace Token

/-- How many bytes the token covers. -/
def size (t : Token) : Nat := t.text.utf8ByteSize

/-- The text that a list of tokens covers. -/
def textOf (ts : List Token) : String := String.join (ts.map text)

/-- How many bytes a list of tokens covers. -/
def sizeOf : List Token → Nat
  | [] => 0
  | t :: ts => t.size + sizeOf ts

/-- The spans of tokens that follow each other from an offset on. -/
def spans (start : Nat) : List Token → List Span
  | [] => []
  | t :: ts => ⟨start, start + t.size⟩ :: spans (start + t.size) ts

theorem length_spans (start : Nat) (ts : List Token) : (spans start ts).length = ts.length := by
  induction ts generalizing start with
  | nil => rfl
  | cons t ts ih => simp [spans, ih]

/-- The tokens that are not trivia. -/
def significant (ts : List Token) : List Token := ts.filter fun t => !t.kind.isTrivia

end Token

end Renumber
