/-!
# Values of documents

What a document of settings holds. Numbers that are no integers are told apart from integers and
otherwise forgotten, since no setting has such a value.
-/

namespace Renumber.Document

/-- A value in a document. The entries of a table are in the order in which they are written. -/
inductive Value where
  | null
  | boolean (b : Bool)
  | integer (n : Int)
  /-- A number that is no integer. -/
  | decimal
  | text (s : String)
  | list (vs : List Value)
  | table (entries : List (String × Value))
deriving Repr, Inhabited

/-- A way to write documents: how they are read, and which values say nothing. -/
structure Format where
  read : List Char → Option Value
  isVoid : Value → Bool

end Renumber.Document
