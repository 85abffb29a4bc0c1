/-!
# Readers

A reader takes characters off the front of a text and gives what they mean, or gives up. What it leaves
is there for the next reader.
-/

namespace Renumber.Document

/-- Takes characters off the front of a text, or gives up. -/
abbrev Reader := StateT (List Char) Option

namespace Reader

/-- The next character. -/
def next : Reader Char := do
  match ← get with
  | [] => failure
  | c :: cs => set cs; return c

/-- The next character, which stays. -/
def peek : Reader (Option Char) := do return (← get).head?

/-- Takes the next character if it is the one given, and says so. -/
def accept (c : Char) : Reader Bool := do
  match ← get with
  | d :: cs => if c = d then set cs; return true else return false
  | [] => return false

/-- Takes the characters given if they come next, and says so. -/
def acceptAll (word : List Char) : Reader Bool := do
  let cs ← get
  if word.isPrefixOf cs then set (cs.drop word.length); return true else return false

/-- Takes one character, which has to be the one given. -/
def expect (c : Char) : Reader Unit := do
  if ← accept c then return () else failure

/-- Takes the longest run of characters of a kind. -/
def span (p : Char → Bool) : Reader (List Char) := do
  let cs ← get
  set (cs.dropWhile p)
  return cs.takeWhile p

/-- Takes characters of a kind and forgets them. -/
def skip (p : Char → Bool) : Reader Unit := do
  let _ ← span p

/-- Gives up unless the condition holds. -/
def require (b : Bool) : Reader Unit := if b then return () else failure

/-- Takes so many characters. -/
def count (n : Nat) : Reader (List Char) := do
  let cs ← get
  require (n ≤ cs.length)
  set (cs.drop n)
  return cs.take n

/-- What a reader makes of a whole text. -/
def readAll {α : Type} (r : Reader α) (text : List Char) : Option α :=
  match StateT.run r text with
  | some (a, []) => some a
  | _ => none

end Reader

/-- The value of a digit. -/
def digitValue? (c : Char) : Option Nat :=
  if c.isDigit then some (c.toNat - '0'.toNat)
  else if 'a' ≤ c ∧ c ≤ 'f' then some (c.toNat - 'a'.toNat + 10)
  else if 'A' ≤ c ∧ c ≤ 'F' then some (c.toNat - 'A'.toNat + 10)
  else none

/-- The number that digits of a base write. There has to be a digit. -/
def numeral? (base : Nat) : List Char → Option Nat
  | [] => none
  | cs => cs.foldlM (fun n c => do
      let d ← digitValue? c
      if d < base then some (base * n + d) else none) 0

/-- The character of a number. Surrogates are none. -/
def charOf? (n : Nat) : Option Char := if h : n.isValidChar then some (Char.ofNatAux n h) else none

end Renumber.Document
