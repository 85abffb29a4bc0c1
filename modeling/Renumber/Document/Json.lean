import Renumber.Document.Reader
import Renumber.Document.Value

/-!
# Documents in JSON

An integer that does not fit into 64 bits counts as a number that is no integer, and so does minus zero.
-/

namespace Renumber.Document.Json

open Reader

/-- The blanks between the parts of a document. -/
def isBlank (c : Char) : Bool := c == ' ' || c == '\t' || c == '\n' || c == '\r'

/-- Four digits of an escape. -/
def unit : Reader Nat := do
  match numeral? 16 (← count 4) with
  | some n => return n
  | none => failure

/-- The character that an escape by number stands for. A character beyond the first plane takes two
escapes. -/
def escapedUnit : Reader Char := do
  let high ← unit
  if 0xD800 ≤ high ∧ high < 0xDC00 then
    require (← acceptAll ['\\', 'u'])
    let low ← unit
    require (0xDC00 ≤ low && low < 0xE000)
    charOf? (0x10000 + (high - 0xD800) * 0x400 + (low - 0xDC00))
  else charOf? high

/-- The character after a backslash. -/
def escaped : Reader Char := do
  match ← next with
  | '\x22' => return '\x22'
  | '\\' => return '\\'
  | '/' => return '/'
  | 'b' => return '\x08'
  | 'f' => return '\x0c'
  | 'n' => return '\n'
  | 'r' => return '\r'
  | 't' => return '\t'
  | 'u' => escapedUnit
  | _ => failure

/-- The characters up to the closing quote. The bound is not met by a text of that length. -/
def characters : Nat → Reader (List Char)
  | 0 => failure
  | bound + 1 => do
    match ← next with
    | '\x22' => return []
    | '\\' => return (← escaped) :: (← characters bound)
    | c =>
      require (' ' ≤ c)
      return c :: (← characters bound)

/-- The text after an opening quote. -/
def string : Reader String := do return String.ofList (← characters ((← get).length + 1))

/-- The least and the greatest integer of 64 bits, with a sign and without. -/
def range : Int × Int := (-0x8000000000000000, 0xffffffffffffffff)

/-- Digits, at least one. -/
def digits : Reader (List Char) := do
  let ds ← span Char.isDigit
  require (!ds.isEmpty)
  return ds

/-- A number. -/
def number : Reader Value := do
  let negative ← accept '-'
  let ds ← digits
  require (ds == ['0'] || ds.head? != some '0')
  let fraction ← accept '.'
  if fraction then let _ ← digits
  let exponent ← (do return (← accept 'e') || (← accept 'E'))
  if exponent then
    unless ← accept '+' do let _ ← accept '-'
    let _ ← digits
  match numeral? 10 ds with
  | none => failure
  | some n =>
    let i : Int := if negative then -n else n
    if fraction || exponent || (negative && n == 0) || i < range.1 || range.2 < i then
      return .decimal
    else return .integer i

mutual

/-- A value. Each part of a document takes at least one character, so a bound above the length of the
text is not met. -/
def value : Nat → Reader Value
  | 0 => failure
  | bound + 1 => do
    skip isBlank
    match ← peek with
    | some '\x22' =>
      expect '\x22'
      return .text (← string)
    | some '[' =>
      expect '['
      skip isBlank
      if ← accept ']' then return .list [] else return .list (← elements bound)
    | some '\x7b' =>
      expect '\x7b'
      skip isBlank
      if ← accept '\x7d' then return .table [] else return .table (← members bound)
    | some 'n' => require (← acceptAll "null".toList); return .null
    | some 't' => require (← acceptAll "true".toList); return .boolean true
    | some 'f' => require (← acceptAll "false".toList); return .boolean false
    | _ => number

/-- The elements of a list from one on. -/
def elements : Nat → Reader (List Value)
  | 0 => failure
  | bound + 1 => do
    let v ← value bound
    skip isBlank
    match ← next with
    | ',' => return v :: (← elements bound)
    | ']' => return [v]
    | _ => failure

/-- The entries of a table from one on. -/
def members : Nat → Reader (List (String × Value))
  | 0 => failure
  | bound + 1 => do
    skip isBlank
    expect '\x22'
    let key ← string
    skip isBlank
    expect ':'
    let v ← value bound
    skip isBlank
    match ← next with
    | ',' => return (key, v) :: (← members bound)
    | '\x7d' => return [(key, v)]
    | _ => failure

end

/-- A value with blanks around it. -/
def document (bound : Nat) : Reader Value := do
  let v ← value bound
  skip isBlank
  return v

/-- The value that a text is. -/
def read (text : List Char) : Option Value := (document (2 * text.length + 2)).readAll text

/-- Documents in JSON; null says nothing. -/
def format : Format where
  read := read
  isVoid
    | .null => true
    | _ => false

end Renumber.Document.Json
