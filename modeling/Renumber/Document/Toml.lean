import Renumber.Document.Reader
import Renumber.Document.Value

/-!
# Documents in TOML

The part of the format that settings can be written in: no dates, no fractions and no lists of tables. A
document with one of those is refused as a whole, like one that is malformed.

Tables are put together from keys and headers (`Entry`). A table grows only by the means that made it: a
header opens a table once, a dotted key adds to tables that dotted keys made, and nothing adds to a
table written in place.
-/

namespace Renumber.Document.Toml

open Reader

/-- A space or a tab. -/
def isBlank (c : Char) : Bool := c == ' ' || c == '\t'

/-- Characters that may stand in a comment or a text of one line. -/
def isPlain (c : Char) : Bool := c == '\t' || (' ' ≤ c && c != '\x7f')

/-- A line end, if one comes next. -/
def lineEnd : Reader Bool := do
  if ← accept '\n' then return true else acceptAll ['\r', '\n']

/-- Blanks and a comment. -/
def trailer : Reader Unit := do
  skip isBlank
  if ← accept '#' then skip isPlain

/-- Blanks, comments and line ends, fewer than the bound. -/
def gap : Nat → Reader Unit
  | 0 => return ()
  | bound + 1 => do
    trailer
    if ← lineEnd then gap bound

/-- The bound that the rest of the text sets. -/
def left : Reader Nat := do return (← get).length + 1

/-! ## Texts -/

/-- The character of an escape by number. -/
def numbered (digits : Nat) : Reader Char := do
  match (numeral? 16 (← count digits)).bind charOf? with
  | some c => return c
  | none => failure

/-- The character after a backslash. -/
def escaped : Reader Char := do
  match ← next with
  | '\x22' => return '\x22'
  | '\\' => return '\\'
  | 'b' => return '\x08'
  | 'e' => return '\x1b'
  | 'f' => return '\x0c'
  | 'n' => return '\n'
  | 'r' => return '\r'
  | 't' => return '\t'
  | 'u' => numbered 4
  | 'x' => numbered 2
  | 'U' => numbered 8
  | _ => failure

/-- The characters up to a closing quote on the same line. Between double quotes a backslash starts an
escape. -/
def line (quote : Char) : Nat → Reader (List Char)
  | 0 => failure
  | bound + 1 => do
    let c ← next
    if c = quote then return []
    else if c = '\\' ∧ quote = '\x22' then return (← escaped) :: (← line quote bound)
    else
      require (isPlain c)
      return c :: (← line quote bound)

/-- Skips blanks and line ends, fewer than the bound. -/
def skipLines : Nat → Reader Unit
  | 0 => return ()
  | bound + 1 => do
    skip isBlank
    if ← lineEnd then skipLines bound

/-- A backslash at the end of a line takes the line end and the blanks of the next lines with it. -/
def continuation : Reader Bool := do
  let before ← get
  skip isBlank
  if ← lineEnd then
    skipLines (← left)
    return true
  else
    set before
    return false

/-- The characters up to three closing quotes. Up to two more quotes in front of those belong to the
text. -/
def lines (quote : Char) : Nat → Reader (List Char)
  | 0 => failure
  | bound + 1 => do
    match ← peek with
    | some c =>
      if c = quote then
        let quotes ← span (· == quote)
        if quotes.length < 3 then return quotes ++ (← lines quote bound)
        else
          require (quotes.length ≤ 5)
          return quotes.drop 3
      else if c = '\\' ∧ quote = '\x22' then
        expect '\\'
        if ← continuation then lines quote bound
        else return (← escaped) :: (← lines quote bound)
      else if ← acceptAll ['\r', '\n'] then return '\r' :: '\n' :: (← lines quote bound)
      else if ← accept '\n' then return '\n' :: (← lines quote bound)
      else
        require (isPlain c)
        return (← next) :: (← lines quote bound)
    | none => failure

/-- The text that a quote opens. -/
def text (quote : Char) : Reader String := do
  expect quote
  if ← acceptAll [quote, quote] then
    let _ ← lineEnd
    return String.ofList (← lines quote (← left))
  else return String.ofList (← line quote (← left))

/-! ## Keys -/

/-- A character of a key without quotes. -/
def isBare (c : Char) : Bool := c.isAlphanum || c == '_' || c == '-'

/-- One part of a key. -/
def keyPart : Reader String := do
  match ← peek with
  | some '\x22' =>
    expect '\x22'
    return String.ofList (← line '\x22' (← left))
  | some '\x27' =>
    expect '\x27'
    return String.ofList (← line '\x27' (← left))
  | _ =>
    let cs ← span isBare
    require (!cs.isEmpty)
    return String.ofList cs

/-- The parts of a key, with dots between them. -/
def keyParts : Nat → Reader (List String)
  | 0 => failure
  | bound + 1 => do
    skip isBlank
    let k ← keyPart
    skip isBlank
    if ← accept '.' then return k :: (← keyParts bound) else return [k]

/-- A key. -/
def key : Reader (List String) := do keyParts (← left)

/-! ## Numbers -/

/-- Digits with single underscores between them. -/
def grouped (base : Nat) (cs : List Char) : Option Nat :=
  let parts := cs.splitOn '_'
  if parts.any List.isEmpty then none else numeral? base parts.flatten

/-- An integer without a sign. A decimal numeral starts with no needless zero. -/
def unsigned : List Char → Option Nat
  | '0' :: 'x' :: cs => grouped 16 cs
  | '0' :: 'o' :: cs => grouped 8 cs
  | '0' :: 'b' :: cs => grouped 2 cs
  | cs => decimal cs
where
  /-- A decimal numeral. -/
  decimal (cs : List Char) : Option Nat :=
    if cs.head? = some '0' ∧ cs ≠ ['0'] then none else grouped 10 cs

/-- An integer; only a decimal one has a sign. -/
def integer? : List Char → Option Int
  | '-' :: cs => (unsigned.decimal cs).map fun n => -(n : Int)
  | '+' :: cs => (unsigned.decimal cs).map Int.ofNat
  | cs => (unsigned cs).map Int.ofNat

/-- The integer fits into 64 bits with a sign. -/
def inRange (i : Int) : Bool := -0x8000000000000000 ≤ i && i < 0x8000000000000000

/-- A character of a number or a word. -/
def isWord (c : Char) : Bool := isBare c || c == '+' || c == '.' || c == ':'

/-- A number or a truth value. -/
def word : Reader Value := do
  let cs ← span isWord
  if cs = "true".toList then return .boolean true
  else if cs = "false".toList then return .boolean false
  else
    match integer? cs with
    | some i => require (inRange i); return .integer i
    | none => failure

/-! ## Tables -/

/-- What made a table. -/
inductive Maker where
  /-- A header further in. -/
  | passing
  | header
  | dotted
deriving DecidableEq

/-- What a key stands for while a table is put together. -/
inductive Entry where
  | value (v : Value)
  | table (maker : Maker) (entries : List (String × Entry))

/-- The entries of a table that is put together. -/
abbrev Entries := List (String × Entry)

/-- Changes what one key stands for; the change sees what is there and may refuse. -/
def alter (k : String) (f : Option Entry → Option Entry) : Entries → Option Entries
  | [] => (f none).map fun e => [(k, e)]
  | (j, e) :: rest =>
    if j = k then (f (some e)).map fun e' => (j, e') :: rest
    else (alter k f rest).map ((j, e) :: ·)

/-- Sets a key to a value. -/
def setKey (v : Value) : List String → Entries → Option Entries
  | [], _ => none
  | [k], es => alter k (fun | none => some (.value v) | some _ => none) es
  | k :: ks, es =>
    alter k (fun
      | none => (setKey v ks []).map (.table .dotted)
      | some (.table .dotted inner) => (setKey v ks inner).map (.table .dotted)
      | some _ => none) es

/-- Opens the table of a header. -/
def openTable : List String → Entries → Option Entries
  | [], _ => none
  | [k], es =>
    alter k (fun
      | none => some (.table .header [])
      | some (.table .passing inner) => some (.table .header inner)
      | some _ => none) es
  | k :: ks, es =>
    alter k (fun
      | none => (openTable ks []).map (.table .passing)
      | some (.table maker inner) => (openTable ks inner).map (.table maker)
      | some (.value _) => none) es

/-- Changes the table that a header opened. -/
def within (f : Entries → Option Entries) : List String → Entries → Option Entries
  | [], es => f es
  | k :: ks, es =>
    alter k (fun
      | some (.table maker inner) => (within f ks inner).map (.table maker)
      | _ => none) es

mutual

/-- The finished value of an entry. -/
def Entry.finish : Entry → Value
  | .value v => v
  | .table _ es => .table (finishAll es)

/-- The finished values of some entries. -/
def finishAll : List (String × Entry) → List (String × Value)
  | [] => []
  | (k, e) :: rest => (k, e.finish) :: finishAll rest

end

/-! ## Documents -/

mutual

/-- A value. Each part of a document takes at least one character, so a bound above the length of the
text is not met. -/
def value : Nat → Reader Value
  | 0 => failure
  | bound + 1 => do
    match ← peek with
    | some '\x22' => return .text (← text '\x22')
    | some '\x27' => return .text (← text '\x27')
    | some '[' =>
      expect '['
      return .list (← elements bound)
    | some '\x7b' =>
      expect '\x7b'
      return .table (finishAll (← members bound []))
    | _ => word

/-- The elements of a list up to the closing bracket. The last may have a comma, too. -/
def elements : Nat → Reader (List Value)
  | 0 => failure
  | bound + 1 => do
    gap (← left)
    if ← accept ']' then return []
    else
      let v ← value bound
      gap (← left)
      match ← next with
      | ',' => return v :: (← elements bound)
      | ']' => return [v]
      | _ => failure

/-- The entries of a table up to the closing brace. -/
def members : Nat → Entries → Reader Entries
  | 0, _ => failure
  | bound + 1, es => do
    gap (← left)
    if ← accept '\x7d' then return es
    else
      let k ← key
      expect '='
      skip isBlank
      let es ← setKey (← value bound) k es
      gap (← left)
      match ← next with
      | ',' => members bound es
      | '\x7d' => return es
      | _ => failure

end

/-- The lines of a document after a header. -/
def statements (header : List String) : Nat → Entries → Reader Entries
  | 0, _ => failure
  | bound + 1, es => do
    gap (← left)
    match ← peek with
    | none => return es
    | some '[' =>
      expect '['
      let k ← key
      expect ']'
      statementEnd
      statements k bound (← openTable k es)
    | some _ =>
      let k ← key
      expect '='
      skip isBlank
      let v ← value (← left)
      statementEnd
      statements header bound (← within (setKey v k) header es)
where
  /-- Nothing else follows on the line. -/
  statementEnd : Reader Unit := do
    trailer
    match ← peek with
    | none => return ()
    | some _ => require (← lineEnd)

/-- The table that a text is. A byte order mark in front does not count. -/
def read (text : List Char) : Option Value :=
  let text := if text.head? = some '\ufeff' then text.tail else text
  ((statements [] (text.length + 2) []).readAll text).map fun es => .table (finishAll es)

/-- Documents in TOML; an empty list or table says nothing. -/
def format : Format where
  read := read
  isVoid
    | .list [] => true
    | .table [] => true
    | _ => false

end Renumber.Document.Toml
