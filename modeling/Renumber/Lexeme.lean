import Renumber.Text.Alphabetic
import Renumber.Text.Numeric
import Renumber.Text.Lines
import Renumber.Token

/-!
# Lexemes

How far one token reaches from its first character. `Reach.scan` looks at a nonempty text that starts
inside a logical line and says which kind of token it starts with, and how many characters past the
first one belong to it. A scanner thus only counts: the token's text and what is left are cut off the
text by that count (`Reach.taken`, `Reach.left`), so no scanner can lose or invent a character.

Line breaks have no reach of their own here: their kind hangs on the layout (`Renumber.Layout`).
-/

namespace Renumber

open Text (isBreak isAlphabetic isNumeric)

/-- What can be wrong with a single token. -/
inductive LexicalProblem where
  | badUnindent
  | strayBackslash
  | unterminatedString
  | unexpectedCharacter (c : Char)
deriving DecidableEq, Repr

/-- The wording of a lexical problem. -/
def LexicalProblem.message : LexicalProblem → String
  | .badUnindent => "unindent does not match any outer indentation level"
  | .strayBackslash => "unexpected character after line continuation character"
  | .unterminatedString => "unterminated string literal"
  | .unexpectedCharacter c => "unexpected character '" ++ c.toString ++ "'"

/-- A token and what is wrong with it, if anything is. -/
structure Lexeme where
  token : Token
  problem? : Option LexicalProblem
deriving DecidableEq, Repr

/-- A zero-width mark. -/
def Lexeme.mark (kind : Kind) (problem? : Option LexicalProblem) : Lexeme :=
  ⟨⟨kind, ""⟩, problem?⟩

/-- The kind of the token that starts a text, and how many characters past the first it has. -/
structure Reach where
  kind : Kind
  more : Nat
  problem? : Option LexicalProblem
deriving DecidableEq, Repr

namespace Reach

/-- The lexeme of a text's first token. -/
def taken (r : Reach) (c : Char) (cs : List Char) : Lexeme :=
  ⟨⟨r.kind, String.ofList (c :: cs.take r.more)⟩, r.problem?⟩

/-- The text after its first token. -/
def left (r : Reach) (cs : List Char) : List Char := cs.drop r.more

theorem taken_append_left (r : Reach) (c : Char) (cs : List Char) :
    (r.taken c cs).token.text.toList ++ r.left cs = c :: cs := by
  simp [taken, left]

end Reach

namespace Lexeme

/-! ## Blanks, breaks and comments -/

/-- The characters that space out a line. -/
def isSpace (c : Char) : Bool := c == ' ' || c == '\t' || c == '\x0c'

/-- How many characters a run holds. -/
def runLength (p : Char → Bool) (cs : List Char) : Nat := (cs.takeWhile p).length

/-- A carriage return takes the line feed after it along. -/
def breakMore (c : Char) (cs : List Char) : Nat :=
  if c == '\r' && cs.head? == some '\n' then 1 else 0

/-- A comment goes up to the line break. -/
def commentMore (cs : List Char) : Nat := runLength (fun c => !isBreak c) cs

/-- A backslash is a continuation only with a line break right after it. -/
def continuation (cs : List Char) : Reach :=
  match cs with
  | c :: rest =>
    if isBreak c then ⟨.lineContinuation, 1 + breakMore c rest, none⟩
    else ⟨.errorToken, 0, some .strayBackslash⟩
  | [] => ⟨.errorToken, 0, some .strayBackslash⟩

/-! ## Numbers -/

/-- Digits, with underscores anywhere among them. -/
def digitRun (cs : List Char) : Nat := runLength (fun c => c.isDigit || c == '_') cs

/-- The exponent that a text starts with: its letter, a sign or none, and at least one digit. -/
def exponentLength : List Char → Nat
  | e :: cs =>
    if e == 'e' || e == 'E' then
      match cs with
      | s :: ds =>
        if s == '+' || s == '-' then
          if ds.head?.any Char.isDigit then 2 + digitRun ds else 0
        else if s.isDigit then 1 + digitRun cs
        else 0
      | [] => 0
    else 0
  | [] => 0

/-- The point that a text starts with and the digits after it. -/
def fractionLength : List Char → Nat
  | '.' :: cs => 1 + digitRun cs
  | _ => 0

/-- The letter that marks an imaginary or a long number. -/
def suffixLength : List Char → Nat
  | c :: _ => if c == 'j' || c == 'J' || c == 'l' || c == 'L' then 1 else 0
  | [] => 0

/-- Digits, a fraction, an exponent and a letter, each of which may be missing. -/
def decimalLength (cs : List Char) : Nat :=
  let whole := digitRun cs
  let fraction := fractionLength (cs.drop whole)
  let exponent := exponentLength (cs.drop (whole + fraction))
  whole + fraction + exponent + suffixLength (cs.drop (whole + fraction + exponent))

/-- The letter after a leading zero that names a base other than ten. -/
def isBaseLetter (c : Char) : Bool :=
  c == 'x' || c == 'X' || c == 'o' || c == 'O' || c == 'b' || c == 'B'

/-- The number that starts with a character: with a base letter every letter and digit belongs to
it, whatever the base. -/
def number (c : Char) (cs : List Char) : Reach :=
  match c, cs with
  | '0', x :: rest =>
    if isBaseLetter x then ⟨.number, 1 + runLength (fun d => d.isAlphanum || d == '_') rest, none⟩
    else ⟨.number, decimalLength (c :: cs) - 1, none⟩
  | _, _ => ⟨.number, decimalLength (c :: cs) - 1, none⟩

/-! ## Strings -/

/-- How far a string goes on behind its opening quotes, the closing ones included, and whether it has
closing ones. A backslash takes the next character along, whatever it is; a string in single quotes
ends, unclosed, at a line break. -/
def bodyLength (quote : Char) (triple : Bool) : List Char → Nat × Bool
  | [] => (0, false)
  | '\\' :: [] => (1, false)
  | '\\' :: _ :: cs =>
    let (n, closed) := bodyLength quote triple cs
    (n + 2, closed)
  | c :: cs =>
    if isBreak c && !triple then (0, false)
    else if c == quote && !triple then (1, true)
    else if c == quote && cs.take 2 == [quote, quote] then (3, true)
    else
      let (n, closed) := bodyLength quote triple cs
      (n + 1, closed)

/-- The string whose opening quote comes after some letters; `cs` is the text behind that quote. -/
def string (letters : Nat) (quote : Char) (cs : List Char) : Reach :=
  let triple := cs.take 2 == [quote, quote]
  let opening := if triple then 2 else 0
  let (n, closed) := bodyLength quote triple (cs.drop opening)
  ⟨.str, letters + opening + n, if closed then none else some .unterminatedString⟩

/-! ## Names -/

/-- A character that a name can start with. -/
def startsName (c : Char) : Bool := c == '_' || isAlphabetic c

/-- A character that a name can go on with. -/
def continuesName (c : Char) : Bool := c == '_' || isAlphabetic c || isNumeric c

/-- The letters that may stand in front of a string. -/
def isStringLetter (c : Char) : Bool :=
  c == 'r' || c == 'R' || c == 'b' || c == 'B' || c == 'u' || c == 'U' || c == 'f' || c == 'F'

/-- At most two letters, each of which may stand in front of a string. -/
def isStringLetters (word : List Char) : Bool := word.length ≤ 2 && word.all isStringLetter

/-- A character that opens a string. -/
def isQuote (c : Char) : Bool := c == '\x22' || c == '\x27'

/-- The word that starts with a character: the letters of a string, a keyword or a name. -/
def word (c : Char) (cs : List Char) : Reach :=
  let n := runLength continuesName cs
  let letters := c :: cs.take n
  let plain : Reach := ⟨(Kind.ofKeyword? (String.ofList letters)).getD .ident, n, none⟩
  match cs.drop n with
  | q :: rest => if isQuote q && isStringLetters letters then string (n + 1) q rest else plain
  | [] => plain

/-! ## Operators -/

/-- Operators and punctuation, longer ones before their beginnings. -/
def operators : List (List Char × Kind) :=
  [("**=", .doubleStarEq), ("//=", .doubleSlashEq), (">>=", .shrEq), ("<<=", .shlEq),
   ("...", .ellipsis), ("->", .arrow), (":=", .colonEq), ("**", .doubleStar),
   ("//", .doubleSlash), ("<<", .shl), (">>", .shr), ("<=", .ltEq), (">=", .gtEq),
   ("==", .eqEq), ("!=", .notEq), ("<>", .ltGt), ("+=", .plusEq), ("-=", .minusEq),
   ("*=", .starEq), ("/=", .slashEq), ("%=", .percentEq), ("&=", .ampEq), ("|=", .pipeEq),
   ("^=", .caretEq), ("@=", .atEq), ("(", .lParen), (")", .rParen), ("[", .lBracket),
   ("]", .rBracket), ("\x7b", .lBrace), ("\x7d", .rBrace), (",", .comma), (":", .colon),
   (";", .semicolon), (".", .dot), ("@", .atSign), ("`", .backquote), ("=", .eq),
   ("+", .plus), ("-", .minus), ("*", .star), ("/", .slash), ("%", .percent), ("&", .amp),
   ("|", .pipe), ("^", .caret), ("~", .tilde), ("<", .lt), (">", .gt)].map
    fun (text, kind) => (text.toList, kind)

/-- The longest operator that starts with a character; a character that starts none is a token by
itself, and a problem. -/
def operator (c : Char) (cs : List Char) : Reach :=
  match operators.find? fun (text, _) => text.isPrefixOf (c :: cs) with
  | some (text, kind) => ⟨kind, text.length - 1, none⟩
  | none => ⟨.errorToken, 0, some (.unexpectedCharacter c)⟩

end Lexeme

open Lexeme in
/-- The first token of a text that starts inside a logical line and not with a line break. -/
def Reach.scan (c : Char) (cs : List Char) : Reach :=
  if isSpace c then ⟨.whitespace, runLength isSpace cs, none⟩
  else if c == '#' then ⟨.comment, commentMore cs, none⟩
  else if c == '\\' then continuation cs
  else if c.isDigit || (c == '.' && cs.head?.any Char.isDigit) then number c cs
  else if isQuote c then string 0 c cs
  else if startsName c then word c cs
  else operator c cs

end Renumber
