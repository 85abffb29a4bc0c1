import Renumber.Grammar.Rule
import Renumber.Layout
import Renumber.Text.Position

/-!
# Parsing

A source text as a tree, with everything that is wrong with it. The tree holds every token of the
source, whether or not there are problems, so nothing of it is lost. The problems are
in the order in which they start; of those that start at one place the lexical ones come first.
-/

namespace Renumber

/-- What is wrong at one place of a source. -/
inductive Problem where
  | lexical (p : LexicalProblem)
  | syntactic (p : SyntaxProblem)
deriving DecidableEq, Repr

/-- The wording of a problem. -/
def Problem.message : Problem → String
  | .lexical p => p.message
  | .syntactic p => p.message

/-- A problem and the span of the token that it is about. -/
structure ParseError where
  problem : Problem
  span : Span
deriving DecidableEq, Repr

/-- The line and the column at which an error starts. -/
def ParseError.position (e : ParseError) (source : String) : Text.Position :=
  .ofOffset source e.span.start

/-- A tree and the errors found on the way to it. -/
structure Parse where
  tree : Tree
  errors : List ParseError
deriving Repr

/-- The source had no problem. -/
def Parse.ok (p : Parse) : Bool := p.errors.isEmpty

namespace Grammar

/-- Enough fuel for a list of tokens: each token lets the rules nest once more from the first to the
last. -/
def fuelFor (ts : List Token) : Nat := 512 * (ts.length + 2)

/-- What the rule for a whole file makes of a list of tokens. -/
def readFile (ts : List Token) : Reading :=
  (read grammar (fuelFor ts) (.rule .file) ts).getD ⟨ts.map .token, [], []⟩

theorem leaves_readFile (ts : List Token) :
    Tree.leavesOf (readFile ts).trees ++ (readFile ts).rest = ts := by
  unfold readFile
  cases h : read grammar (fuelFor ts) (.rule .file) ts with
  | none => simp
  | some r => exact Reading.leaves_append_rest h

end Grammar

/-- The lexical problems of a source, each with the span of its token. -/
def lexicalErrors (lexemes : List Lexeme) : List ParseError :=
  (lexemes.zip (Token.spans 0 (lexemes.map Lexeme.token))).filterMap fun (l, span) =>
    l.problem?.map fun p => ⟨.lexical p, span⟩

/-- A fault as an error: its span is that of the first token still to be read, or the end. -/
def Fault.error (total : Nat) (f : Fault) : ParseError :=
  let start := total - Token.sizeOf f.rest
  ⟨.syntactic f.problem, ⟨start, start + (f.rest.head?.map Token.size).getD 0⟩⟩

/-- The tree of a list of tokens. -/
def treeOf (ts : List Token) : Tree := .node .module (Grammar.readFile ts).trees

/-- The tree and the problems of a source. -/
def parse (source : String) : Parse :=
  let lexemes := lex source
  let tokens := lexemes.map Lexeme.token
  let reading := Grammar.readFile tokens
  let faults := reading.faults.map (Fault.error (Token.sizeOf tokens))
  ⟨.node .module reading.trees,
    (lexicalErrors lexemes ++ faults).mergeSort fun a b => a.span.start ≤ b.span.start⟩

end Renumber
