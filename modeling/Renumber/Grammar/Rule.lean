import Renumber.Grammar.Phrase

/-!
# The rules

The grammar of Python 3, with a few older forms: `<>`, `except E, e`, `raise E, V`, the `exec`
statement and backquotes. `Rule` names the rules and `grammar` says what each of them reads. A rule
that meets what it cannot use reports it and goes on; the rest of a broken logical line is kept in a
node of its own (`recover`).

An operand is read before it is known whether an operator comes after it. What was read is then made
the first child of the operator's node by `Phrase.adopt` (`infixChain`, `grown`).
-/

namespace Renumber.Grammar

/-- The names of the rules. -/
inductive Rule where
  -- Statements
  | file
  | statement
  | simpleStmt
  | smallStmt
  | returnStmt
  | scopeStmt (node : Kind)
  | delStmt
  | assertStmt
  | execStmt
  | raiseStmt
  | exprStmt
  | assignValue
  | importStmt
  | importAlias
  | importFromStmt
  | importedNames
  | importedName
  | dottedName
  | ifStmt
  | elifClause
  | elseClause
  | whileStmt
  | forStmt
  | tryStmt
  | exceptClause
  | finallyClause
  | withStmt
  | withItem
  | funcDef
  | params (closing : Kind) (annotated : Bool)
  | param (annotated : Bool)
  | typeHint (annotated : Bool)
  | classDef
  | decorated
  | decorator
  | suite
  -- Expressions
  | starOrTest
  | starOrBitOr
  | starExpr
  | namedExprTest
  | test
  | testNoCond
  | lambdaExpr
  | orTest
  | andTest
  | notTest
  | comparison
  | bitOr
  | bitXor
  | bitAnd
  | shift
  | arith
  | term
  | factor
  | power
  | trailer
  | atom
  | testListComp
  | dictOrSet
  | dictOrSetItem
  | subscriptList
  | subscript
  | argList
  | argument
  | compFor
  | compIf
  | yieldExpr
deriving DecidableEq, Repr

/-- A phrase over the rules. -/
abbrev P := Phrase Rule

open Phrase

/-! ## Ways to build phrases -/

/-- Phrases one after another. -/
def steps : List P → P
  | [] => done
  | [p] => p
  | p :: ps => seq p (steps ps)

/-- The next token is of this kind. -/
def is (k : Kind) : Look := .next [k]

/-- The next token is of the first kind and the one after it of the second. -/
def pair (j k : Kind) : Look := .both (is j) (.second [k])

/-- A node; the trivia in front of it stay outside. -/
def node (k : Kind) (ps : List P) : P := seq trivia (enclose k (steps ps))

/-- A node that holds the next token. -/
def single (k : Kind) : P := node k [next]

/-- A phrase if the condition holds. -/
def when (l : Look) (ps : List P) : P := branch l (steps ps) done

/-- The next token if it is of this kind. -/
def eat (k : Kind) : P := when (is k) [next]

/-- The next token, which has to be of this kind. -/
def expect (k : Kind) : P := branch (is k) next (fault (.expected k))

/-- The first phrase whose condition holds, or else the last one. -/
def choose (cases : List (Look × P)) (otherwise : P) : P :=
  cases.foldr (fun (l, p) q => branch l p q) otherwise

/-- What a phrase reads, as the start of a bigger node if the condition holds after it. -/
def grown (p : P) (l : Look) (k : Kind) (ps : List P) : P :=
  seq trivia (adopt p (when l [enclose k (steps ps)]))

/-- Operands between operators, grouped to the left. -/
def infixChain (k : Kind) (operators : List Kind) (operand : P) : P :=
  seq trivia (adopt operand (many (.next operators) (enclose k (seq next operand))))

/-- The rest of the logical line, as what could not be read. -/
def recover : P :=
  seq (fault .invalidSyntax) (node .error [many (.not (.next [.newline, .eof])) next])

/-! ## What comes next -/

/-- The kinds that an expression starts with. -/
def exprStarts : List Kind :=
  [.ident, .number, .str, .lParen, .lBracket, .lBrace, .minus, .plus, .tilde, .notKw, .lambdaKw,
   .awaitKw, .noneKw, .trueKw, .falseKw, .ellipsis, .backquote]

/-- The kinds that an expression or a starred expression starts with. -/
def starExprStarts : List Kind := .star :: exprStarts

def atExpr : Look := .next exprStarts

def atStarExpr : Look := .next starExprStarts

/-- The word `exec` in front of an operand that cannot go on with a plain name. -/
def atExec : Look :=
  .both (is .ident) (.both (.text "exec")
    (.second [.ident, .number, .str, .lBrace, .backquote, .noneKw, .trueKw, .falseKw, .lambdaKw]))

def atCompFor : Look := .either (is .forKw) (pair .asyncKw .forKw)

/-- A comma with one more element after it. -/
def atNextElement : Look := .both (is .comma) (.second starExprStarts)

def atAugmentedAssign : Look := .next (Kind.all.filter Kind.isAugmentedAssign)

/-- One element, or a tuple of several with commas between them and perhaps after the last. -/
def elements (element : P) : P :=
  grown element (is .comma) .tupleExpr
    [many atNextElement (seq next element), eat .comma]

/-! ## The table -/

/-- What each rule reads. -/
def grammar : Rule → P
  | .file =>
    seq
      (many (.not (is .eof)) (choose
        [(is .newline, next),
         (is .indent, seq (fault .unexpectedIndent) (single .error)),
         (is .dedent, single .error)]
        (rule .statement)))
      trivia
  | .statement =>
    choose
      [(is .ifKw, rule .ifStmt), (is .whileKw, rule .whileStmt), (is .forKw, rule .forStmt),
       (is .tryKw, rule .tryStmt), (is .withKw, rule .withStmt), (is .defKw, rule .funcDef),
       (is .classKw, rule .classDef), (is .atSign, rule .decorated),
       (pair .asyncKw .defKw, rule .funcDef), (pair .asyncKw .forKw, rule .forStmt),
       (pair .asyncKw .withKw, rule .withStmt)]
      (rule .simpleStmt)
  | .simpleStmt =>
    node .simpleStmt
      [rule .smallStmt,
       many (is .semicolon)
         (seq next (branch (.next [.newline, .eof]) done (rule .smallStmt))),
       choose [(is .newline, next), (is .eof, done)] (seq recover (eat .newline))]
  | .smallStmt =>
    choose
      [(is .passKw, single .passStmt), (is .breakKw, single .breakStmt),
       (is .continueKw, single .continueStmt), (is .returnKw, rule .returnStmt),
       (is .raiseKw, rule .raiseStmt), (is .globalKw, rule (.scopeStmt .globalStmt)),
       (is .nonlocalKw, rule (.scopeStmt .nonlocalStmt)), (is .delKw, rule .delStmt),
       (is .assertKw, rule .assertStmt), (is .importKw, rule .importStmt),
       (is .fromKw, rule .importFromStmt), (atExec, rule .execStmt)]
      (rule .exprStmt)
  | .returnStmt =>
    node .returnStmt [next, when atStarExpr [elements (rule .starOrTest)]]
  | .scopeStmt k =>
    node k [next, expect .ident, many (is .comma) (seq next (expect .ident))]
  | .delStmt => node .delStmt [next, elements (rule .starOrBitOr)]
  | .assertStmt =>
    node .assertStmt [next, rule .test, when (is .comma) [next, rule .test]]
  | .execStmt =>
    node .execStmt
      [next, rule .bitOr,
       when (is .inKw) [next, rule .test, when (is .comma) [next, rule .test]]]
  | .raiseStmt =>
    node .raiseStmt
      [next,
       when atExpr
         [rule .test,
          choose
            [(is .fromKw, steps [next, rule .test]),
             (is .comma, steps [next, rule .test, when (is .comma) [next, rule .test]])]
            done]]
  | .exprStmt =>
    node .exprStmt
      [branch (.next (.yieldKw :: starExprStarts))
        (steps
          [rule .assignValue,
           choose
             [(is .colon, steps [next, rule .test, when (is .eq) [next, rule .assignValue]]),
              (atAugmentedAssign, steps [next, rule .assignValue])]
             (many (is .eq) (seq next (rule .assignValue)))])
        recover]
  | .assignValue => branch (is .yieldKw) (rule .yieldExpr) (elements (rule .starOrTest))
  | .importStmt =>
    node .importStmt
      [next, rule .importAlias, many (is .comma) (seq next (rule .importAlias))]
  | .importAlias =>
    node .importAlias [rule .dottedName, when (is .asKw) [next, expect .ident]]
  | .importFromStmt =>
    node .importFromStmt
      [next,
       branch (.next [.dot, .ellipsis])
         (steps [many (.next [.dot, .ellipsis]) next, when (is .ident) [rule .dottedName]])
         (branch (is .ident) (rule .dottedName) (fault .expectedModuleName)),
       expect .importKw,
       choose
         [(is .star, next),
          (is .lParen, steps [next, rule .importedNames, expect .rParen])]
         (rule .importedNames)]
  | .importedNames =>
    steps
      [rule .importedName,
       when (is .comma) [next, when (is .ident) [rule .importedNames]]]
  | .importedName =>
    node .importAlias [expect .ident, when (is .asKw) [next, expect .ident]]
  | .dottedName =>
    node .dottedName [expect .ident, many (pair .dot .ident) (seq next next)]
  | .ifStmt =>
    node .ifStmt
      [next, rule .namedExprTest, expect .colon, rule .suite,
       many (is .elifKw) (rule .elifClause), rule .elseClause]
  | .elifClause =>
    node .elifClause [next, rule .namedExprTest, expect .colon, rule .suite]
  | .elseClause =>
    when (is .elseKw) [node .elseClause [next, expect .colon, rule .suite]]
  | .whileStmt =>
    node .whileStmt
      [next, rule .namedExprTest, expect .colon, rule .suite, rule .elseClause]
  | .forStmt =>
    node .forStmt
      [eat .asyncKw, expect .forKw, elements (rule .starOrBitOr), expect .inKw,
       elements (rule .starOrTest), expect .colon, rule .suite, rule .elseClause]
  | .tryStmt =>
    node .tryStmt
      [next, expect .colon, rule .suite,
       choose
         [(is .exceptKw,
            steps
              [many (is .exceptKw) (rule .exceptClause), rule .elseClause,
               when (is .finallyKw) [rule .finallyClause]]),
          (is .finallyKw, rule .finallyClause)]
         (fault .expectedHandler)]
  | .exceptClause =>
    node .exceptClause
      [next, eat .star,
       when atExpr
         [rule .test,
          choose
            [(is .asKw, seq next (expect .ident)), (is .comma, seq next (rule .test))]
            done],
       expect .colon, rule .suite]
  | .finallyClause => node .finallyClause [next, expect .colon, rule .suite]
  | .withStmt =>
    node .withStmt
      [eat .asyncKw, expect .withKw, rule .withItem,
       many (is .comma) (seq next (rule .withItem)), expect .colon, rule .suite]
  | .withItem =>
    node .withItem [rule .test, when (is .asKw) [next, rule .starOrBitOr]]
  | .funcDef =>
    node .funcDef
      [eat .asyncKw, expect .defKw, expect .ident,
       branch (is .lParen)
         (steps [next, rule (.params .rParen true), expect .rParen])
         (fault (.expected .lParen)),
       when (is .arrow) [next, rule .test],
       expect .colon, rule .suite]
  | .params closing annotated =>
    branch (is closing) done
      (node .paramList
        [rule (.param annotated),
         many (is .comma) (seq next (branch (is closing) done (rule (.param annotated))))])
  | .param annotated =>
    node .param
      [choose
        [(is .slash, next),
         (is .star, seq next (when (is .ident) [next, rule (.typeHint annotated)])),
         (is .doubleStar, steps [next, expect .ident, rule (.typeHint annotated)])]
        (steps
          [expect .ident, rule (.typeHint annotated), when (is .eq) [next, rule .test]])]
  | .typeHint true => when (is .colon) [next, rule .test]
  | .typeHint false => done
  | .classDef =>
    node .classDef
      [next, expect .ident,
       when (is .lParen)
         [next, branch (is .rParen) done (rule .argList), expect .rParen],
       expect .colon, rule .suite]
  | .decorated =>
    node .decorated
      [many (is .atSign) (rule .decorator),
       choose
         [(is .defKw, rule .funcDef), (is .classKw, rule .classDef),
          (pair .asyncKw .defKw, rule .funcDef)]
         (fault .expectedDefinition)]
  | .decorator => node .decorator [next, rule .namedExprTest, expect .newline]
  | .suite =>
    node .suite
      [branch (is .newline)
        (steps
          [next,
           branch (is .indent)
             (steps
               [next,
                many (.not (.next [.dedent, .eof])) (choose
                  [(is .newline, next),
                   (is .indent, seq (fault .unexpectedIndent) (single .error))]
                  (rule .statement)),
                eat .dedent])
             (fault (.expected .indent))])
        (rule .simpleStmt)]
  | .starOrTest => branch (is .star) (rule .starExpr) (rule .namedExprTest)
  | .starOrBitOr => branch (is .star) (rule .starExpr) (rule .bitOr)
  | .starExpr => node .starExpr [next, rule .bitOr]
  | .namedExprTest => grown (rule .test) (is .colonEq) .namedExpr [next, rule .test]
  | .test =>
    branch (is .lambdaKw) (rule .lambdaExpr)
      (grown (rule .orTest) (is .ifKw) .ternaryExpr
        [next, rule .orTest, expect .elseKw, rule .test])
  | .testNoCond => branch (is .lambdaKw) (rule .lambdaExpr) (rule .orTest)
  | .lambdaExpr =>
    node .lambdaExpr [next, rule (.params .colon false), expect .colon, rule .test]
  | .orTest => infixChain .boolOpExpr [.orKw] (rule .andTest)
  | .andTest => infixChain .boolOpExpr [.andKw] (rule .notTest)
  | .notTest =>
    branch (is .notKw) (node .notExpr [next, rule .notTest]) (rule .comparison)
  | .comparison =>
    seq trivia
      (adopt (rule .bitOr)
        (many
          (.either
            (.next [.lt, .gt, .eqEq, .gtEq, .ltEq, .ltGt, .notEq, .inKw, .isKw])
            (pair .notKw .inKw))
          (enclose .compareExpr
            (steps
              [branch (.either (pair .isKw .notKw) (pair .notKw .inKw)) (seq next next) next,
               rule .bitOr]))))
  | .bitOr => infixChain .binExpr [.pipe] (rule .bitXor)
  | .bitXor => infixChain .binExpr [.caret] (rule .bitAnd)
  | .bitAnd => infixChain .binExpr [.amp] (rule .shift)
  | .shift => infixChain .binExpr [.shl, .shr] (rule .arith)
  | .arith => infixChain .binExpr [.plus, .minus] (rule .term)
  | .term =>
    infixChain .binExpr [.star, .slash, .percent, .doubleSlash, .atSign] (rule .factor)
  | .factor =>
    branch (.next [.plus, .minus, .tilde]) (node .unaryExpr [next, rule .factor])
      (rule .power)
  | .power =>
    let rest : List P :=
      [many (.next [.lParen, .lBracket, .dot]) (rule .trailer),
       when (is .doubleStar) [next, rule .factor]]
    branch (is .awaitKw) (node .powerExpr ([next, rule .atom] ++ rest))
      (grown (rule .atom) (.next [.lParen, .lBracket, .dot, .doubleStar]) .powerExpr rest)
  | .trailer =>
    choose
      [(is .lParen,
         node .callTrailer
           [next, branch (is .rParen) done (rule .argList), expect .rParen]),
       (is .lBracket,
         node .subscriptTrailer [next, rule .subscriptList, expect .rBracket])]
      (node .attrTrailer [next, expect .ident])
  | .atom =>
    choose
      [(is .ident, single .name),
       (.next [.number, .noneKw, .trueKw, .falseKw, .ellipsis], single .literal),
       (is .str, node .stringLiteral [many (is .str) next]),
       (is .lParen,
         node .parenExpr
           [next,
            choose [(is .yieldKw, rule .yieldExpr), (is .rParen, done)] (rule .testListComp),
            expect .rParen]),
       (is .lBracket,
         node .listExpr
           [next, branch (is .rBracket) done (rule .testListComp), expect .rBracket]),
       (is .backquote,
         node .reprExpr [next, elements (rule .test), expect .backquote]),
       (is .lBrace,
         node .braceExpr
           [next, branch (is .rBrace) done (rule .dictOrSet), expect .rBrace]),
       (.next [.newline, .eof, .indent, .dedent, .rParen, .rBracket, .rBrace, .colon, .comma,
          .eq, .semicolon],
         fault .expectedExpression)]
      (seq (fault .expectedExpression) (single .error))
  | .testListComp =>
    steps
      [rule .starOrTest,
       branch atCompFor (rule .compFor)
         (steps [many atNextElement (seq next (rule .starOrTest)), eat .comma])]
  | .dictOrSet =>
    steps
      [rule .dictOrSetItem,
       branch atCompFor (rule .compFor)
         (many (is .comma) (seq next (branch (is .rBrace) done (rule .dictOrSetItem))))]
  | .dictOrSetItem =>
    choose
      [(is .doubleStar, node .dictEntry [next, rule .bitOr]), (is .star, rule .starExpr)]
      (grown (rule .test) (is .colon) .dictEntry [next, rule .test])
  | .subscriptList =>
    grown (rule .subscript) (is .comma) .subscriptList
      [many (is .comma) (seq next (branch (is .rBracket) done (rule .subscript)))]
  | .subscript =>
    grown (branch (is .colon) done (rule .starOrTest)) (is .colon) .slice
      [next, when atExpr [rule .test],
       when (is .colon) [next, when atExpr [rule .test]]]
  | .argList =>
    node .argList
      [rule .argument,
       many (is .comma) (seq next (branch (is .rParen) done (rule .argument)))]
  | .argument =>
    branch (.next [.star, .doubleStar]) (node .argument [next, rule .test])
      (grown (rule .namedExprTest) (.either (is .eq) atCompFor) .argument
        [branch (is .eq) (seq next (rule .test)) (rule .compFor)])
  | .compFor =>
    node .compFor
      [eat .asyncKw, expect .forKw, elements (rule .starOrBitOr), expect .inKw,
       rule .orTest,
       many (.either atCompFor (is .ifKw))
         (branch atCompFor (rule .compFor) (rule .compIf))]
  | .compIf => node .compIf [next, rule .testNoCond]
  | .yieldExpr =>
    node .yieldExpr
      [next,
       choose
         [(is .fromKw, seq next (rule .test)),
          (atStarExpr, elements (rule .starOrTest))]
         done]

end Renumber.Grammar
