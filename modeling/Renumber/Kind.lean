/-!
# Kinds of elements

The kinds of the tokens and nodes of a Python source tree. Kinds are numbered by the order in which
they are declared (`Kind.raw`), and every number reads back as one kind (`Kind.ofRaw_raw`); a number
past the last kind reads as `Kind.unknown`. Three classes of kinds matter to the rest of the library:
the trivia, which the grammar never sees, the keywords, and the augmented assignment operators.
-/

namespace Renumber

/-- What an element of a source tree is. -/
inductive Kind where
  -- Trivia
  /-- Spaces, tabs and form feeds. -/
  | whitespace
  /-- From `#` up to the line break. -/
  | comment
  /-- A line break that ends no logical line. -/
  | nl
  /-- A backslash and the line break after it. -/
  | lineContinuation
  -- Layout
  /-- A line break that ends a logical line; zero-width at the end of the input. -/
  | newline
  /-- Zero-width mark of a block that opens. -/
  | indent
  /-- Zero-width mark of a block that closes. -/
  | dedent
  -- Names and literals
  | ident
  | number
  /-- A string literal with its letters and quotes. -/
  | str
  -- Keywords
  | falseKw
  | noneKw
  | trueKw
  | andKw
  | asKw
  | assertKw
  | asyncKw
  | awaitKw
  | breakKw
  | classKw
  | continueKw
  | defKw
  | delKw
  | elifKw
  | elseKw
  | exceptKw
  | finallyKw
  | forKw
  | fromKw
  | globalKw
  | ifKw
  | importKw
  | inKw
  | isKw
  | lambdaKw
  | nonlocalKw
  | notKw
  | orKw
  | passKw
  | raiseKw
  | returnKw
  | tryKw
  | whileKw
  | withKw
  | yieldKw
  -- Punctuation
  | lParen
  | rParen
  | lBracket
  | rBracket
  | lBrace
  | rBrace
  | comma
  | colon
  | semicolon
  | dot
  | ellipsis
  | arrow
  | atSign
  /-- The quote of a backquoted expression. -/
  | backquote
  | eq
  | colonEq
  -- Operators
  | plus
  | minus
  | star
  | doubleStar
  | slash
  | doubleSlash
  | percent
  | amp
  | pipe
  | caret
  | tilde
  | shl
  | shr
  | lt
  | gt
  | ltEq
  | gtEq
  | eqEq
  | notEq
  | ltGt
  -- Augmented assignment
  | plusEq
  | minusEq
  | starEq
  | doubleStarEq
  | slashEq
  | doubleSlashEq
  | percentEq
  | ampEq
  | pipeEq
  | caretEq
  | shlEq
  | shrEq
  | atEq
  -- Unclassified text
  /-- Characters that begin no token. -/
  | errorToken
  -- Statements
  | module
  | simpleStmt
  | exprStmt
  | passStmt
  | breakStmt
  | continueStmt
  | returnStmt
  | raiseStmt
  | globalStmt
  | nonlocalStmt
  | delStmt
  | assertStmt
  /-- The statement `exec code in globals, locals`. -/
  | execStmt
  | importStmt
  | importFromStmt
  | importAlias
  | dottedName
  | ifStmt
  | elifClause
  | elseClause
  | whileStmt
  | forStmt
  | tryStmt
  | exceptClause
  | finallyClause
  | withStmt
  | withItem
  | funcDef
  | paramList
  | param
  | classDef
  | decorated
  | decorator
  | suite
  -- Expressions
  | name
  | literal
  | stringLiteral
  | parenExpr
  /-- A backquoted expression. -/
  | reprExpr
  | listExpr
  | braceExpr
  | dictEntry
  | tupleExpr
  | starExpr
  | namedExpr
  | lambdaExpr
  | ternaryExpr
  | boolOpExpr
  | notExpr
  | compareExpr
  | binExpr
  | unaryExpr
  /-- An atom with its `await`, its trailers and its `**` exponent. -/
  | powerExpr
  | attrTrailer
  | callTrailer
  | subscriptTrailer
  | argList
  /-- A keyword, starred or generator argument. -/
  | argument
  | subscriptList
  | slice
  | compFor
  | compIf
  | yieldExpr
  -- Recovery and sentinels
  /-- What was passed over after a syntax error. -/
  | error
  /-- The end of the input, in no tree. -/
  | eof
  /-- Stands for every number that names no kind. -/
  | unknown
deriving DecidableEq, Repr, Inhabited

namespace Kind

/-- Every kind, in the order of the numbers. -/
def all : List Kind :=
  [.whitespace, .comment, .nl, .lineContinuation, .newline, .indent, .dedent, .ident, .number,
   .str, .falseKw, .noneKw, .trueKw, .andKw, .asKw, .assertKw, .asyncKw, .awaitKw, .breakKw,
   .classKw, .continueKw, .defKw, .delKw, .elifKw, .elseKw, .exceptKw, .finallyKw, .forKw,
   .fromKw, .globalKw, .ifKw, .importKw, .inKw, .isKw, .lambdaKw, .nonlocalKw, .notKw, .orKw,
   .passKw, .raiseKw, .returnKw, .tryKw, .whileKw, .withKw, .yieldKw, .lParen, .rParen,
   .lBracket, .rBracket, .lBrace, .rBrace, .comma, .colon, .semicolon, .dot, .ellipsis, .arrow,
   .atSign, .backquote, .eq, .colonEq, .plus, .minus, .star, .doubleStar, .slash, .doubleSlash,
   .percent, .amp, .pipe, .caret, .tilde, .shl, .shr, .lt, .gt, .ltEq, .gtEq, .eqEq, .notEq,
   .ltGt, .plusEq, .minusEq, .starEq, .doubleStarEq, .slashEq, .doubleSlashEq, .percentEq,
   .ampEq, .pipeEq, .caretEq, .shlEq, .shrEq, .atEq, .errorToken, .module, .simpleStmt,
   .exprStmt, .passStmt, .breakStmt, .continueStmt, .returnStmt, .raiseStmt, .globalStmt,
   .nonlocalStmt, .delStmt, .assertStmt, .execStmt, .importStmt, .importFromStmt, .importAlias,
   .dottedName, .ifStmt, .elifClause, .elseClause, .whileStmt, .forStmt, .tryStmt, .exceptClause,
   .finallyClause, .withStmt, .withItem, .funcDef, .paramList, .param, .classDef, .decorated,
   .decorator, .suite, .name, .literal, .stringLiteral, .parenExpr, .reprExpr, .listExpr,
   .braceExpr, .dictEntry, .tupleExpr, .starExpr, .namedExpr, .lambdaExpr, .ternaryExpr,
   .boolOpExpr, .notExpr, .compareExpr, .binExpr, .unaryExpr, .powerExpr, .attrTrailer,
   .callTrailer, .subscriptTrailer, .argList, .argument, .subscriptList, .slice, .compFor,
   .compIf, .yieldExpr, .error, .eof, .unknown]

/-- The number of a kind: how many kinds are declared before it. -/
def raw (k : Kind) : Nat := k.ctorIdx

/-- The kind of a number; numbers past the last kind have none of their own. -/
def ofRaw (n : Nat) : Kind := all.getD n .unknown

theorem ofRaw_raw (k : Kind) : ofRaw k.raw = k := by
  cases k <;> rfl

theorem raw_injective {j k : Kind} (h : j.raw = k.raw) : j = k := by
  rw [← ofRaw_raw j, ← ofRaw_raw k, h]

/-- The name under which a kind is shown. -/
def label : Kind → String
  | .whitespace => "Whitespace"
  | .comment => "Comment"
  | .nl => "Nl"
  | .lineContinuation => "LineContinuation"
  | .newline => "Newline"
  | .indent => "Indent"
  | .dedent => "Dedent"
  | .ident => "Ident"
  | .number => "Number"
  | .str => "Str"
  | .falseKw => "FalseKw"
  | .noneKw => "NoneKw"
  | .trueKw => "TrueKw"
  | .andKw => "AndKw"
  | .asKw => "AsKw"
  | .assertKw => "AssertKw"
  | .asyncKw => "AsyncKw"
  | .awaitKw => "AwaitKw"
  | .breakKw => "BreakKw"
  | .classKw => "ClassKw"
  | .continueKw => "ContinueKw"
  | .defKw => "DefKw"
  | .delKw => "DelKw"
  | .elifKw => "ElifKw"
  | .elseKw => "ElseKw"
  | .exceptKw => "ExceptKw"
  | .finallyKw => "FinallyKw"
  | .forKw => "ForKw"
  | .fromKw => "FromKw"
  | .globalKw => "GlobalKw"
  | .ifKw => "IfKw"
  | .importKw => "ImportKw"
  | .inKw => "InKw"
  | .isKw => "IsKw"
  | .lambdaKw => "LambdaKw"
  | .nonlocalKw => "NonlocalKw"
  | .notKw => "NotKw"
  | .orKw => "OrKw"
  | .passKw => "PassKw"
  | .raiseKw => "RaiseKw"
  | .returnKw => "ReturnKw"
  | .tryKw => "TryKw"
  | .whileKw => "WhileKw"
  | .withKw => "WithKw"
  | .yieldKw => "YieldKw"
  | .lParen => "LParen"
  | .rParen => "RParen"
  | .lBracket => "LBracket"
  | .rBracket => "RBracket"
  | .lBrace => "LBrace"
  | .rBrace => "RBrace"
  | .comma => "Comma"
  | .colon => "Colon"
  | .semicolon => "Semicolon"
  | .dot => "Dot"
  | .ellipsis => "Ellipsis"
  | .arrow => "Arrow"
  | .atSign => "At"
  | .backquote => "Backquote"
  | .eq => "Eq"
  | .colonEq => "ColonEq"
  | .plus => "Plus"
  | .minus => "Minus"
  | .star => "Star"
  | .doubleStar => "DoubleStar"
  | .slash => "Slash"
  | .doubleSlash => "DoubleSlash"
  | .percent => "Percent"
  | .amp => "Amp"
  | .pipe => "Pipe"
  | .caret => "Caret"
  | .tilde => "Tilde"
  | .shl => "Shl"
  | .shr => "Shr"
  | .lt => "Lt"
  | .gt => "Gt"
  | .ltEq => "LtEq"
  | .gtEq => "GtEq"
  | .eqEq => "EqEq"
  | .notEq => "NotEq"
  | .ltGt => "LtGt"
  | .plusEq => "PlusEq"
  | .minusEq => "MinusEq"
  | .starEq => "StarEq"
  | .doubleStarEq => "DoubleStarEq"
  | .slashEq => "SlashEq"
  | .doubleSlashEq => "DoubleSlashEq"
  | .percentEq => "PercentEq"
  | .ampEq => "AmpEq"
  | .pipeEq => "PipeEq"
  | .caretEq => "CaretEq"
  | .shlEq => "ShlEq"
  | .shrEq => "ShrEq"
  | .atEq => "AtEq"
  | .errorToken => "ErrorToken"
  | .module => "Module"
  | .simpleStmt => "SimpleStmt"
  | .exprStmt => "ExprStmt"
  | .passStmt => "PassStmt"
  | .breakStmt => "BreakStmt"
  | .continueStmt => "ContinueStmt"
  | .returnStmt => "ReturnStmt"
  | .raiseStmt => "RaiseStmt"
  | .globalStmt => "GlobalStmt"
  | .nonlocalStmt => "NonlocalStmt"
  | .delStmt => "DelStmt"
  | .assertStmt => "AssertStmt"
  | .execStmt => "ExecStmt"
  | .importStmt => "ImportStmt"
  | .importFromStmt => "ImportFromStmt"
  | .importAlias => "ImportAlias"
  | .dottedName => "DottedName"
  | .ifStmt => "IfStmt"
  | .elifClause => "ElifClause"
  | .elseClause => "ElseClause"
  | .whileStmt => "WhileStmt"
  | .forStmt => "ForStmt"
  | .tryStmt => "TryStmt"
  | .exceptClause => "ExceptClause"
  | .finallyClause => "FinallyClause"
  | .withStmt => "WithStmt"
  | .withItem => "WithItem"
  | .funcDef => "FuncDef"
  | .paramList => "ParamList"
  | .param => "Param"
  | .classDef => "ClassDef"
  | .decorated => "Decorated"
  | .decorator => "Decorator"
  | .suite => "Suite"
  | .name => "Name"
  | .literal => "Literal"
  | .stringLiteral => "StringLiteral"
  | .parenExpr => "ParenExpr"
  | .reprExpr => "ReprExpr"
  | .listExpr => "ListExpr"
  | .braceExpr => "BraceExpr"
  | .dictEntry => "DictEntry"
  | .tupleExpr => "TupleExpr"
  | .starExpr => "StarExpr"
  | .namedExpr => "NamedExpr"
  | .lambdaExpr => "LambdaExpr"
  | .ternaryExpr => "TernaryExpr"
  | .boolOpExpr => "BoolOpExpr"
  | .notExpr => "NotExpr"
  | .compareExpr => "CompareExpr"
  | .binExpr => "BinExpr"
  | .unaryExpr => "UnaryExpr"
  | .powerExpr => "PowerExpr"
  | .attrTrailer => "AttrTrailer"
  | .callTrailer => "CallTrailer"
  | .subscriptTrailer => "SubscriptTrailer"
  | .argList => "ArgList"
  | .argument => "Argument"
  | .subscriptList => "SubscriptList"
  | .slice => "Slice"
  | .compFor => "CompFor"
  | .compIf => "CompIf"
  | .yieldExpr => "YieldExpr"
  | .error => "Error"
  | .eof => "Eof"
  | .unknown => "Unknown"

/-- The kind that a name shows. -/
def ofLabel? (s : String) : Option Kind := all.find? fun k => k.label == s

/-- Spaces, comments, line breaks inside a logical line and continuations. -/
def isTrivia : Kind → Bool
  | .whitespace | .comment | .nl | .lineContinuation => true
  | _ => false

/-- The marks that the layout of lines gives rise to. -/
def isLayout : Kind → Bool
  | .newline | .indent | .dedent => true
  | _ => false

/-- A content token is neither trivia nor a layout mark. -/
def isContent (k : Kind) : Bool := !k.isTrivia && !k.isLayout

/-- The words that are never names. -/
def isKeyword (k : Kind) : Bool := falseKw.raw ≤ k.raw && k.raw ≤ yieldKw.raw

/-- The operators that assign what they compute. -/
def isAugmentedAssign (k : Kind) : Bool := plusEq.raw ≤ k.raw && k.raw ≤ atEq.raw

/-- The keywords as they are spelled. -/
def keywords : List (String × Kind) :=
  [("False", .falseKw), ("None", .noneKw), ("True", .trueKw), ("and", .andKw), ("as", .asKw),
   ("assert", .assertKw), ("async", .asyncKw), ("await", .awaitKw), ("break", .breakKw),
   ("class", .classKw), ("continue", .continueKw), ("def", .defKw), ("del", .delKw),
   ("elif", .elifKw), ("else", .elseKw), ("except", .exceptKw), ("finally", .finallyKw),
   ("for", .forKw), ("from", .fromKw), ("global", .globalKw), ("if", .ifKw),
   ("import", .importKw), ("in", .inKw), ("is", .isKw), ("lambda", .lambdaKw),
   ("nonlocal", .nonlocalKw), ("not", .notKw), ("or", .orKw), ("pass", .passKw),
   ("raise", .raiseKw), ("return", .returnKw), ("try", .tryKw), ("while", .whileKw),
   ("with", .withKw), ("yield", .yieldKw)]

/-- The keyword that a word spells, if it spells one. -/
def ofKeyword? (word : String) : Option Kind := keywords.lookup word

/-- How a kind is named in a message about what the grammar expected. -/
def describe : Kind → String
  | .newline => "newline"
  | .indent => "indented block"
  | .dedent => "dedent"
  | .ident => "identifier"
  | .number => "number"
  | .str => "string"
  | .inKw => "'in'"
  | .elseKw => "'else'"
  | .importKw => "'import'"
  | .forKw => "'for'"
  | .lParen => "'('"
  | .rParen => "')'"
  | .lBracket => "'['"
  | .rBracket => "']'"
  | .lBrace => "'\x7b'"
  | .rBrace => "'\x7d'"
  | .comma => "','"
  | .colon => "':'"
  | .eq => "'='"
  | .backquote => "'`'"
  | .eof => "end of file"
  | _ => "token"

end Kind

end Renumber
