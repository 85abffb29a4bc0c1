import Renumber.Proofs.Grammar.Clean

/-!
# Expressions

Expressions of operands, trailers, operators and parentheses, the tokens they are written with and the trees
that they are read as. What can stand next to what is a matter of levels:

| level | expressions |
| --- | --- |
| 0 | `c if t else e` |
| 1, 2, 3 | `or`, `and`, `not` |
| 4 | comparisons |
| 5, 6, 7 | `\|`, `^`, `&` |
| 8, 9, 10 | shifts, sums, products |
| 11 | signs |
| 12 | `**` |
| 13 | operands with trailers |
| 14 | operands and parentheses |

An operand of an operator has a level that its place admits, or else it stands in parentheses (`Expr.fitted`).
The operators group to the left, so their right operand has to be of a tighter level; the exponent of a power
and the last part of a conditional expression go on to the right.
-/

namespace Renumber

/-- The scan takes the whole text of the token as one token of its kind. -/
def Token.Whole (t : Token) : Prop :=
  ∃ c cs, t.text.toList = c :: cs ∧ Reach.scan c cs = ⟨t.kind, cs.length, none⟩

/-- The kinds of names, numbers and strings. -/
def operandKinds : List Kind := [.ident, .number, .str]

/-- A name, a number or a string. -/
structure Operand where
  token : Token
  kind_mem : token.kind ∈ operandKinds
  whole : token.Whole

/-! ## Operators -/

/-- The node that holds an operator of a level between its operands. -/
def levelNode (m : Nat) : Kind :=
  if m < 3 then .boolOpExpr else if m = 4 then .compareExpr else .binExpr

/-- The operators between two operands. -/
inductive Operator where
  | or
  | and
  | lt
  | gt
  | eqEq
  | gtEq
  | ltEq
  | ltGt
  | notEq
  | elem
  | notElem
  | is
  | isNot
  | pipe
  | caret
  | amp
  | shl
  | shr
  | plus
  | minus
  | star
  | slash
  | percent
  | doubleSlash
  | atSign
deriving DecidableEq, Repr

namespace Operator

/-- How tightly the operator binds its operands. -/
def level : Operator → Nat
  | or => 1
  | and => 2
  | lt | gt | eqEq | gtEq | ltEq | ltGt | notEq | elem | notElem | is | isNot => 4
  | pipe => 5
  | caret => 6
  | amp => 7
  | shl | shr => 8
  | plus | minus => 9
  | star | slash | percent | doubleSlash | atSign => 10

/-- The operator as it is written. -/
def tokens : Operator → List Token
  | or => [⟨.orKw, "or"⟩]
  | and => [⟨.andKw, "and"⟩]
  | lt => [⟨.lt, "<"⟩]
  | gt => [⟨.gt, ">"⟩]
  | eqEq => [⟨.eqEq, "=="⟩]
  | gtEq => [⟨.gtEq, ">="⟩]
  | ltEq => [⟨.ltEq, "<="⟩]
  | ltGt => [⟨.ltGt, "<>"⟩]
  | notEq => [⟨.notEq, "!="⟩]
  | elem => [⟨.inKw, "in"⟩]
  | notElem => [⟨.notKw, "not"⟩, ⟨.inKw, "in"⟩]
  | is => [⟨.isKw, "is"⟩]
  | isNot => [⟨.isKw, "is"⟩, ⟨.notKw, "not"⟩]
  | pipe => [⟨.pipe, "|"⟩]
  | caret => [⟨.caret, "^"⟩]
  | amp => [⟨.amp, "&"⟩]
  | shl => [⟨.shl, "<<"⟩]
  | shr => [⟨.shr, ">>"⟩]
  | plus => [⟨.plus, "+"⟩]
  | minus => [⟨.minus, "-"⟩]
  | star => [⟨.star, "*"⟩]
  | slash => [⟨.slash, "/"⟩]
  | percent => [⟨.percent, "%"⟩]
  | doubleSlash => [⟨.doubleSlash, "//"⟩]
  | atSign => [⟨.atSign, "@"⟩]

/-- The node that holds the operator and its operands. -/
def node (op : Operator) : Kind := levelNode op.level

end Operator

/-- The operators in front of one operand. -/
inductive UnaryOperator where
  | not
  | plus
  | minus
  | tilde
deriving DecidableEq, Repr

namespace UnaryOperator

/-- How tightly the operator binds its operand. -/
def level : UnaryOperator → Nat
  | not => 3
  | plus | minus | tilde => 11

/-- The operator as it is written. -/
def token : UnaryOperator → Token
  | not => ⟨.notKw, "not"⟩
  | plus => ⟨.plus, "+"⟩
  | minus => ⟨.minus, "-"⟩
  | tilde => ⟨.tilde, "~"⟩

/-- The node that holds the operator and its operand. -/
def node : UnaryOperator → Kind
  | not => .notExpr
  | plus | minus | tilde => .unaryExpr

end UnaryOperator

/-! ## Expressions -/

/-- An expression. Its parentheses are those that are meant to be there in any case. -/
inductive Expr where
  | operand (o : Operand)
  | paren (e : Expr)
  | attr (e : Expr) (name : {o : Operand // o.token.kind = .ident})
  | call (e : Expr) (arguments : List Expr)
  | power (base exponent : Expr)
  | unary (op : UnaryOperator) (e : Expr)
  | binary (op : Operator) (left right : Expr)
  | ternary (e condition otherwise : Expr)

namespace Expr

/-- How tightly the parts of an expression hold together. -/
def level : Expr → Nat
  | operand _ | paren _ => 14
  | attr .. | call .. => 13
  | power .. => 12
  | unary op _ => op.level
  | binary op .. => op.level
  | ternary .. => 0

/-- The expression where nothing looser than a level can stand. -/
def within (m : Nat) (e : Expr) : Expr := if e.level < m then .paren e else e

mutual

/-- The expression with parentheses around the operands that are looser than their places admit. -/
def fitted : Expr → Expr
  | operand o => operand o
  | paren e => paren e.fitted
  | attr e name => attr (e.fitted.within 13) name
  | call e arguments => call (e.fitted.within 13) (fittedAll arguments)
  | power base exponent => power (base.fitted.within 13) (exponent.fitted.within 11)
  | unary op e => unary op (e.fitted.within op.level)
  | binary op left right =>
    binary op (left.fitted.within op.level) (right.fitted.within (op.level + 1))
  | ternary e condition otherwise =>
    ternary (e.fitted.within 1) (condition.fitted.within 1) otherwise.fitted

/-- The arguments of a call, each with the parentheses that it needs. -/
def fittedAll : List Expr → List Expr
  | [] => []
  | e :: es => e.fitted :: fittedAll es

end

mutual

/-- The tokens of an expression. -/
def tokens : Expr → List Token
  | operand o => [o.token]
  | paren e => ⟨.lParen, "("⟩ :: (e.tokens ++ [⟨.rParen, ")"⟩])
  | attr e name => e.tokens ++ [⟨.dot, "."⟩, name.1.token]
  | call e arguments => e.tokens ++ ⟨.lParen, "("⟩ :: (argumentTokens arguments ++ [⟨.rParen, ")"⟩])
  | power base exponent => base.tokens ++ ⟨.doubleStar, "**"⟩ :: exponent.tokens
  | unary op e => op.token :: e.tokens
  | binary op left right => left.tokens ++ (op.tokens ++ right.tokens)
  | ternary e condition otherwise =>
    e.tokens ++ ⟨.ifKw, "if"⟩ :: (condition.tokens ++ ⟨.elseKw, "else"⟩ :: otherwise.tokens)

/-- The tokens of the arguments of a call. -/
def argumentTokens : List Expr → List Token
  | [] => []
  | e :: es => e.tokens ++ moreTokens es

/-- The tokens of the arguments after the first one. -/
def moreTokens : List Expr → List Token
  | [] => []
  | e :: es => ⟨.comma, ","⟩ :: (e.tokens ++ moreTokens es)

end

/-- The node of an operand. -/
def operandNode : Kind → Kind
  | .ident => .name
  | .number => .literal
  | _ => .stringLiteral

/-- What the tree of an expression brings to a power: an operand with trailers is a power already, and that
one goes on. -/
def parts (e : Expr) (t : Tree) : List Tree := if e.level = 13 then t.children else [t]

mutual

/-- The tree of an expression. -/
def tree : Expr → Tree
  | operand o => .node (operandNode o.token.kind) [.token o.token]
  | paren e => .node .parenExpr [.token ⟨.lParen, "("⟩, e.tree, .token ⟨.rParen, ")"⟩]
  | attr e name =>
    .node .powerExpr
      (e.parts e.tree ++ [.node .attrTrailer [.token ⟨.dot, "."⟩, .token name.1.token]])
  | call e arguments =>
    .node .powerExpr
      (e.parts e.tree ++
        [.node .callTrailer
          (.token ⟨.lParen, "("⟩ :: (argumentList arguments ++ [.token ⟨.rParen, ")"⟩]))])
  | power base exponent =>
    .node .powerExpr (base.parts base.tree ++ [.token ⟨.doubleStar, "**"⟩, exponent.tree])
  | unary op e => .node op.node [.token op.token, e.tree]
  | binary op left right => .node op.node (left.tree :: (op.tokens.map .token ++ [right.tree]))
  | ternary e condition otherwise =>
    .node .ternaryExpr
      [e.tree, .token ⟨.ifKw, "if"⟩, condition.tree, .token ⟨.elseKw, "else"⟩, otherwise.tree]

/-- The arguments of a call, as one node if there are any. -/
def argumentList : List Expr → List Tree
  | [] => []
  | e :: es => [.node .argList (e.tree :: moreTrees es)]

/-- The trees of the arguments after the first one. -/
def moreTrees : List Expr → List Tree
  | [] => []
  | e :: es => .token ⟨.comma, ","⟩ :: e.tree :: moreTrees es

end

/-! ## Parentheses -/

/-- Whatever stands in a place is as tight as the place demands. -/
theorem level_within_of_le {m : Nat} (hm : m ≤ 14) (e : Expr) : m ≤ (e.within m).level := by
  unfold within
  split
  · exact hm
  · rename_i h
    exact Nat.not_lt.1 h

theorem within_within {m : Nat} (hm : m ≤ 14) (e : Expr) : (e.within m).within m = e.within m :=
  if_neg (Nat.not_lt.2 (level_within_of_le hm e))

/-- The parentheses inside an expression do not change its own level. -/
theorem level_fitted (e : Expr) : e.fitted.level = e.level := by
  cases e <;> rfl

theorem fitted_within (m : Nat) (e : Expr) : (e.within m).fitted = e.fitted.within m := by
  rw [within, within, level_fitted]
  split <;> rfl

theorem operator_level_lt (op : Operator) : op.level + 1 ≤ 14 := by
  cases op <;> decide

theorem unary_level_le (op : UnaryOperator) : op.level ≤ 14 := by
  cases op <;> decide

mutual

/-- An expression that has the parentheses it needs gets no more. -/
theorem fitted_fitted : (e : Expr) → e.fitted.fitted = e.fitted
  | operand o => rfl
  | paren e => by rw [fitted, fitted, fitted_fitted e]
  | attr e name => by
    rw [fitted, fitted, fitted_within, fitted_fitted e, within_within (by decide)]
  | call e arguments => by
    rw [fitted, fitted, fitted_within, fitted_fitted e, within_within (by decide),
      fittedAll_fittedAll arguments]
  | power base exponent => by
    rw [fitted, fitted, fitted_within, fitted_within, fitted_fitted base, fitted_fitted exponent,
      within_within (by decide), within_within (by decide)]
  | unary op e => by
    rw [fitted, fitted, fitted_within, fitted_fitted e, within_within (unary_level_le op)]
  | binary op left right => by
    rw [fitted, fitted, fitted_within, fitted_within, fitted_fitted left, fitted_fitted right,
      within_within (Nat.le_of_succ_le (operator_level_lt op)), within_within (operator_level_lt op)]
  | ternary e condition otherwise => by
    rw [fitted, fitted, fitted_within, fitted_within, fitted_fitted e, fitted_fitted condition,
      fitted_fitted otherwise, within_within (by decide), within_within (by decide)]

theorem fittedAll_fittedAll : (es : List Expr) → fittedAll (fittedAll es) = fittedAll es
  | [] => rfl
  | e :: es => by rw [fittedAll, fittedAll, fitted_fitted e, fittedAll_fittedAll es]

end

end Expr

end Renumber
