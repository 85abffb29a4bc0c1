import Renumber.Tree.Edit

/-!
# Error calls

A call reports an error when it goes through one of three receivers, however it is laid out:

    result.error(...)
    self.logger.error(...)
    self.logger.user_error(...)

The call has to be the whole expression: an `await` in front, one more trailer or an exponent rules it
out. It has no argument, one positional argument or two. `call?` says what a node binds; the paths in
its answer start at the node.
-/

namespace Renumber

/-- The methods of the logger that report errors. -/
inductive LoggerMethod where
  | error
  | userError
deriving DecidableEq, Repr

/-- The name of a method. -/
def LoggerMethod.name : LoggerMethod → String
  | .error => "error"
  | .userError => "user_error"

/-- The method of a name. -/
def LoggerMethod.ofName? (s : String) : Option LoggerMethod :=
  if s == "error" then some .error else if s == "user_error" then some .userError else none

/-- The receiver that an error call goes through. -/
inductive Shape where
  | result
  | logger (method : LoggerMethod)
deriving DecidableEq, Repr

/-- The callee of a shape as it is written without blanks. -/
def Shape.callee : Shape → String
  | .result => "result.error"
  | .logger m => "self.logger." ++ m.name

/-- What an error call is given. Each path leads from the call to the element it names. -/
inductive Arguments where
  /-- No argument; the path leads to the opening parenthesis. -/
  | empty (opening : List Nat)
  | one (message : List Nat)
  /-- The first argument is taken for an old code. -/
  | two (code message : List Nat)
deriving DecidableEq, Repr

/-- The paths to the arguments. -/
def Arguments.paths : Arguments → List (List Nat)
  | .empty _ => []
  | .one m => [m]
  | .two c m => [c, m]

/-- The arguments as seen from the parent of the trailer, of which the trailer is the i-th child. -/
def Arguments.below (i : Nat) : Arguments → Arguments
  | .empty p => .empty (i :: p)
  | .one p => .one (i :: p)
  | .two p q => .two (i :: p) (i :: q)

/-- An error call: its shape, the index of its parentheses among its children, its arguments. -/
structure Call where
  shape : Shape
  trailer : Nat
  arguments : Arguments
deriving DecidableEq, Repr

namespace Tree

/-- The first token of an element. -/
def firstToken (t : Tree) : Option Token :=
  match t.firstToken?.bind fun p => at? p t with
  | some (token tok) => some tok
  | _ => none

/-- The element is a plain name of the given spelling. -/
def isNameOf (s : String) (t : Tree) : Bool :=
  t.isNode && t.kind == .name && t.firstToken == some ⟨.ident, s⟩

/-- The identifier of an attribute trailer. -/
def attribute? (t : Tree) : Option String :=
  match t with
  | node .attrTrailer _ =>
    match t.significant.map Prod.snd with
    | [dot, token ⟨.ident, s⟩] => if dot.kind == .dot then some s else none
    | _ => none
  | _ => none

/-- Plain expressions and `*iterable` are positional; keyword arguments, `**mapping` and bare
generators are not. -/
def isPositional (t : Tree) : Bool :=
  match t with
  | token _ => false
  | node .argument _ => (t.significant.head?.map fun (_, c) => c.kind) == some .star
  | node .. => true

/-- The arguments of a call trailer, if they are what an error call may have. The paths start at the
trailer. -/
def arguments? (t : Tree) : Option Arguments :=
  match t.significant with
  | [(i, l), (_, r)] =>
    if l.kind == .lParen && r.kind == .rParen then some (.empty [i]) else none
  | [(_, l), (j, args), (_, r)] =>
    if l.kind == .lParen && args.kind == .argList && args.isNode && r.kind == .rParen then
      match args.significant with
      | [(a, first)] => if first.isPositional then some (.one [j, a]) else none
      | [(a, first), (_, comma), (b, second)] =>
        if comma.kind == .comma && first.isPositional && second.isPositional then
          some (.two [j, a] [j, b])
        else none
      | _ => none
    else none
  | _ => none

/-- The trailer at an index as the parentheses of an error call. -/
def callOf? (shape : Shape) (i : Nat) (trailer : Tree) : Option Call :=
  match trailer with
  | node .callTrailer _ => trailer.arguments?.map fun a => ⟨shape, i, a.below i⟩
  | _ => none

/-- The error call that a node is, if it is one. -/
def call? (t : Tree) : Option Call :=
  match t with
  | node .powerExpr _ =>
    match t.significant with
    | [(_, receiver), (_, attr), (i, trailer)] =>
      if receiver.isNameOf "result" && attr.attribute? == some "error" then
        callOf? .result i trailer
      else none
    | [(_, receiver), (_, logger), (_, attr), (i, trailer)] =>
      if receiver.isNameOf "self" && logger.attribute? == some "logger" then do
        let method ← attr.attribute?.bind LoggerMethod.ofName?
        callOf? (.logger method) i trailer
      else none
    | _ => none
  | _ => none

/-- The error calls of a tree, each with its path, outer calls before the ones in their arguments. -/
def calls (t : Tree) : List (List Nat × Tree × Call) :=
  t.elements.filterMap fun (p, u) => u.call?.map fun c => (p, u, c)

end Tree

end Renumber
