import Renumber.Call
import Renumber.Margin
import Renumber.Parse
import Renumber.Series

/-!
# Numbering

Every error call of a text gets the next code of a series. A call without arguments gets the code as
its only argument; a call with one gets it in front, with a comma; in a call with two the code takes
the place of the first argument.

Calls are numbered in the order in which they start: a call gets its code first, and the walk goes on
into what is then below it (`renumber`). So the calls in the first argument of a call with two get no
code, as they are gone by then. A text with a problem is left alone, and no code is drawn for it
(`fixText`).
-/

namespace Renumber

/-- How a code came into a call. -/
inductive FixKind where
  | inserted
  | replaced (previous : String)
deriving DecidableEq, Repr

/-- A call that got a code, and the line it starts on in the text as numbered so far. -/
structure Fix where
  line : Nat
  code : UInt64
  kind : FixKind
  shape : Shape
deriving DecidableEq, Repr

namespace Call

/-- Writes a code into the call that a node is, and says what keeps it from being written. A code in
front of an argument takes over the trivia of that argument, which gets one blank instead. -/
def write (c : Call) (code : UInt64) (line : Nat) (t : Tree) : Except Failure Tree :=
  match c.arguments with
  | .two p _ => t.replace p (.numberLiteral code)
  | .one p => do
    let t ← t.insertBefore p [.numberLiteral code, .comma]
    match t.setLeading (Tree.alongside 2 p) " " with
    | (t, .ok ()) => return t
    | (_, .error e) => throw e
  | .empty _ =>
    match (t.children[c.trailer]?).bind fun u => u.children.findIdx? fun v => v.kind == .lParen with
    | some i => t.insertAfter [c.trailer, i] [.numberArgList code]
    | none => throw (.internal ("call to " ++ c.shape.callee ++ " on line " ++ toString line ++
        " has no opening parenthesis"))

/-- What a code does to the call that a node is. -/
def fixKind (c : Call) (t : Tree) : FixKind :=
  match c.arguments with
  | .two p _ => .replaced (((Tree.at? p t).map Tree.text).getD "")
  | _ => .inserted

end Call

/-- Gives the call at the end of a path the next code of a series. -/
def Tree.applyCode (root : Tree) (p : List Nat) (t : Tree) (c : Call) (s : Series) :
    Except Failure (Tree × Fix × Series) := do
  let (code, s') ← s.next
  let line := root.lineOf p
  let new ← c.write code line t
  return ((Tree.substitute (fun _ => [new]) p root).headD root,
    ⟨line, code, c.fixKind t, c.shape⟩, s')

/-- What numbering keeps on its way through a text: the series, and the line it has reached. -/
structure Cursor where
  series : Series
  line : Nat
deriving DecidableEq, Repr

/-- A step of numbering. The cursor is there after a failure, too. -/
abbrev Numbering := ExceptT Failure (StateM Cursor)

namespace Numbering

/-- Moves on over a token. -/
def pass (t : Token) : Numbering Unit :=
  modify fun c => { c with line := c.line + Tree.feeds [t] }

/-- Draws the next code. -/
def draw : Numbering UInt64 := do
  let c ← get
  match c.series.next with
  | .ok (code, s) => set { c with series := s }; return code
  | .error e => throw e

/-- The record of a call that gets a code. -/
def record (c : Call) (t : Tree) : Numbering Fix := do
  let code ← draw
  let cursor ← get
  return ⟨cursor.line, code, c.fixKind t, c.shape⟩

end Numbering

/-! ## The walk

A walk that edits the tree it walks over ends because an edit makes no new call: the numeral of a code
holds none. -/

namespace Tree

mutual

/-- How many nodes of a tree may be calls. -/
def powers : Tree → Nat
  | token _ => 0
  | node k cs => (if k = .powerExpr then 1 else 0) + powersOf cs

/-- How many nodes of a list of trees may be calls. -/
def powersOf : List Tree → Nat
  | [] => 0
  | t :: ts => t.powers + powersOf ts

end

@[simp] theorem powers_token (t : Token) : (token t).powers = 0 := by rw [powers]
@[simp] theorem powers_node (k : Kind) (cs : List Tree) :
    (node k cs).powers = (if k = .powerExpr then 1 else 0) + powersOf cs := by rw [powers]
@[simp] theorem powersOf_nil : powersOf [] = 0 := by rw [powersOf]
@[simp] theorem powersOf_cons (t : Tree) (ts : List Tree) :
    powersOf (t :: ts) = t.powers + powersOf ts := by rw [powersOf]

@[simp] theorem powersOf_append (ts us : List Tree) :
    powersOf (ts ++ us) = powersOf ts + powersOf us := by
  induction ts with
  | nil => simp
  | cons t ts ih => simp [ih]; omega

/-- An edit that puts in nothing new that may be a call. -/
theorem powersOf_substitute_le {f : Tree → List Tree} (hf : ∀ t, powersOf (f t) ≤ t.powers)
    (p : List Nat) (t : Tree) : powersOf (substitute f p t) ≤ t.powers := by
  induction p generalizing t with
  | nil => exact hf t
  | cons i p ih =>
    cases t with
    | token t => simp [substitute]
    | node k cs =>
      rw [substitute]
      cases hc : cs[i]? with
      | none => simp
      | some c =>
        obtain ⟨hi, rfl⟩ := List.getElem?_eq_some_iff.1 hc
        have hcs : powersOf cs =
            powersOf (cs.take i) + (cs[i].powers + powersOf (cs.drop (i + 1))) := by
          rw [← powersOf_cons, List.getElem_cons_drop, ← powersOf_append, List.take_append_drop]
        have := ih cs[i]
        simp only [powersOf_cons, powersOf_nil, powers_node, powersOf_append, hcs]
        omega

/-- An edit below the root keeps the root. -/
theorem substitute_cons_node (f : Tree → List Tree) (i : Nat) (p : List Nat) (k : Kind)
    (cs : List Tree) : ∃ ds, substitute f (i :: p) (node k cs) = [node k ds] := by
  rw [substitute]
  cases cs[i]? with
  | none => exact ⟨cs, rfl⟩
  | some c => exact ⟨_, rfl⟩

/-- The tree is the node of some kind, with no more possible calls below it than there are in some
trees. -/
def Shrunk (k : Kind) (cs : List Tree) (t : Tree) : Prop :=
  ∃ ds, t = node k ds ∧ powersOf ds ≤ powersOf cs

theorem Shrunk.self (k : Kind) (cs : List Tree) : Shrunk k cs (node k cs) := ⟨cs, rfl, Nat.le_refl _⟩

section
variable {k : Kind} {cs : List Tree} {t t' : Tree} {p : List Nat}

theorem Shrunk.edit {f : Tree → List Tree} (ht : Shrunk k cs t)
    (hf : ∀ t, powersOf (f t) ≤ t.powers) (h : t.edit p f = .ok t') : Shrunk k cs t' := by
  obtain ⟨ds, rfl, hds⟩ := ht
  cases p with
  | nil => cases h
  | cons i p =>
    obtain ⟨es, hes⟩ := substitute_cons_node f i p k ds
    simp only [Tree.edit, hes, Except.ok.injEq] at h
    subst h
    have := powersOf_substitute_le hf (i :: p) (node k ds)
    simp only [hes, powersOf_cons, powersOf_nil, powers_node] at this
    exact ⟨es, rfl, by omega⟩

theorem Shrunk.insertBefore {new : List Tree} (hnew : powersOf new = 0) (ht : Shrunk k cs t)
    (h : t.insertBefore p new = .ok t') : Shrunk k cs t' :=
  ht.edit (fun u => by simp [hnew]) h

theorem Shrunk.insertAfter {new : List Tree} (hnew : powersOf new = 0) (ht : Shrunk k cs t)
    (h : t.insertAfter p new = .ok t') : Shrunk k cs t' :=
  ht.edit (fun u => by simp [hnew]) h

theorem Shrunk.replace {new : Tree} (hnew : new.powers = 0) (ht : Shrunk k cs t)
    (h : t.replace p new = .ok t') : Shrunk k cs t' :=
  ht.edit (fun u => by simp [hnew]) h

theorem Shrunk.removeAll (ht : Shrunk k cs t) (ps : List (List Nat)) :
    Shrunk k cs (t.removeAll ps) := by
  unfold Tree.removeAll
  induction ps with
  | nil => exact ht
  | cons p ps ih =>
    rw [List.foldr_cons, Tree.remove]
    split
    · rename_i h
      exact ih.edit (fun u => by simp) h
    · exact ih

theorem Shrunk.setLeading {text : String} {r : Except Failure Unit} (ht : Shrunk k cs t)
    (h : t.setLeading p text = (t', r)) : Shrunk k cs t' := by
  unfold Tree.setLeading at h
  dsimp only at h
  split at h
  · cases h
    exact ht.removeAll _
  · split at h
    · split at h <;> cases h
      · rename_i h
        exact (ht.insertBefore (by simp [blanks]) h).removeAll _
      · exact ht.removeAll _
    · cases h
      exact ht.removeAll _

/-- A code brings no possible call into the call that it is written into. -/
theorem shrunk_write {c : Call} {code : UInt64} {line : Nat}
    (h : c.write code line (node k cs) = .ok t') : Shrunk k cs t' := by
  unfold Call.write at h
  split at h
  · exact (Shrunk.self k cs).replace (by simp [numberLiteral]) h
  · cases hinsert : (node k cs).insertBefore _ [numberLiteral code, comma] with
    | error e => rw [hinsert] at h; cases h
    | ok t =>
      have ht := (Shrunk.self k cs).insertBefore (by simp [numberLiteral, comma]) hinsert
      rw [hinsert] at h
      dsimp only [bind, Except.bind] at h
      split at h
      · rename_i hset
        cases h
        exact ht.setLeading hset
      · cases h
  · split at h
    · exact (Shrunk.self k cs).insertAfter (by simp [numberArgList, numberLiteral]) h
    · cases h

end

/-- Only the node of an expression with trailers is a call. -/
theorem kind_of_call? {k : Kind} {cs : List Tree} {c : Call} (h : (node k cs).call? = some c) :
    k = .powerExpr := by
  unfold call? at h
  split at h
  · rename_i heq; injection heq
  · cases h

mutual

/-- Numbers the calls of an element: first the element, if it is a call, and then what is below it
with the code written in. -/
def renumber : Tree → Numbering (Tree × List Fix)
  | token t => do
    Numbering.pass t
    return (token t, [])
  | node k cs => do
    match _h : (node k cs).call? with
    | none =>
      let (cs', fixes) ← renumberAll cs
      return (node k cs', fixes)
    | some c =>
      let fix ← Numbering.record c (node k cs)
      match _w : c.write fix.code fix.line (node k cs) with
      | .error e => throw e
      | .ok t =>
        let (cs', fixes) ← renumberAll t.children
        return (node k cs', fix :: fixes)
termination_by t => (t.powers, sizeOf t)
decreasing_by
  · rw [powers_node, Prod.lex_def]
    simp only [node.sizeOf_spec]
    omega
  · obtain ⟨ds, rfl, hds⟩ := shrunk_write _w
    rw [powers_node, if_pos (kind_of_call? _h), Prod.lex_def, children]
    omega

/-- Numbers the calls of some siblings. -/
def renumberAll : List Tree → Numbering (List Tree × List Fix)
  | [] => return ([], [])
  | t :: ts => do
    let (t', fixes) ← t.renumber
    let (ts', more) ← renumberAll ts
    return (t' :: ts', fixes ++ more)
termination_by ts => (powersOf ts, sizeOf ts)
decreasing_by
  · rw [powersOf_cons, Prod.lex_def]
    simp only [List.cons.sizeOf_spec]
    omega
  · rw [powersOf_cons, Prod.lex_def]
    simp only [List.cons.sizeOf_spec]
    omega

end

end Tree

/-- What numbering made of a text. -/
structure Outcome where
  before : String
  tree : Tree
  fixes : List Fix
deriving Repr

namespace Outcome

/-- The numbered text. -/
def output (o : Outcome) : String := o.tree.text

/-- Numbering changed the text. -/
def changed (o : Outcome) : Bool := o.before != o.output

end Outcome

/-- An error of a text as a failure. -/
def ParseError.failure (e : ParseError) (text : String) : Failure :=
  let p := e.position text
  .parse Failure.inMemory e.problem.message p.line p.column

/-- The text that numbering reads: with the shared margin taken off if that is asked for. -/
def numberedText (dedent : Bool) (source : String) : String :=
  if dedent then Margin.strip source else source

/-- Numbers the calls of a source, and gives the series as it is afterwards. -/
def fixText (dedent : Bool) (source : String) (s : Series) : Except Failure Outcome × Series :=
  let text := numberedText dedent source
  let p := parse text
  match p.errors with
  | e :: _ => (.error (e.failure text), s)
  | [] =>
    let (result, cursor) := p.tree.renumber.run.run ⟨s, 1⟩
    (result.map fun (tree, fixes) => ⟨source, tree, fixes⟩, cursor.series)

/-- A source is numbered if its text has no problem and the walk of the tree goes through. -/
theorem fixText_eq_ok_iff {dedent : Bool} {source : String} {s s' : Series} {o : Outcome} :
    fixText dedent source s = (.ok o, s') ↔
      (parse (numberedText dedent source)).errors = [] ∧ o.before = source ∧
        ∃ line, (parse (numberedText dedent source)).tree.renumber.run.run ⟨s, 1⟩ =
          (.ok (o.tree, o.fixes), ⟨s', line⟩) := by
  unfold fixText
  dsimp only
  split
  · rename_i herrors
    constructor
    · intro h
      cases h
    · rintro ⟨hnone, -⟩
      cases herrors.symm.trans hnone
  · rename_i herrors
    rcases (parse (numberedText dedent source)).tree.renumber.run.run ⟨s, 1⟩ with ⟨f | r, cursor⟩
    · constructor
      · intro h
        cases h
      · rintro ⟨-, -, line, h⟩
        cases h
    · constructor
      · intro h
        cases h
        exact ⟨herrors, rfl, cursor.line, rfl⟩
      · rintro ⟨-, rfl, line, h⟩
        cases h
        rfl

/-- The root of a tree, or the first error found on the way to it. -/
def Parse.result (p : Parse) (source : String) : Except Failure Tree :=
  match p.errors with
  | e :: _ => .error (e.failure source)
  | [] => .ok p.tree

end Renumber
