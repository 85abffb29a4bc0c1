import Renumber.Tree

/-!
# Phrases

The grammar is data: a `Phrase` says how a stretch of tokens becomes trees, and `read` carries it out.
Phrases call each other by the names of the rules (`α`), so a grammar is a function from rules to
phrases.

Trivia never take part in a decision. A `Look` asks for the kinds of the next two tokens that are not
trivia and for the text of the first; where the trivia go is fixed here once: `trivia` puts those in
front of the next token under the node that is open, and `next` does so before it takes the token.

Three facts hold of every phrase, so of every rule of every grammar:

* what the trees hold and what is left are the tokens that were given (`Reading.leaves_append_rest`);
* more fuel does not change an answer (`read_mono`);
* a fault points at a token that is still to be read, or at the end (`Reading.suffix_of_mem_faults`).
-/

namespace Renumber

/-- What the grammar misses in a list of tokens. -/
inductive SyntaxProblem where
  | expected (kind : Kind)
  | expectedExpression
  | expectedModuleName
  | expectedHandler
  | expectedDefinition
  | unexpectedIndent
  | invalidSyntax
deriving DecidableEq, Repr

/-- The wording of a syntax problem. -/
def SyntaxProblem.message : SyntaxProblem → String
  | .expected kind => "expected " ++ kind.describe
  | .expectedExpression => "expected expression"
  | .expectedModuleName => "expected module name"
  | .expectedHandler => "expected 'except' or 'finally' block"
  | .expectedDefinition => "expected function or class definition"
  | .unexpectedIndent => "unexpected indent"
  | .invalidSyntax => "invalid syntax"

/-- A problem, with the tokens from the one it is about to the end. -/
structure Fault where
  problem : SyntaxProblem
  rest : List Token
deriving DecidableEq, Repr

namespace Grammar

/-- The tokens from the next one that is not trivia on. -/
def upcoming (ts : List Token) : List Token := ts.dropWhile fun t => t.kind.isTrivia

/-- The kind of the next token that is not trivia; the end of the list looks like `Kind.eof`. -/
def nextKind (ts : List Token) : Kind := ((upcoming ts).head?.map Token.kind).getD .eof

/-- The text of the next token that is not trivia. -/
def nextText (ts : List Token) : String := ((upcoming ts).head?.map Token.text).getD ""

/-- The kind of the token after the next one, trivia left out. -/
def secondKind (ts : List Token) : Kind := nextKind ((upcoming ts).drop 1)

/-- A condition on the next two tokens that are not trivia. -/
inductive Look where
  | next (kinds : List Kind)
  | second (kinds : List Kind)
  | text (s : String)
  | both (a b : Look)
  | either (a b : Look)
  | not (a : Look)
deriving DecidableEq, Repr

/-- The condition holds in front of a list of tokens. -/
def Look.holds : Look → List Token → Bool
  | .next kinds, ts => kinds.contains (nextKind ts)
  | .second kinds, ts => kinds.contains (secondKind ts)
  | .text s, ts => nextText ts == s
  | .both a b, ts => a.holds ts && b.holds ts
  | .either a b, ts => a.holds ts || b.holds ts
  | .not a, ts => !a.holds ts

/-- How tokens become trees. The rules of the grammar are named by `α`. -/
inductive Phrase (α : Type) where
  /-- Reads nothing. -/
  | done
  /-- One phrase and then another. -/
  | seq (p q : Phrase α)
  /-- The trivia in front of the next token. -/
  | trivia
  /-- The trivia and the next token. -/
  | next
  /-- Reports a problem with the next token and reads nothing. -/
  | fault (problem : SyntaxProblem)
  /-- One of two phrases, as the next tokens decide. -/
  | branch (l : Look) (p q : Phrase α)
  /-- A phrase again and again, as long as the condition holds. -/
  | many (l : Look) (p : Phrase α)
  /-- What a phrase reads, as one node. -/
  | enclose (k : Kind) (p : Phrase α)
  /-- What the first phrase reads becomes the first children of the node that the second one reads,
  that node the first child of the next one, and so on. -/
  | adopt (p q : Phrase α)
  /-- What a rule of the grammar says. -/
  | rule (a : α)
deriving DecidableEq

/-- What a phrase makes of a list of tokens. -/
structure Reading where
  trees : List Tree
  rest : List Token
  faults : List Fault
deriving Repr

/-- Trees as the first children of one more tree. -/
def adoptOne (cs : List Tree) : Tree → List Tree
  | .node k ds => [.node k (cs ++ ds)]
  | .token t => cs ++ [.token t]

/-- Trees as the first children of the first of some nodes, that one as the first child of the
second, and so on. -/
def adoptAll (cs : List Tree) (ns : List Tree) : List Tree := ns.foldl adoptOne cs

/-- The trivia that a list of tokens starts with. -/
def pending (ts : List Token) : List Token := ts.takeWhile fun t => t.kind.isTrivia

section
variable {α : Type}

/-- Carries out a phrase on a list of tokens. The fuel bounds the nesting of phrases, and there is
no answer when it runs out. -/
def read (g : α → Phrase α) : Nat → Phrase α → List Token → Option Reading
  | 0, _, _ => none
  | n + 1, phrase, ts =>
    match phrase with
    | .done => some ⟨[], ts, []⟩
    | .seq p q => do
      let a ← read g n p ts
      let b ← read g n q a.rest
      some ⟨a.trees ++ b.trees, b.rest, a.faults ++ b.faults⟩
    | .trivia => some ⟨(pending ts).map .token, upcoming ts, []⟩
    | .next =>
      some ⟨(pending ts ++ (upcoming ts).take 1).map .token, (upcoming ts).drop 1, []⟩
    | .fault problem => some ⟨[], ts, [⟨problem, upcoming ts⟩]⟩
    | .branch l p q => if l.holds ts then read g n p ts else read g n q ts
    | .many l p =>
      if l.holds ts then do
        let a ← read g n p ts
        let b ← read g n (.many l p) a.rest
        some ⟨a.trees ++ b.trees, b.rest, a.faults ++ b.faults⟩
      else some ⟨[], ts, []⟩
    | .enclose k p => do
      let a ← read g n p ts
      some ⟨[.node k a.trees], a.rest, a.faults⟩
    | .adopt p q => do
      let a ← read g n p ts
      let b ← read g n q a.rest
      some ⟨adoptAll a.trees b.trees, b.rest, a.faults ++ b.faults⟩
    | .rule a => read g n (g a) ts

/-! ## What holds of every phrase -/

theorem pending_append_upcoming (ts : List Token) : pending ts ++ upcoming ts = ts :=
  List.takeWhile_append_dropWhile

theorem leavesOf_adoptAll (cs ns : List Tree) :
    Tree.leavesOf (adoptAll cs ns) = Tree.leavesOf cs ++ Tree.leavesOf ns := by
  induction ns generalizing cs with
  | nil => simp [adoptAll]
  | cons t ns ih =>
    have h1 : Tree.leavesOf (adoptOne cs t) = Tree.leavesOf cs ++ t.leaves := by
      cases t <;> simp [adoptOne]
    simp only [adoptAll, List.foldl_cons] at ih ⊢
    rw [ih, h1, Tree.leavesOf_cons, List.append_assoc]

/-- A reading of a list of tokens takes them in order and loses none. -/
theorem Reading.leaves_append_rest {g : α → Phrase α} {n : Nat} {p : Phrase α} {ts : List Token}
    {r : Reading} (h : read g n p ts = some r) : Tree.leavesOf r.trees ++ r.rest = ts := by
  induction n generalizing p ts r with
  | zero => simp [read] at h
  | succ n ih =>
    cases p with
    | done => simp only [read, Option.some.injEq] at h; subst h; simp
    | seq p q =>
      simp only [read, Option.bind_eq_bind, Option.bind_eq_some_iff, Option.some.injEq] at h
      obtain ⟨a, ha, b, hb, rfl⟩ := h
      simp only [Tree.leavesOf_append, List.append_assoc, ih hb, ih ha]
    | trivia =>
      simp only [read, Option.some.injEq] at h; subst h
      simp [pending_append_upcoming]
    | next =>
      simp only [read, Option.some.injEq] at h; subst h
      simp only [Tree.leavesOf_map_token, List.append_assoc, List.take_append_drop,
        pending_append_upcoming]
    | fault problem => simp only [read, Option.some.injEq] at h; subst h; simp
    | branch l p q => simp only [read] at h; split at h <;> exact ih h
    | many l p =>
      simp only [read] at h
      split at h
      · simp only [Option.bind_eq_bind, Option.bind_eq_some_iff, Option.some.injEq] at h
        obtain ⟨a, ha, b, hb, rfl⟩ := h
        simp only [Tree.leavesOf_append, List.append_assoc, ih hb, ih ha]
      · simp only [Option.some.injEq] at h; subst h; simp
    | enclose k p =>
      simp only [read, Option.bind_eq_bind, Option.bind_eq_some_iff, Option.some.injEq] at h
      obtain ⟨a, ha, rfl⟩ := h
      simp [ih ha]
    | adopt p q =>
      simp only [read, Option.bind_eq_bind, Option.bind_eq_some_iff, Option.some.injEq] at h
      obtain ⟨a, ha, b, hb, rfl⟩ := h
      simp only [leavesOf_adoptAll, List.append_assoc, ih hb, ih ha]
    | rule a => simp only [read] at h; exact ih h

/-- More fuel does not change an answer. -/
theorem read_mono {g : α → Phrase α} {m n : Nat} {p : Phrase α} {ts : List Token} {r : Reading}
    (h : read g n p ts = some r) (hmn : n ≤ m) : read g m p ts = some r := by
  induction n generalizing m p ts r with
  | zero => simp [read] at h
  | succ n ih =>
    obtain ⟨m, rfl⟩ : ∃ k, m = k + 1 := ⟨m - 1, by omega⟩
    have hmn' : n ≤ m := by omega
    cases p with
    | done | trivia | next | fault _ => simpa only [read] using h
    | seq p q | adopt p q =>
      simp only [read, Option.bind_eq_bind, Option.bind_eq_some_iff] at h ⊢
      obtain ⟨a, ha, b, hb, hr⟩ := h
      exact ⟨a, ih ha hmn', b, ih hb hmn', hr⟩
    | branch l p q =>
      simp only [read] at h ⊢
      split <;> rename_i hl <;> simp only [hl, if_true] at h <;> exact ih h hmn'
    | many l p =>
      simp only [read] at h ⊢
      split <;> rename_i hl <;> simp only [hl, if_true] at h
      · simp only [Option.bind_eq_bind, Option.bind_eq_some_iff] at h ⊢
        obtain ⟨a, ha, b, hb, hr⟩ := h
        exact ⟨a, ih ha hmn', b, ih hb hmn', hr⟩
      · exact h
    | enclose k p =>
      simp only [read, Option.bind_eq_bind, Option.bind_eq_some_iff] at h ⊢
      obtain ⟨a, ha, hr⟩ := h
      exact ⟨a, ih ha hmn', hr⟩
    | rule a => simp only [read] at h ⊢; exact ih h hmn'

/-- What a reading leaves is an end of what it was given. -/
theorem Reading.rest_suffix {g : α → Phrase α} {n : Nat} {p : Phrase α} {ts : List Token}
    {r : Reading} (h : read g n p ts = some r) : r.rest <:+ ts :=
  ⟨_, leaves_append_rest h⟩

theorem upcoming_suffix (ts : List Token) : upcoming ts <:+ ts := ⟨_, pending_append_upcoming ts⟩

/-- A fault points at a token that was still to be read, or at the end. -/
theorem Reading.suffix_of_mem_faults {g : α → Phrase α} {n : Nat} {p : Phrase α}
    {ts : List Token} {r : Reading} (h : read g n p ts = some r) {f : Fault} (hf : f ∈ r.faults) :
    f.rest <:+ ts := by
  induction n generalizing p ts r with
  | zero => simp [read] at h
  | succ n ih =>
    cases p with
    | done | trivia | next =>
      simp only [read, Option.some.injEq] at h; subst h; simp at hf
    | fault problem =>
      simp only [read, Option.some.injEq] at h; subst h
      simp only [List.mem_singleton] at hf; subst hf
      exact upcoming_suffix ts
    | seq p q | adopt p q =>
      simp only [read, Option.bind_eq_bind, Option.bind_eq_some_iff, Option.some.injEq] at h
      obtain ⟨a, ha, b, hb, rfl⟩ := h
      rcases List.mem_append.1 hf with hf | hf
      · exact ih ha hf
      · exact (ih hb hf).trans (rest_suffix ha)
    | branch l p q => simp only [read] at h; split at h <;> exact ih h hf
    | many l p =>
      simp only [read] at h
      split at h
      · simp only [Option.bind_eq_bind, Option.bind_eq_some_iff, Option.some.injEq] at h
        obtain ⟨a, ha, b, hb, rfl⟩ := h
        rcases List.mem_append.1 hf with hf | hf
        · exact ih ha hf
        · exact (ih hb hf).trans (rest_suffix ha)
      · simp only [Option.some.injEq] at h; subst h; simp at hf
    | enclose k p =>
      simp only [read, Option.bind_eq_bind, Option.bind_eq_some_iff, Option.some.injEq] at h
      obtain ⟨a, ha, rfl⟩ := h
      exact ih ha hf
    | rule a => simp only [read] at h; exact ih h hf

end

end Grammar

end Renumber
