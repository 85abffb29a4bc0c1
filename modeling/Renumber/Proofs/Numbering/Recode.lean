import Renumber.Proofs.Grammar.Balance
import Renumber.Proofs.Numbering.Walk

/-!
# Codes one at a time

The walk writes many codes and goes on into what it has written in between. Each code by itself is an edit
of one call trailer somewhere in the tree (`Recoded`), and the walk is a sequence of such edits
(`Coded.recodings`). So what every single edit keeps, numbering keeps.

In the tokens of the tree, an edit puts a numeral behind an opening parenthesis, and takes away at most the
tokens of one argument (`Inserted`, `Renumbered`).
-/

namespace Renumber

/-- The token of a numeral. -/
def Token.numeral (n : UInt64) : Token := ⟨.number, toString n.toNat⟩

namespace Tree

@[simp] theorem leaves_numberLiteral (n : UInt64) : (numberLiteral n).leaves = [.numeral n] := by
  simp [numberLiteral, Token.numeral]

/-- The trees with one code more: the parentheses of one call get what the code makes of them. -/
inductive Recoded (n : UInt64) : List Tree → List Tree → Prop
  | here {us ts : List Tree} {a : Arguments} {f : UInt64 → List Tree} (h : Args us a f) :
      Recoded n (node .callTrailer us :: ts) (node .callTrailer (f n) :: ts)
  | down {k : Kind} {cs cs' ts : List Tree} (h : Recoded n cs cs') :
      Recoded n (node k cs :: ts) (node k cs' :: ts)
  | there {t : Tree} {ts ts' : List Tree} (h : Recoded n ts ts') : Recoded n (t :: ts) (t :: ts')

theorem Recoded.append_left {n : UInt64} {ts ts' : List Tree} (h : Recoded n ts ts')
    (us : List Tree) : Recoded n (us ++ ts) (us ++ ts') := by
  induction us with
  | nil => exact h
  | cons u us ih => exact .there ih

/-- An edit of several trees is one of the first of them or of the others. -/
theorem recoded_append {n : UInt64} {ts us vs : List Tree} (h : Recoded n (ts ++ us) vs) :
    (∃ ts', Recoded n ts ts' ∧ vs = ts' ++ us) ∨ ∃ us', Recoded n us us' ∧ vs = ts ++ us' := by
  induction ts generalizing vs with
  | nil => exact .inr ⟨vs, h, rfl⟩
  | cons t ts ih =>
    rw [List.cons_append] at h
    cases h with
    | here h => exact .inl ⟨_, .here h, rfl⟩
    | down h => exact .inl ⟨_, .down h, rfl⟩
    | there h =>
      rcases ih h with ⟨ts', hts, rfl⟩ | ⟨us', hus, rfl⟩
      · exact .inl ⟨_, .there hts, rfl⟩
      · exact .inr ⟨us', hus, rfl⟩

theorem not_recoded_tokens {n : UInt64} (ts : List Token) (vs : List Tree) :
    ¬Recoded n (ts.map token) vs := by
  induction ts generalizing vs with
  | nil => intro h; cases h
  | cons t ts ih =>
    intro h
    cases h with
    | there h => exact ih _ h

theorem recoded_node {n : UInt64} {k : Kind} {cs vs : List Tree} (h : Recoded n [node k cs] vs) :
    (∃ a f, k = .callTrailer ∧ Args cs a f ∧ vs = [node k (f n)]) ∨
      ∃ cs', Recoded n cs cs' ∧ vs = [node k cs'] := by
  cases h with
  | here h => exact .inl ⟨_, _, rfl, h, rfl⟩
  | down h => exact .inr ⟨_, h, rfl⟩
  | there h => cases h

/-- Codes one after another. -/
abbrev Recodings : List Tree → List Tree → Prop :=
  Relation.ReflTransGen fun ts us => ∃ n, Recoded n ts us

theorem Recodings.down {cs cs' : List Tree} (h : Recodings cs cs') (k : Kind) (ts : List Tree) :
    Recodings (node k cs :: ts) (node k cs' :: ts) :=
  Relation.ReflTransGen.lift (fun cs => node k cs :: ts) (fun _ _ ⟨n, h⟩ => ⟨n, .down h⟩) _ _ h

theorem Recodings.there {ts ts' : List Tree} (h : Recodings ts ts') (t : Tree) :
    Recodings (t :: ts) (t :: ts') :=
  Relation.ReflTransGen.lift (fun ts => t :: ts) (fun _ _ ⟨n, h⟩ => ⟨n, .there h⟩) _ _ h

/-- Numbering writes one code after another. -/
theorem Coded.recodings {s s' : UInt64} {ts ts' : List Tree}
    {fs : List (UInt64 × FixKind × Shape)} (h : Coded s ts ts' fs s') : Recodings ts ts' := by
  induction h with
  | nil => exact .refl
  | token _ ih => exact ih.there _
  | plain _ _ _ ihcs ihts => exact (ihcs.down _ _).trans (ihts.there _)
  | call hcall _ _ _ ihcs ihts =>
    obtain ⟨callee, us, trailing, a, f, hnode, -, -, hargs, hc⟩ := call?_eq_some_iff.1 hcall
    injection hnode with hk hcs
    subst hk hcs
    rw [hc, put_eq hargs, children_node] at ihcs
    exact .head ⟨_, .down ((Recoded.here hargs).append_left callee)⟩
      ((ihcs.down _ _).trans (ihts.there _))

end Tree

/-! ## Tokens -/

/-- The tokens start with one that may stand right after a numeral: trivia, a comma or a closing
parenthesis. -/
def Token.Apart (ts : List Token) : Prop :=
  ∃ t us, ts = t :: us ∧ (t.kind.isTrivia = true ∨ t.kind = .comma ∨ t.kind = .rParen)

/-- The tokens behind the parenthesis of a call, before and after an edit. -/
inductive Inserted (n : UInt64) : List Token → List Token → Prop
  /-- The numeral becomes the only argument. -/
  | empty {us : List Token} (hus : Token.Apart us) : Inserted n us (.numeral n :: us)
  /-- The numeral becomes the first of two arguments. -/
  | one {ws us : List Token} {t : Token} (hws : ∀ w ∈ ws, w.kind.isTrivia = true)
      (ht : t.kind.isTrivia = false) (hmark : t.kind.isLayout = false) :
      Inserted n (ws ++ t :: us)
        (ws ++ .numeral n :: ⟨.comma, ","⟩ :: ⟨.whitespace, " "⟩ :: t :: us)
  /-- The numeral takes the place of an argument. -/
  | two {ws vs us : List Token} {t : Token} (hws : ∀ w ∈ ws, w.kind.isTrivia = true)
      (ht : t.kind.isTrivia = false) (hvs : Token.climb 0 (t :: vs) = some 0)
      (hus : Token.Apart us) : Inserted n (ws ++ (t :: vs ++ us)) (ws ++ .numeral n :: us)

/-- The tokens before and after an edit of one call. -/
inductive Renumbered (n : UInt64) : List Token → List Token → Prop
  | intro {xs us us' : List Token} {t : Token} (ht : t.kind = .lParen) (h : Inserted n us us') :
      Renumbered n (xs ++ t :: us) (xs ++ t :: us')

theorem Renumbered.append_left {n : UInt64} {ts ts' : List Token} (h : Renumbered n ts ts')
    (us : List Token) : Renumbered n (us ++ ts) (us ++ ts') := by
  cases h with
  | intro ht h =>
    rw [← List.append_assoc, ← List.append_assoc]
    exact .intro ht h

end Renumber
