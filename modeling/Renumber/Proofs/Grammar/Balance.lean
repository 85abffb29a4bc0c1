import Renumber.Proofs.Grammar.Clean

/-!
# Expressions are balanced

An expression closes the brackets that it opens, in order, and holds no mark of the layout. `Token.climb`
follows the depth of the brackets through a list of tokens, and `Phrase.tally` estimates, from the phrase
alone, at which depth a clean reading ends. The estimate is kept for the rules of expressions, each for the
kinds of tokens in front of which the grammar calls it (`Rule.entry`), and the grammar is checked against
it once (`operands_balanced`). An argument is the case that is used: `climb_argument`.
-/

namespace Renumber

/-- The brackets that open. -/
def Kind.openers : List Kind := [.lParen, .lBracket, .lBrace]

/-- The brackets that close. -/
def Kind.closers : List Kind := [.rParen, .rBracket, .rBrace]

/-- The depth of brackets after a token of a kind. There is none below the ground, nor after a mark of
the layout. -/
def Kind.climb (k : Kind) (d : Nat) : Option Nat :=
  if openers.contains k then some (d + 1)
  else if closers.contains k then if d = 0 then none else some (d - 1)
  else if k.isLayout then none
  else some d

/-- The depth of brackets after some tokens. -/
def Token.climb : Nat → List Token → Option Nat
  | d, [] => some d
  | d, t :: ts => (t.kind.climb d).bind fun e => climb e ts

theorem Kind.climb_of_isTrivia {k : Kind} (h : k.isTrivia = true) (d : Nat) :
    k.climb d = some d := by
  unfold isTrivia at h
  split at h
  · rfl
  · rfl
  · rfl
  · rfl
  · cases h

theorem Kind.not_isLayout_of_climb {k : Kind} {d e : Nat} (h : k.climb d = some e) :
    k.isLayout = false := by
  unfold climb at h
  split at h <;> rename_i hopen
  · revert hopen
    cases k <;> decide
  split at h <;> rename_i hclose
  · revert hclose
    cases k <;> decide
  split at h <;> rename_i hlayout
  · cases h
  · exact Bool.not_eq_true _ ▸ hlayout

theorem Kind.climb_add {k : Kind} {d e : Nat} (h : k.climb d = some e) (n : Nat) :
    k.climb (d + n) = some (e + n) := by
  unfold climb at h ⊢
  split at h <;> rename_i hopen
  · cases h
    rw [if_pos hopen, Nat.add_right_comm]
  rw [if_neg hopen]
  split at h <;> rename_i hclose
  · split at h
    · cases h
    · cases h
      rw [if_pos hclose, if_neg (by omega)]
      congr 1
      omega
  split at h <;> rename_i hlayout
  · cases h
  · cases h
    rw [if_neg hclose, if_neg hlayout]

namespace Token

theorem climb_append (d : Nat) (ts us : List Token) :
    climb d (ts ++ us) = (climb d ts).bind fun e => climb e us := by
  induction ts generalizing d with
  | nil => rfl
  | cons t ts ih =>
    rw [List.cons_append, climb, climb, Option.bind_assoc]
    congr 1
    funext e
    exact ih e

theorem climb_of_trivia {ts : List Token} (h : ∀ t ∈ ts, t.kind.isTrivia = true) (d : Nat) :
    climb d ts = some d := by
  induction ts with
  | nil => rfl
  | cons t ts ih =>
    rw [climb, Kind.climb_of_isTrivia (h t List.mem_cons_self), Option.bind_some]
    exact ih fun u hu => h u (List.mem_cons_of_mem _ hu)

/-- What is balanced from one depth on is so from a greater one on. -/
theorem climb_add {ts : List Token} {d e : Nat} (h : climb d ts = some e) (n : Nat) :
    climb (d + n) ts = some (e + n) := by
  induction ts generalizing d with
  | nil =>
    cases h
    rfl
  | cons t ts ih =>
    rw [climb, Option.bind_eq_some_iff] at h ⊢
    obtain ⟨f, hf, h⟩ := h
    exact ⟨f + n, Kind.climb_add hf n, ih h⟩

end Token

/-- The depth of brackets after a token whose kind is in a set, if it is the same for all of them. -/
def KindSet.climb (s : KindSet) (d : Nat) : Option Nat :=
  if s.within (.of Kind.openers) then some (d + 1)
  else if s.within (.of Kind.closers) then if d = 0 then none else some (d - 1)
  else if s.within (.every \ .of (Kind.openers ++ Kind.closers ++
      [.newline, .indent, .dedent, .eof])) then some d
  else none

theorem KindSet.climb_of_has {s : KindSet} {d e : Nat} (h : s.climb d = some e) {k : Kind}
    (hk : s.has k = true) : k.climb d = some e ∧ k ≠ .eof := by
  unfold climb at h
  split at h
  · rename_i hs
    have := has_of_within hs hk
    rw [has_of] at this
    cases h
    refine ⟨by rw [Kind.climb, if_pos this], ?_⟩
    rintro rfl
    cases this
  split at h
  · rename_i hs
    have := has_of_within hs hk
    rw [has_of] at this
    refine ⟨?_, ?_⟩
    · have hopen : Kind.openers.contains k = false := by
        revert this
        cases k <;> decide
      rw [Kind.climb, hopen, if_neg Bool.false_ne_true, if_pos this]
      exact h
    · rintro rfl
      cases this
  split at h
  · rename_i hs
    have := has_of_within hs hk
    simp only [has_diff, has_every, has_of, Bool.true_and, Bool.not_eq_true'] at this
    cases h
    refine ⟨?_, ?_⟩
    · revert this
      cases k <;> first | exact fun _ => rfl | exact fun h => (Bool.false_ne_true h.symm).elim
    · rintro rfl
      cases this
  · cases h

namespace Grammar

open Phrase

/-- What is known of the clean readings of a phrase. -/
inductive Tally where
  /-- There are none. -/
  | never
  /-- They all end at this depth; if `takes` says so, they take a token. -/
  | ends (depth : Nat) (takes : Bool)
  | unknown
deriving DecidableEq

/-- What is known is true of a clean reading of some tokens that starts at a depth. -/
def Tally.TrueOf (d : Nat) (ts : List Token) : Tally → Prop
  | never => False
  | ends e takes => Token.climb d ts = some e ∧ (takes = true → ts ≠ [])
  | unknown => True

/-- One reading and then another. -/
def Tally.andThen : Tally → (Nat → Tally) → Tally
  | ends e b, f =>
    match f e with
    | ends g c => ends g (b || c)
    | r => r
  | r, _ => r

/-- One reading or another. -/
def Tally.orElse : Tally → Tally → Tally
  | never, r => r
  | r, never => r
  | ends e b, ends f c => if e = f then ends e (b && c) else unknown
  | _, _ => unknown

/-- A reading as often as it goes, at least once if `once` says so. -/
def Tally.repeated (d : Nat) (once : Bool) : Tally → Tally
  | never => ends d false
  | ends e b => if e = d then ends d (once && b) else unknown
  | unknown => unknown

section
variable {r q : Tally} {d : Nat} {ts us : List Token}

theorem Tally.trueOf_andThen {f : Nat → Tally} (hr : r.TrueOf d ts)
    (hf : ∀ e, Token.climb d ts = some e → (f e).TrueOf e us) :
    (r.andThen f).TrueOf d (ts ++ us) := by
  cases r with
  | never => exact hr
  | unknown => trivial
  | ends e b =>
    have hfe := hf e hr.1
    cases hq : f e with
    | never =>
      rw [hq] at hfe
      exact hfe.elim
    | unknown =>
      simp only [andThen, hq]
      trivial
    | ends g c =>
      rw [hq] at hfe
      simp only [andThen, hq]
      refine ⟨by rw [Token.climb_append, hr.1]; exact hfe.1, fun h => ?_⟩
      rw [ne_eq, List.append_eq_nil_iff]
      rintro ⟨hts, hus⟩
      rcases Bool.or_eq_true .. ▸ h with h | h
      · exact hr.2 h hts
      · exact hfe.2 h hus

theorem Tally.trueOf_orElse_left (hr : r.TrueOf d ts) : (r.orElse q).TrueOf d ts := by
  cases r with
  | never => exact hr.elim
  | unknown => cases q <;> trivial
  | ends e b =>
    cases q with
    | never => exact hr
    | unknown => trivial
    | ends f c =>
      simp only [orElse]
      split
      · exact ⟨hr.1, fun h => hr.2 (Bool.and_eq_true .. ▸ h).1⟩
      · trivial

theorem Tally.trueOf_orElse_right (hq : q.TrueOf d ts) : (r.orElse q).TrueOf d ts := by
  cases q with
  | never => exact hq.elim
  | unknown => cases r <;> trivial
  | ends f c =>
    cases r with
    | never => exact hq
    | unknown => trivial
    | ends e b =>
      simp only [orElse]
      split
      · rename_i h
        exact ⟨h ▸ hq.1, fun h => hq.2 (Bool.and_eq_true .. ▸ h).2⟩
      · trivial

theorem Tally.trueOf_repeated_nil (r : Tally) (d : Nat) : (r.repeated d false).TrueOf d [] := by
  cases r with
  | never => exact ⟨rfl, fun h => (Bool.false_ne_true h).elim⟩
  | unknown => trivial
  | ends e b =>
    simp only [repeated]
    split
    · exact ⟨rfl, fun h => (Bool.false_ne_true h).elim⟩
    · trivial

theorem Tally.trueOf_repeated_append {b c : Bool} (hr : r.TrueOf d ts)
    (h : (r.repeated d b).TrueOf d us) : (r.repeated d c).TrueOf d (ts ++ us) := by
  cases r with
  | never => exact hr.elim
  | unknown => trivial
  | ends e takes =>
    simp only [repeated] at h ⊢
    split
    · rename_i he
      subst he
      rw [if_pos rfl] at h
      refine ⟨by rw [Token.climb_append, hr.1]; exact h.1, fun hc => ?_⟩
      rw [ne_eq, List.append_eq_nil_iff]
      exact fun hnil => hr.2 (Bool.and_eq_true .. ▸ hc).2 hnil.1
    · trivial

end

/-! ## The estimate -/

/-- The rules of expressions. -/
def operandRules : List Rule :=
  [.params .colon false, .param false, .typeHint false, .starOrTest, .starOrBitOr, .starExpr,
   .namedExprTest, .test, .testNoCond, .lambdaExpr, .orTest, .andTest, .notTest, .comparison, .bitOr,
   .bitXor, .bitAnd, .shift, .arith, .term, .factor, .power, .trailer, .atom, .testListComp,
   .dictOrSet, .dictOrSetItem, .subscriptList, .subscript, .argList, .argument, .compFor, .compIf,
   .yieldExpr]

/-- The kinds of tokens in front of which the grammar calls the rule of an expression. The rules that
take their first token whatever it is are called in front of few. -/
def Rule.entry (a : Rule) : KindSet :=
  if operandRules.contains a then
    match a with
    | .starExpr => .of [.star]
    | .lambdaExpr => .of [.lambdaKw]
    | .trailer => .of [.lParen, .lBracket, .dot]
    | .compIf => .of [.ifKw, .asyncKw]
    | .yieldExpr => .of [.yieldKw]
    | _ => .every
  else .of []

/-- The rule takes a token. -/
def Rule.takes : Rule → Bool
  | .params .. | .typeHint _ | .subscript | .subscriptList => false
  | _ => true

section
variable {α : Type}

/-- The kinds that the next token and the one after it may have after a phrase, given those that they
may have in front of it. -/
def Phrase.after (s second : KindSet) : Phrase α → KindSet × KindSet
  | .done | .trivia => (s, second)
  | .next => (second, .every)
  | _ => (.every, .every)

end

/-- What is known when the next token has a kind of one set and the one after it of another. -/
def unlessEmpty (s second : KindSet) (r : Tally) : Tally :=
  if s.isEmpty || second.isEmpty then .never else r

/-- What is known of the clean readings of a phrase that start at a depth, in front of two tokens whose
kinds are in two sets. -/
def Phrase.tally : P → KindSet → KindSet → Nat → Tally
  | .done, _, _, d | .trivia, _, _, d => .ends d false
  | .next, s, _, d =>
    match s.climb d with
    | some e => .ends e true
    | none => .unknown
  | .fault _, _, _, _ => .never
  | .seq p q, s, second, d | .adopt p q, s, second, d =>
    (p.tally s second d).andThen (q.tally (p.after s second).1 (p.after s second).2)
  | .branch l p q, s, second, d =>
    (unlessEmpty (s ∩ l.may true) (second ∩ l.maySecond true)
      (p.tally (s ∩ l.may true) (second ∩ l.maySecond true) d)).orElse
    (unlessEmpty (s ∩ l.may false) (second ∩ l.maySecond false)
      (q.tally (s ∩ l.may false) (second ∩ l.maySecond false) d))
  | .many l p, s, _, d =>
    (p.tally (l.may true) (l.maySecond true) d).repeated d (s ∩ l.may false).isEmpty
  | .enclose _ p, s, second, d => p.tally s second d
  | .rule a, s, _, d => if s.within a.entry then .ends d a.takes else .unknown

/-- What is known of the rule of an expression is that its brackets are balanced. -/
def Rule.balanced (a : Rule) : Bool :=
  (grammar a).tally a.entry .every 0 == .ends 0 true ||
    (!a.takes && (grammar a).tally a.entry .every 0 == .ends 0 false)

theorem operands_balanced : operandRules.all Rule.balanced = true := by decide +kernel

/-- What is known of the rule of an expression is said at every depth. -/
theorem Rule.trueOf_of_entry {a : Rule} {k : Kind} (hk : a.entry.has k = true) {ts : List Token}
    (h : ((grammar a).tally a.entry .every 0).TrueOf 0 ts) (d : Nat) :
    (Tally.ends d a.takes).TrueOf d ts := by
  have hmem : a ∈ operandRules := by
    unfold entry at hk
    split at hk
    · rename_i ha
      simpa using ha
    · simp at hk
  have hbal := List.all_eq_true.1 operands_balanced a hmem
  simp only [balanced, Bool.or_eq_true, Bool.and_eq_true, beq_iff_eq, Bool.not_eq_true'] at hbal
  rcases hbal with hbal | ⟨htakes, hbal⟩ <;> rw [hbal] at h <;>
    refine ⟨by simpa using Token.climb_add h.1 d, fun ht => ?_⟩
  · exact h.2 rfl
  · rw [htakes] at ht
    cases ht

section
variable {p : P} {ts us : List Token} {as : List Tree}

/-- After a phrase, the next tokens are of the kinds that they may have. -/
theorem Reads.has_after (h : Reads p ts as us) {s second : KindSet}
    (hs : s.has (nextKind ts) = true) (hsecond : second.has (secondKind ts) = true) :
    (p.after s second).1.has (nextKind us) = true ∧
      (p.after s second).2.has (secondKind us) = true := by
  cases h with
  | done => exact ⟨hs, hsecond⟩
  | trivia =>
    rw [nextKind_congr (upcoming_upcoming ts), secondKind, upcoming_upcoming]
    exact ⟨hs, hsecond⟩
  | next => exact ⟨hsecond, KindSet.has_every _⟩
  | _ => exact ⟨KindSet.has_every _, KindSet.has_every _⟩

/-- The token that a phrase takes decides at which depth it is. -/
theorem trueOf_next {s : KindSet} (hs : s.has (nextKind ts) = true) (d : Nat) {second : KindSet} :
    (next.tally s second d).TrueOf d (pending ts ++ (upcoming ts).take 1) := by
  simp only [tally]
  split
  · rename_i e he
    obtain ⟨hk, hne⟩ := KindSet.climb_of_has he hs
    obtain ⟨t, us, hu, ht⟩ := exists_upcoming_of_nextKind rfl hne
    rw [hu]
    refine ⟨?_, by simp⟩
    rw [Token.climb_append, Token.climb_of_trivia fun w hw => trivia_of_mem_pending hw,
      Option.bind_some, List.take_succ_cons, List.take_zero, Token.climb, ht, hk]
    rfl
  · trivial

/-- What is known of a phrase is true of its clean readings. -/
theorem Reads.trueOf_tally (h : Reads p ts as us) {s second : KindSet} (hs : s.has (nextKind ts) = true)
    (hsecond : second.has (secondKind ts) = true) (d : Nat) :
    (p.tally s second d).TrueOf d (Tree.leavesOf as) := by
  -- The branch that is taken is one that may be.
  have hmay {l : Look} {b : Bool} {ts : List Token} {s second : KindSet} {r : Tally}
      (hl : l.holds ts = b) (hs : s.has (nextKind ts) = true)
      (hsecond : second.has (secondKind ts) = true) :
      (s ∩ l.may b).has (nextKind ts) = true ∧
        (second ∩ l.maySecond b).has (secondKind ts) = true ∧
        unlessEmpty (s ∩ l.may b) (second ∩ l.maySecond b) r = r := by
    have h₁ := has_inter_may hs hl
    have h₂ := has_inter_maySecond hsecond hl
    refine ⟨h₁, h₂, ?_⟩
    rw [unlessEmpty, KindSet.not_isEmpty_of_has h₁, KindSet.not_isEmpty_of_has h₂]
    rfl
  induction h generalizing s second d with
  | done => exact ⟨rfl, fun h => (Bool.false_ne_true h).elim⟩
  | seq hp hq ihp ihq =>
    have hafter := hp.has_after hs hsecond
    rw [Tree.leavesOf_append]
    exact Tally.trueOf_andThen (ihp hs hsecond d) fun e _ => ihq hafter.1 hafter.2 e
  | adopt hp hq ihp ihq =>
    have hafter := hp.has_after hs hsecond
    rw [leavesOf_adoptAll]
    exact Tally.trueOf_andThen (ihp hs hsecond d) fun e _ => ihq hafter.1 hafter.2 e
  | trivia =>
    rw [Tree.leavesOf_map_token]
    exact ⟨Token.climb_of_trivia (fun w hw => trivia_of_mem_pending hw) d, fun h => (Bool.false_ne_true h).elim⟩
  | next =>
    rw [Tree.leavesOf_map_token]
    exact trueOf_next hs d
  | left hl _ ih =>
    obtain ⟨h₁, h₂, h₃⟩ := hmay hl hs hsecond
    simp only [tally]
    rw [h₃]
    exact Tally.trueOf_orElse_left (ih h₁ h₂ d)
  | right hl _ ih =>
    obtain ⟨h₁, h₂, h₃⟩ := hmay hl hs hsecond
    simp only [tally]
    rw [h₃]
    exact Tally.trueOf_orElse_right (ih h₁ h₂ d)
  | stop hl =>
    obtain ⟨h₁, -, -⟩ := hmay (r := .never) hl hs hsecond
    simp only [tally]
    rw [KindSet.not_isEmpty_of_has h₁, Tree.leavesOf_nil]
    exact Tally.trueOf_repeated_nil _ d
  | @again l p ts us vs as bs hl hp hm ihp ihm =>
    have h₁ := l.may_holds ts
    have h₂ := l.maySecond_holds ts
    rw [hl] at h₁ h₂
    rw [Tree.leavesOf_append]
    exact Tally.trueOf_repeated_append (ihp h₁ h₂ d)
      (ihm (KindSet.has_every _) (KindSet.has_every _) d)
  | enclose _ ih =>
    rw [Tree.leavesOf_cons, Tree.leaves_node, Tree.leavesOf_nil, List.append_nil]
    exact ih hs hsecond d
  | @rule a ts us as _ ih =>
    simp only [tally]
    split
    · rename_i hentry
      have hk := KindSet.has_of_within hentry hs
      exact Rule.trueOf_of_entry hk (ih hk (KindSet.has_every _) 0) d
    · trivial

end

/-- An argument is balanced and holds a token. -/
theorem climb_argument {ts us : List Token} {as : List Tree}
    (h : Reads (.rule .argument) ts as us) (d : Nat) :
    Token.climb d (Tree.leavesOf as) = some d ∧ Tree.leavesOf as ≠ [] := by
  have htrue := h.trueOf_tally (KindSet.has_every _)
    (KindSet.has_every _) d
  rw [show (Phrase.rule Rule.argument).tally .every .every d = .ends d true from rfl] at htrue
  exact ⟨htrue.1, htrue.2 rfl⟩

end Grammar

end Renumber
