import Renumber.Proofs.Grammar.Balance
import Renumber.Proofs.Grammar.Bare
import Renumber.Proofs.Layout.Blocks

/-!
# A survey of the grammar

In the tree of a source without problems every node holds something, does not end in trivia and is no error
(`Tree.Formed`). Whether a phrase reads such trees hangs on the tokens in front of which it is read.
`Phrase.survey` goes through a phrase with the kinds that the next two tokens may have, and says what is certain
of the trees of its clean readings (`Shape`). What comes behind the phrase is given to it, so that it can go on
with the kinds that each branch of the phrase leaves. The survey knows of every rule where it is called and what
it reads (`Rule.admits`, `Rule.shape`), and the grammar is checked against that once (`rules_surveyed`). What it
says is true of all clean readings (`Reads.trueOf_survey`), but for suites that open a block: they alone take
the marks of blocks.
-/

namespace Renumber

namespace Tree

/-- Some trees do not end in trivia. -/
def Closed (ts : List Tree) : Prop :=
  ∀ w, ts.getLast? = some (token w) → w.kind.isTrivia = false

theorem closed_nil : Closed [] := by
  intro w h
  cases h

theorem closed_concat (ts : List Tree) {t : Tree} (h : t.isTrivia = false) : Closed (ts ++ [t]) := by
  intro w hw
  rw [List.getLast?_concat, Option.some.injEq] at hw
  rw [hw] at h
  exact h

theorem Closed.append {ts us : List Tree} (hus : Closed us) (hts : us = [] → Closed ts) :
    Closed (ts ++ us) := by
  cases us with
  | nil => rw [List.append_nil]; exact hts rfl
  | cons u us =>
    intro w hw
    rw [List.getLast?_append_of_ne_nil _ (List.cons_ne_nil u us)] at hw
    exact hus w hw

/-- None of the tokens of some trees is a mark of the layout. -/
def Level (ts : List Tree) : Prop := ∀ u ∈ leavesOf ts, u.kind.isLayout = false

/-- The tree is one that a source without problems becomes. -/
inductive Formed : Tree → Prop
  | token {t : Token} (h : t.kind.isMark = false) : Formed (.token t)
  | node {k : Kind} {cs : List Tree} (hnode : k.isNode = true) (herror : k ≠ .error) (hne : cs ≠ [])
      (hclosed : Closed cs) (hpower : k = .powerExpr → Level cs) (hcs : ∀ c ∈ cs, Formed c) :
      Formed (.node k cs)
  | suite {ws ws' : List Token} {newline indent dedent : Token} {cs : List Tree}
      (hws : ∀ w ∈ ws, w.kind.isTrivia = true) (hnewline : newline.kind = .newline)
      (hws' : ∀ w ∈ ws', w.kind.isTrivia = true) (hindent : indent.kind = .indent)
      (hcs : ∀ c ∈ cs, Formed c) (hdedent : dedent.kind = .dedent) :
      Formed (.node .suite ((ws ++ newline :: (ws' ++ [indent])).map token ++ (cs ++ [.token dedent])))

theorem nest_leavesOf {ts : List Tree} (h : ∀ t ∈ ts, ∀ d, Token.nest d t.leaves = some d) (d : Nat) :
    Token.nest d (leavesOf ts) = some d := by
  induction ts with
  | nil => rw [leavesOf_nil]; rfl
  | cons t ts ih =>
    rw [leavesOf_cons, Token.nest_append, h t List.mem_cons_self, Option.bind_some]
    exact ih fun u hu => h u (List.mem_cons_of_mem _ hu)

/-- Such a tree closes the blocks that it opens. -/
theorem Formed.nest {t : Tree} (h : t.Formed) (d : Nat) : Token.nest d t.leaves = some d := by
  induction h generalizing d with
  | token h => rw [leaves_token, Token.nest_cons_of_not_isMark h, Token.nest_nil]
  | node _ _ _ _ _ _ ih =>
    rw [leaves_node]
    exact nest_leavesOf ih d
  | @suite ws ws' nl ind ded cs hws hnewline hws' hindent _ hdedent ih =>
    rw [leaves_node, leavesOf_append, leavesOf_map_token, leavesOf_append, Token.nest_append,
      Token.nest_append, Token.nest_of_trivia hws, Option.bind_some,
      Token.nest_cons_of_not_isMark (by rw [hnewline]; rfl), Token.nest_append,
      Token.nest_of_trivia hws', Option.bind_some, Token.nest_cons, hindent]
    show Token.nest (d + 1) _ = _
    rw [Token.nest_append, nest_leavesOf ih, Option.bind_some, leavesOf_cons, leaves_token,
      leavesOf_nil, List.append_nil, Token.nest_cons, hdedent]
    rfl

theorem nest_of_formed {ts : List Tree} (h : ∀ t ∈ ts, t.Formed) (d : Nat) :
    Token.nest d (leavesOf ts) = some d :=
  nest_leavesOf (fun t ht => (h t ht).nest) d

end Tree

namespace Grammar

open Phrase

/-! ## What is certain -/

/-- What is certain of the trees that a phrase reads. -/
structure Shape where
  /-- There are some. -/
  takes : Bool
  /-- They do not end in trivia. -/
  closed : Bool
  /-- They hold no mark of the layout. -/
  level : Bool
deriving DecidableEq

/-- What is said of some trees is true. -/
structure Shape.TrueOf (a : Shape) (ts : List Tree) : Prop where
  formed : ∀ t ∈ ts, t.Formed
  takes : a.takes = true → ts ≠ []
  closed : a.closed = true → Tree.Closed ts
  level : a.level = true → Tree.Level ts

/-- Some trees and then others. -/
def Shape.append (a b : Shape) : Shape :=
  ⟨a.takes || b.takes, b.closed && (b.takes || a.closed), a.level && b.level⟩

/-- Some trees or others. -/
def Shape.meet (a b : Shape) : Shape := ⟨a.takes && b.takes, a.closed && b.closed, a.level && b.level⟩

/-- No trees. -/
def Shape.nothing : Shape := ⟨false, true, true⟩

/-- What is known of the clean readings of a phrase. -/
inductive Survey where
  /-- There are none. -/
  | never
  | known (a : Shape)
  | unknown
deriving DecidableEq

/-- What is known is true of some trees. -/
def Survey.TrueOf (ts : List Tree) : Survey → Prop
  | never => False
  | known a => a.TrueOf ts
  | unknown => True

/-- Trees of a shape and then those that are known. -/
def Survey.after (a : Shape) : Survey → Survey
  | known b => known (a.append b)
  | r => r

/-- One reading and then another. -/
def Survey.andThen (r q : Survey) : Survey :=
  match r with
  | known a => q.after a
  | r => r

/-- One reading or another. -/
def Survey.orElse : Survey → Survey → Survey
  | never, r => r
  | r, never => r
  | known a, known b => known (a.meet b)
  | _, _ => unknown

/-- A reading once or more often. -/
def Survey.again : Survey → Survey
  | known a => if a.takes && a.closed then known a else unknown
  | r => r

/-- A reading as one node. -/
def Survey.enclosed (k : Kind) : Survey → Survey
  | known a =>
    if k.isNode && k != .error && a.takes && a.closed && (k != .powerExpr || a.level) then known a
    else unknown
  | r => r

/-- What one reading reads, adopted by what another one reads. -/
def Survey.adopted : Survey → Survey
  | known a => if a.level then known a else unknown
  | r => r

/-- What is known if the next token has a kind of one set and the one after it of another. -/
def Survey.ifAny (s second : KindSet) (r : Survey) : Survey :=
  if s.isEmpty || second.isEmpty then never else r

/-- Nothing comes behind a phrase. -/
def Survey.stop (_ _ : KindSet) : Survey := known .nothing

section
variable {a b : Shape} {r q : Survey} {ts us : List Tree}

theorem Shape.trueOf_append (ha : a.TrueOf ts) (hb : b.TrueOf us) :
    (a.append b).TrueOf (ts ++ us) where
  formed t ht := (List.mem_append.1 ht).elim (ha.formed t) (hb.formed t)
  takes h := by
    rw [ne_eq, List.append_eq_nil_iff]
    rintro ⟨hts, hus⟩
    exact (Bool.or_eq_true .. ▸ h).elim (ha.takes · hts) (hb.takes · hus)
  closed h := by
    obtain ⟨hclosed, h⟩ := Bool.and_eq_true .. ▸ h
    refine (hb.closed hclosed).append fun hus => ?_
    exact (Bool.or_eq_true .. ▸ h).elim (absurd hus <| hb.takes ·) ha.closed
  level h u hu := by
    obtain ⟨hl, hr⟩ := Bool.and_eq_true .. ▸ h
    rw [Tree.leavesOf_append] at hu
    exact (List.mem_append.1 hu).elim (ha.level hl u) (hb.level hr u)

theorem Shape.trueOf_meet_left (ha : a.TrueOf ts) : (a.meet b).TrueOf ts where
  formed := ha.formed
  takes h := ha.takes (Bool.and_eq_true .. ▸ h).1
  closed h := ha.closed (Bool.and_eq_true .. ▸ h).1
  level h := ha.level (Bool.and_eq_true .. ▸ h).1

theorem Shape.trueOf_meet_right (hb : b.TrueOf ts) : (a.meet b).TrueOf ts where
  formed := hb.formed
  takes h := hb.takes (Bool.and_eq_true .. ▸ h).2
  closed h := hb.closed (Bool.and_eq_true .. ▸ h).2
  level h := hb.level (Bool.and_eq_true .. ▸ h).2

theorem Shape.trueOf_nothing : Shape.nothing.TrueOf [] where
  formed := List.forall_mem_nil _
  takes h := (Bool.false_ne_true h).elim
  closed _ := Tree.closed_nil
  level _ := by
    intro u hu
    cases hu

theorem Shape.trueOf_tokens {us : List Token} (h : ∀ u ∈ us, u.kind.isMark = false)
    (hclosed : a.closed = true → Tree.Closed (us.map .token)) (htakes : a.takes = true → us ≠ [])
    (hlevel : a.level = true → ∀ u ∈ us, u.kind.isLayout = false) : a.TrueOf (us.map .token) where
  formed t ht := by
    obtain ⟨u, hu, rfl⟩ := List.mem_map.1 ht
    exact .token (h u hu)
  takes ha := by simpa using htakes ha
  closed := hclosed
  level hl u hu := hlevel hl u (by rwa [Tree.leavesOf_map_token] at hu)

theorem Survey.trueOf_after (ha : a.TrueOf ts) (hr : r.TrueOf us) :
    (r.after a).TrueOf (ts ++ us) := by
  cases r with
  | never => exact hr
  | known b => exact Shape.trueOf_append ha hr
  | unknown => trivial

theorem Survey.trueOf_andThen (hr : r.TrueOf ts) (hq : (∀ t ∈ ts, t.Formed) → q.TrueOf us) :
    (r.andThen q).TrueOf (ts ++ us) := by
  cases r with
  | never => exact hr.elim
  | known a => exact trueOf_after hr (hq hr.formed)
  | unknown => trivial

theorem Survey.trueOf_orElse_left (hr : r.TrueOf ts) : (r.orElse q).TrueOf ts := by
  cases r with
  | never => exact hr.elim
  | known a =>
    cases q with
    | never => exact hr
    | known b => exact Shape.trueOf_meet_left hr
    | unknown => trivial
  | unknown => cases q <;> trivial

theorem Survey.trueOf_orElse_right (hq : q.TrueOf ts) : (r.orElse q).TrueOf ts := by
  cases q with
  | never => exact hq.elim
  | known b =>
    cases r with
    | never => exact hq
    | known a => exact Shape.trueOf_meet_right hq
    | unknown => trivial
  | unknown => cases r <;> trivial

/-- A reading and then the same again, perhaps. -/
theorem Survey.trueOf_again_append (hr : r.TrueOf ts)
    (hq : (∀ t ∈ ts, t.Formed) → us = [] ∨ r.again.TrueOf us) : r.again.TrueOf (ts ++ us) := by
  cases r with
  | never => exact hr
  | unknown => trivial
  | known a =>
    have hq := hq hr.formed
    simp only [again] at hq ⊢
    split
    · rename_i h
      rw [if_pos h] at hq
      obtain ⟨htakes, hclosed⟩ := Bool.and_eq_true .. ▸ h
      rcases hq with rfl | hq
      · rwa [List.append_nil]
      · have happend : a.append a = a := by
          obtain ⟨takes, closed, level⟩ := a
          obtain rfl : takes = true := htakes
          obtain rfl : closed = true := hclosed
          simp [Shape.append]
        exact happend ▸ Shape.trueOf_append hr hq
    · trivial

/-- What a phrase reads becomes a node. -/
theorem Survey.trueOf_enclosed {k : Kind} (hr : r.TrueOf ts) :
    (r.enclosed k).TrueOf [.node k ts] := by
  cases r with
  | never => exact hr
  | unknown => trivial
  | known a =>
    simp only [enclosed]
    split
    · rename_i h
      simp only [Bool.and_eq_true, Bool.or_eq_true, bne_iff_ne] at h
      obtain ⟨⟨⟨⟨hnode, herror⟩, htakes⟩, hclosed⟩, hpower⟩ := h
      have hr : a.TrueOf ts := hr
      have hnode : (Tree.node k ts).Formed :=
        .node hnode herror (hr.takes htakes) (hr.closed hclosed)
          (fun hk => hr.level (hpower.resolve_left (absurd hk))) hr.formed
      exact {
        formed := fun t ht => List.mem_singleton.1 ht ▸ hnode
        takes := fun _ => List.cons_ne_nil _ _
        closed := fun _ => Tree.closed_concat [] rfl
        level := fun hl u hu => hr.level hl u (by simpa using hu) }
    · trivial

/-- A node that adopts what stands in front of it, if neither holds a mark of the layout. -/
theorem formed_adoptOne {k : Kind} {as ds : List Tree} (has : ∀ t ∈ as, t.Formed)
    (h : (Tree.node k ds).Formed) (hlevel : Tree.Level (as ++ ds)) : (Tree.node k (as ++ ds)).Formed := by
  cases h with
  | node hnode herror hne hclosed _ hds =>
    exact .node hnode herror (List.append_ne_nil_of_right_ne_nil as hne)
      (hclosed.append (absurd · hne)) (fun _ => hlevel)
      fun c hc => (List.mem_append.1 hc).elim (has c) (hds c)
  | @suite ws ws' nl ind ded cs _ _ _ _ _ hdedent =>
    have hmark := hlevel ded (by simp)
    rw [hdedent] at hmark
    cases hmark

/-- Trees that some nodes adopt have the shape of all of them together. -/
theorem Shape.trueOf_adoptAll {as bs : List Tree} (h : a.TrueOf (as ++ bs)) (hlevel : a.level = true)
    (hbs : ∀ t ∈ bs, ∃ k cs, t = .node k cs ∧ k.isFlat = false ∧ k ≠ .callTrailer) :
    a.TrueOf (adoptAll as bs) := by
  induction bs generalizing as with
  | nil => rwa [List.append_nil] at h
  | cons b bs ih =>
    obtain ⟨k, ds, rfl, -⟩ := hbs b List.mem_cons_self
    have hleaves : Tree.leavesOf (.node k (as ++ ds) :: bs) = Tree.leavesOf (as ++ .node k ds :: bs) := by
      simp
    have hds := h.level hlevel
    have hnode : (Tree.node k (as ++ ds)).Formed := by
      refine formed_adoptOne (fun t ht => h.formed t (List.mem_append_left _ ht))
        (h.formed _ (List.mem_append_right _ List.mem_cons_self)) fun u hu => hds u ?_
      rw [← hleaves, Tree.leavesOf_cons, Tree.leaves_node]
      exact List.mem_append_left _ hu
    have hrest : a.TrueOf ([.node k (as ++ ds)] ++ bs) := {
      formed := fun t ht => by
        rcases List.mem_cons.1 ht with rfl | ht
        · exact hnode
        · exact h.formed t (List.mem_append_right _ (List.mem_cons_of_mem _ ht))
      takes := fun _ => List.cons_ne_nil _ _
      closed := fun hclosed w hw => by
        cases bs with
        | nil => cases hw
        | cons b bs =>
          refine h.closed hclosed w ?_
          rwa [List.getLast?_append_of_ne_nil _ (List.cons_ne_nil _ _), List.getLast?_cons_cons]
      level := fun _ u hu => hds u (by rwa [← hleaves]) }
    exact ih hrest fun t ht => hbs t (List.mem_cons_of_mem _ ht)

theorem Survey.trueOf_adopted {as bs : List Tree} (hr : r.TrueOf (as ++ bs))
    (hbs : ∀ t ∈ bs, ∃ k cs, t = .node k cs ∧ k.isFlat = false ∧ k ≠ .callTrailer) :
    r.adopted.TrueOf (adoptAll as bs) := by
  cases r with
  | never => exact hr
  | unknown => trivial
  | known a =>
    simp only [adopted]
    split
    · rename_i h
      exact Shape.trueOf_adoptAll hr h hbs
    · trivial

end

/-! ## The survey -/

/-- The rules that read marks of the layout: those of whole lines and of the statements that hold blocks. -/
def lineRules : List Rule :=
  [.file, .statement, .simpleStmt, .ifStmt, .elifClause, .elseClause, .whileStmt, .forStmt, .tryStmt,
   .exceptClause, .finallyClause, .withStmt, .funcDef, .classDef, .decorated, .decorator, .suite]

/-- The kinds of tokens in front of which the grammar calls a rule. The rules that take their first token
whatever it is are called in front of few. -/
def Rule.admits (a : Rule) : KindSet :=
  if rules.contains a then
    match a with
    | .file => .of []
    | .returnStmt => .of [.returnKw]
    | .scopeStmt _ => .of [.globalKw, .nonlocalKw]
    | .delStmt => .of [.delKw]
    | .assertStmt => .of [.assertKw]
    | .execStmt => .of [.ident]
    | .raiseStmt => .of [.raiseKw]
    | .importStmt => .of [.importKw]
    | .importFromStmt => .of [.fromKw]
    | .ifStmt => .of [.ifKw]
    | .elifClause => .of [.elifKw]
    | .whileStmt => .of [.whileKw]
    | .tryStmt => .of [.tryKw]
    | .exceptClause => .of [.exceptKw]
    | .finallyClause => .of [.finallyKw]
    | .classDef => .of [.classKw]
    | .decorated | .decorator => .of [.atSign]
    | .starExpr => .of [.star]
    | .lambdaExpr => .of [.lambdaKw]
    | .trailer => .of [.lParen, .lBracket, .dot]
    | .compIf => .of [.ifKw, .asyncKw]
    | .yieldExpr => .of [.yieldKw]
    | _ => .every
  else .of []

/-- What is certain of the trees that a rule reads. -/
def Rule.shape (a : Rule) : Shape where
  takes :=
    match a with
    | .params .. | .typeHint _ | .elseClause => false
    | _ => true
  closed := true
  level := !lineRules.contains a

/-- What is known of the clean readings of a phrase, and of what comes behind it, in front of two tokens
whose kinds are in two sets. What comes behind it is known for the kinds of the tokens that it leaves. -/
def Phrase.survey : P → KindSet → KindSet → (KindSet → KindSet → Survey) → Survey
  | .done, s, second, behind => behind s second
  | .trivia, s, second, behind => (behind s second).after ⟨false, false, true⟩
  | .next, s, second, behind =>
    if s.within (.every \ .of [.indent, .dedent, .eof]) then
      (behind second .every).after ⟨true, true, s.within (.every \ .of [.newline])⟩
    else .unknown
  | .fault _, _, _, _ => .never
  | .seq p q, s, second, behind => p.survey s second fun s second => q.survey s second behind
  | .adopt p q, s, second, behind =>
    if q.adopting then
      (p.survey s second fun s second => q.survey s second Survey.stop).adopted.andThen
        (behind .every .every)
    else .unknown
  | .branch l p q, s, second, behind =>
    (Survey.ifAny (s ∩ l.may true) (second ∩ l.maySecond true)
      (p.survey (s ∩ l.may true) (second ∩ l.maySecond true) behind)).orElse
    (Survey.ifAny (s ∩ l.may false) (second ∩ l.maySecond false)
      (q.survey (s ∩ l.may false) (second ∩ l.maySecond false) behind))
  | .many l p, s, second, behind =>
    (Survey.ifAny (s ∩ l.may false) (second ∩ l.maySecond false)
      (behind (s ∩ l.may false) (second ∩ l.maySecond false))).orElse
    (Survey.ifAny (s ∩ l.may true) (second ∩ l.maySecond true)
      ((p.survey (l.may true) (l.maySecond true) Survey.stop).again.andThen
        (behind (l.may false) (l.maySecond false))))
  | .enclose k p, s, second, behind =>
    ((p.survey s second Survey.stop).enclosed k).andThen (behind .every .every)
  | .rule a, s, _, behind =>
    if s.within a.admits then (behind .every .every).after a.shape else .unknown

theorem rules_surveyed : rules.all (fun a => a == .file || a == .suite ||
    (grammar a).survey a.admits .every Survey.stop == .known a.shape) = true := by
  decide +kernel

/-- A suite that opens no block is what any other rule is. -/
theorem suite_surveyed : (grammar .suite).survey (.every \ .of [.newline]) .every Survey.stop =
    .known ⟨true, true, false⟩ := by
  decide +kernel

/-- What the grammar calls is one of its rules. -/
theorem Rule.mem_of_admits {a : Rule} {k : Kind} (hk : a.admits.has k = true) : a ∈ rules := by
  unfold admits at hk
  split at hk
  · rename_i h
    simpa using h
  · simp at hk

/-- What is known of a rule is what the survey of its phrase says. -/
theorem Rule.survey_eq {a : Rule} {k : Kind} (hk : a.admits.has k = true) (ha : a ≠ .suite) :
    (grammar a).survey a.admits .every Survey.stop = .known a.shape := by
  have h := List.all_eq_true.1 rules_surveyed a (mem_of_admits hk)
  simp only [Bool.or_eq_true, beq_iff_eq] at h
  rcases h with (rfl | h) | h
  · simp [admits] at hk
  · exact absurd h ha
  · exact h

/-- The phrase is in front of at most so many tokens, which close the open blocks; the next two are of kinds
in two sets. -/
structure Ahead (n : Nat) (s second : KindSet) (ts : List Token) : Prop where
  length : ts.length ≤ n
  closes : ∃ d, Token.Closes d ts
  next : s.has (nextKind ts) = true
  second : second.has (secondKind ts) = true

section
variable {n : Nat} {s second : KindSet} {p : P} {ts us : List Token} {as cs : List Tree}

theorem Ahead.every (h : Ahead n s second ts) : Ahead n .every .every ts :=
  { h with next := KindSet.has_every _, second := KindSet.has_every _ }

/-- The branch that is taken is one that may be. -/
theorem Ahead.look (h : Ahead n s second ts) {l : Look} {b : Bool} (hl : l.holds ts = b) :
    Ahead n (s ∩ l.may b) (second ∩ l.maySecond b) ts ∧
      ∀ r, Survey.ifAny (s ∩ l.may b) (second ∩ l.maySecond b) r = r := by
  have h₁ := has_inter_may h.next hl
  have h₂ := has_inter_maySecond h.second hl
  refine ⟨{ h with next := h₁, second := h₂ }, fun r => ?_⟩
  rw [Survey.ifAny, KindSet.not_isEmpty_of_has h₁, KindSet.not_isEmpty_of_has h₂]
  rfl

theorem Ahead.of_look (h : Ahead n s second ts) {l : Look} {b : Bool} (hl : l.holds ts = b) :
    Ahead n (l.may b) (l.maySecond b) ts :=
  { h with next := hl ▸ l.may_holds ts, second := hl ▸ l.maySecond_holds ts }

/-- Behind what is read, the tokens still close the open blocks. -/
theorem Reads.ahead (h : Reads p ts as us) (hts : Ahead n s second ts) (has : ∀ t ∈ as, t.Formed) :
    Ahead n (p.after s second).1 (p.after s second).2 us := by
  have hleaves := h.leaves_append
  obtain ⟨d, hd⟩ := hts.closes
  rw [← hleaves] at hd
  have hafter := h.has_after hts.next hts.second
  refine ⟨?_, ⟨d, hd.of_append (Tree.nest_of_formed has d)⟩, hafter.1, hafter.2⟩
  have hlength := hts.length
  rw [← hleaves, List.length_append] at hlength
  omega

/-- A phrase is read again and again until its condition does not hold. -/
theorem Reads.not_holds {l : Look} (h : Reads (many l p) ts as us) : l.holds us = false := by
  generalize hq : many l p = q at h
  induction h with
  | stop hl => cases hq; exact hl
  | again _ _ _ _ ih => exact ih hq
  | _ => cases hq

/-- A token that is no mark of a block, with the trivia in front of it. -/
theorem Reads.trueOf_next (h : Reads Phrase.next ts as us) (hts : nextKind ts ≠ .eof)
    (hmark : (nextKind ts).isMark = false) {level : Bool}
    (hlevel : level = true → nextKind ts ≠ .newline) :
    (⟨true, true, level⟩ : Shape).TrueOf as := by
  cases h with
  | next =>
    obtain ⟨t, us, hu, ht⟩ := exists_upcoming_of_nextKind rfl hts
    rw [hu, List.take_succ_cons, List.take_zero]
    refine Shape.trueOf_tokens (fun u hu' => ?_) (fun _ => ?_) (fun _ => by simp) fun hl u hu' => ?_
    · rcases List.mem_append.1 hu' with h | h
      · exact Kind.isMark_of_isTrivia (trivia_of_mem_pending h)
      · rw [List.mem_singleton.1 h, ht]
        exact hmark
    · rw [List.map_append]
      exact Tree.closed_concat _ (not_trivia_of_upcoming hu)
    · rcases List.mem_append.1 hu' with h | h
      · exact Kind.isLayout_of_isTrivia (trivia_of_mem_pending h)
      · rw [List.mem_singleton.1 h, ht]
        exact Kind.not_isLayout_of_not_isMark hmark (hlevel hl)

theorem trueOf_trivia (ts : List Token) :
    (⟨false, false, true⟩ : Shape).TrueOf ((pending ts).map .token) :=
  Shape.trueOf_tokens (fun _ hu => Kind.isMark_of_isTrivia (trivia_of_mem_pending hu))
    (fun h => (Bool.false_ne_true h).elim) (fun h => (Bool.false_ne_true h).elim)
    fun _ _ hu => Kind.isLayout_of_isTrivia (trivia_of_mem_pending hu)

end

/-- What a survey says of a phrase is true of its clean readings and of what comes behind it. Of suites that
open blocks it says nothing, so this is known of them. -/
theorem Reads.trueOf_survey {n : Nat}
    (hsuite : ∀ {ts us : List Token} {as : List Tree}, Reads (.rule .suite) ts as us →
      Ahead n (.of [.newline]) .every ts → (Rule.shape .suite).TrueOf as)
    {p : P} {ts us : List Token} {as : List Tree} (h : Reads p ts as us) :
    (∀ (s second : KindSet) (behind : KindSet → KindSet → Survey) (cs : List Tree),
      Ahead n s second ts →
      ((∀ t ∈ as, t.Formed) → ∀ s' second', Ahead n s' second' us → (behind s' second').TrueOf cs) →
      (p.survey s second behind).TrueOf (as ++ cs)) ∧
    ∀ {l : Look} {q : P}, p = many l q → Ahead n .every .every ts →
      as = [] ∨ (q.survey (l.may true) (l.maySecond true) Survey.stop).again.TrueOf as := by
  -- Of a phrase with nothing behind it, what is known is true of what it reads.
  have hstop {p : P} {as : List Tree} {s second : KindSet}
      (h : (p.survey s second Survey.stop).TrueOf (as ++ [])) :
      (p.survey s second Survey.stop).TrueOf as := by
    rwa [List.append_nil] at h
  have hnil {us : List Token} {as : List Tree} : (∀ t ∈ as, t.Formed) →
      ∀ s' second', Ahead n s' second' us → (Survey.stop s' second').TrueOf [] :=
    fun _ _ _ _ => Shape.trueOf_nothing
  induction h with
  | done => exact ⟨fun _ _ _ _ hts hcs => hcs (List.forall_mem_nil _) _ _ hts, by rintro - - ⟨⟩⟩
  | seq hp hq ihp ihq =>
    refine ⟨fun _ _ _ _ hts hcs => ?_, by rintro - - ⟨⟩⟩
    rw [List.append_assoc]
    exact ihp.1 _ _ _ _ hts fun has _ _ hus => ihq.1 _ _ _ _ hus fun hbs _ _ hvs =>
      hcs (fun t ht => (List.mem_append.1 ht).elim (has t) (hbs t)) _ _ hvs
  | @adopt p q ts us vs as bs hp hq ihp ihq =>
    refine ⟨fun s second _ _ hts hcs => ?_, by rintro - - ⟨⟩⟩
    simp only [survey]
    split
    · rename_i hadopting
      have hknown : (p.survey s second fun s second => q.survey s second Survey.stop).TrueOf
          (as ++ bs) := ihp.1 _ _ _ _ hts fun _ _ _ hus => hstop (ihq.1 _ _ _ _ hus hnil)
      exact Survey.trueOf_andThen (Survey.trueOf_adopted hknown (hq.makes.nodes_of_adopting hadopting))
        fun hformed => hcs hformed _ _ ((Reads.adopt hp hq).ahead hts hformed)
    · trivial
  | @trivia ts =>
    have htrivia := trueOf_trivia ts
    exact ⟨fun _ _ _ _ hts hcs => Survey.trueOf_after htrivia
      (hcs htrivia.formed _ _ (Reads.trivia.ahead hts htrivia.formed)), by rintro - - ⟨⟩⟩
  | @next ts =>
    refine ⟨fun s _ _ _ hts hcs => ?_, by rintro - - ⟨⟩⟩
    have hline (hs : s.within (.every \ .of [.newline]) = true) : nextKind ts ≠ .newline := by
      intro h
      have hk := KindSet.has_of_within hs hts.next
      rw [h] at hk
      cases hk
    simp only [survey]
    split
    · rename_i hs
      have hk := KindSet.has_of_within hs hts.next
      simp only [KindSet.has_diff, KindSet.has_every, KindSet.has_of, Bool.true_and,
        Bool.not_eq_true'] at hk
      have hreads : Reads Phrase.next ts _ _ := .next
      have hnext := hreads.trueOf_next (fun h => by rw [h] at hk; cases hk)
        (by revert hk; cases nextKind ts <;> decide) hline
      exact Survey.trueOf_after hnext (hcs hnext.formed _ _ (Reads.next.ahead hts hnext.formed))
    · trivial
  | left hl _ ih =>
    refine ⟨fun _ _ _ _ hts hcs => ?_, by rintro - - ⟨⟩⟩
    obtain ⟨hts', hany⟩ := hts.look hl
    simp only [survey, hany]
    exact Survey.trueOf_orElse_left (ih.1 _ _ _ _ hts' hcs)
  | right hl _ ih =>
    refine ⟨fun _ _ _ _ hts hcs => ?_, by rintro - - ⟨⟩⟩
    obtain ⟨hts', hany⟩ := hts.look hl
    simp only [survey, hany]
    exact Survey.trueOf_orElse_right (ih.1 _ _ _ _ hts' hcs)
  | stop hl =>
    refine ⟨fun _ _ _ _ hts hcs => ?_, fun _ _ => .inl rfl⟩
    obtain ⟨hts', hany⟩ := hts.look hl
    simp only [survey, hany]
    exact Survey.trueOf_orElse_left (hcs (List.forall_mem_nil _) _ _ hts')
  | @again l p ts us vs as bs hl hp hm ihp ihm =>
    -- What is read once is known, and so is what is read after that.
    have hmany {s second : KindSet} (hts : Ahead n s second ts) :
        (p.survey (l.may true) (l.maySecond true) Survey.stop).again.TrueOf (as ++ bs) :=
      Survey.trueOf_again_append (hstop (ihp.1 _ _ _ _ (hts.of_look hl) hnil)) fun has =>
        ihm.2 rfl (hp.ahead hts.every has).every
    refine ⟨fun s second _ _ hts hcs => ?_, fun hq hts => ?_⟩
    · obtain ⟨-, hany⟩ := hts.look hl
      simp only [survey, hany]
      refine Survey.trueOf_orElse_right (Survey.trueOf_andThen (hmany hts) fun hformed => ?_)
      have hm' := Reads.again hl hp hm
      exact hcs hformed _ _ ((hm'.ahead hts hformed).of_look hm'.not_holds)
    · cases hq
      exact .inr (hmany hts)
  | @enclose k p ts us as hp ih =>
    refine ⟨fun s second _ _ hts hcs => ?_, by rintro - - ⟨⟩⟩
    exact Survey.trueOf_andThen (Survey.trueOf_enclosed (hstop (ih.1 _ _ _ _ hts hnil)))
      fun hformed => hcs hformed _ _ ((Reads.enclose hp).ahead hts hformed)
  | @rule a ts us as h ih =>
    refine ⟨fun s second _ _ hts hcs => ?_, by rintro - - ⟨⟩⟩
    simp only [survey]
    split
    · rename_i hs
      have hk := KindSet.has_of_within hs hts.next
      have hshape : a.shape.TrueOf as := by
        by_cases ha : a = .suite
        · subst ha
          by_cases hnewline : nextKind ts = .newline
          · exact hsuite (.rule h) { hts with next := by simp [hnewline], second := KindSet.has_every _ }
          · have hknown := hstop (ih.1 (.every \ .of [.newline]) .every Survey.stop []
              { hts with next := by simp [hnewline], second := KindSet.has_every _ } hnil)
            rw [suite_surveyed] at hknown
            exact { hknown with level := fun h => (Bool.false_ne_true h).elim }
        · have hknown := hstop (ih.1 a.admits .every Survey.stop []
            { hts with next := hk, second := KindSet.has_every _ } hnil)
          rwa [Rule.survey_eq hk ha] at hknown
      exact Survey.trueOf_after hshape
        (hcs hshape.formed _ _ ((Reads.rule h).ahead hts hshape.formed))
    · trivial

end Grammar

end Renumber
