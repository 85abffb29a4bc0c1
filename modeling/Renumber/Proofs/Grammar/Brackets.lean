import Renumber.Proofs.Grammar.Survey
import Renumber.Proofs.Layout.Nested

/-!
# Brackets among siblings

A rule that takes an opening bracket takes the one that closes it into the same node. So of the tree of a source
without problems every node holds tokens whose brackets are nested by themselves (`Tree.Bracketed`,
`bracketed_parse`). `Phrase.account` goes through a phrase with the kinds that the next two tokens may have and
the brackets that are still to be closed in the node that is open, and says which ones are when the phrase has
been read cleanly. The grammar is checked once for leaving none of its own (`rules_bracketed`).
-/

namespace Renumber

namespace Token

theorem awaited_of_trivia {ts : List Token} (h : ∀ t ∈ ts, t.kind.isTrivia = true) (st : List Kind) :
    awaited st ts = some st := by
  induction ts with
  | nil => rfl
  | cons t ts ih =>
    have ht : t.kind.awaited st = some st := by
      have htriv := h t List.mem_cons_self
      refine Kind.awaited_of_neither ?_ ?_ st <;> revert htriv <;> cases t.kind <;> decide
    rw [awaited, ht]
    exact ih fun u hu => h u (List.mem_cons_of_mem t hu)

theorem Nested.append {ts us : List Token} (hts : Nested ts) (hus : Nested us) : Nested (ts ++ us) := by
  rw [nested_iff, awaited_append, hts.awaited]
  exact hus.awaited []

end Token

namespace Tree

/-- The tokens among some trees, those inside nodes left out. -/
def own (ts : List Tree) : List Token :=
  ts.filterMap fun
    | token t => some t
    | node .. => none

@[simp] theorem own_nil : own [] = [] := rfl
@[simp] theorem own_cons_token (t : Token) (ts : List Tree) : own (token t :: ts) = t :: own ts := rfl
@[simp] theorem own_cons_node (k : Kind) (cs ts : List Tree) : own (node k cs :: ts) = own ts := rfl
@[simp] theorem own_append (ts us : List Tree) : own (ts ++ us) = own ts ++ own us :=
  List.filterMap_append

@[simp] theorem own_map_token (ts : List Token) : own (ts.map token) = ts := by
  induction ts with
  | nil => rfl
  | cons t ts ih => rw [List.map_cons, own_cons_token, ih]

/-- In every node of the tree the brackets among the children are nested. -/
inductive Bracketed : Tree → Prop
  | token (t : Token) : Bracketed (token t)
  | node {k : Kind} {cs : List Tree} (hown : Token.Nested (own cs)) (hcs : ∀ c ∈ cs, Bracketed c) :
      Bracketed (node k cs)

/-- Nodes whose tokens are nested do not change which brackets are awaited beside them. -/
theorem awaited_leavesOf {ts : List Tree}
    (h : ∀ t ∈ ts, t.isNode = true → ∀ st, Token.awaited st t.leaves = some st) (st : List Kind) :
    Token.awaited st (leavesOf ts) = Token.awaited st (own ts) := by
  induction ts generalizing st with
  | nil => rw [leavesOf_nil, own_nil]
  | cons t ts ih =>
    have ih := ih fun u hu => h u (List.mem_cons_of_mem t hu)
    rw [leavesOf_cons, Token.awaited_append]
    cases t with
    | token t =>
      rw [leaves_token, own_cons_token, Token.awaited, Token.awaited, Option.bind_assoc]
      congr 1
      funext e
      exact ih e
    | node k cs =>
      rw [h _ List.mem_cons_self rfl, own_cons_node]
      exact ih st

/-- The brackets of such a tree are nested. -/
theorem Bracketed.awaited {t : Tree} (h : t.Bracketed) (ht : t.isNode = true) (st : List Kind) :
    Token.awaited st t.leaves = some st := by
  induction h generalizing st with
  | token => cases ht
  | node hown _ ih =>
    rw [leaves_node, awaited_leavesOf fun c hc hnode => ih c hc hnode]
    exact hown.awaited st

/-- The brackets of such trees are nested if those beside the nodes are. -/
theorem nested_leavesOf {ts : List Tree} (h : ∀ t ∈ ts, t.Bracketed) (hown : Token.Nested (own ts)) :
    Token.Nested (leavesOf ts) := by
  rw [Token.nested_iff, awaited_leavesOf fun t ht hnode => (h t ht).awaited hnode]
  exact hown.awaited []

/-- The elements of such a tree are such trees. -/
theorem Bracketed.of_at? {t u : Tree} (h : t.Bracketed) {p : List Nat} (hu : at? p t = some u) :
    u.Bracketed := by
  induction h generalizing p with
  | token t =>
    cases p with
    | nil =>
      obtain rfl := Option.some.inj hu
      exact .token t
    | cons i p => cases hu
  | @node k cs hown hcs ih =>
    cases p with
    | nil =>
      obtain rfl := Option.some.inj hu
      exact .node hown hcs
    | cons i p =>
      rw [at?, Option.bind_eq_some_iff] at hu
      obtain ⟨c, hc, hu⟩ := hu
      exact ih c (List.mem_of_getElem? hc) hu

end Tree

/-- The brackets that are awaited behind a token whose kind is in a set, if they are the same for all of
them. -/
def KindSet.awaited (s : KindSet) (st : List Kind) : Option (List Kind) :=
  match (Kind.openers ++ Kind.closers).find? fun k => s.within (.of [k]) with
  | some k => k.awaited st
  | none => if s.within (.every \ .of (Kind.openers ++ Kind.closers)) then some st else none

theorem KindSet.awaited_of_has {s : KindSet} {st e : List Kind} (h : s.awaited st = some e) {k : Kind}
    (hk : s.has k = true) : k.awaited st = some e := by
  unfold awaited at h
  split at h
  · rename_i j hj
    have := has_of_within (List.find?_some (p := fun k => s.within (.of [k])) hj) hk
    rw [has_of, List.contains_iff_mem, List.mem_singleton] at this
    rwa [this]
  · split at h
    · rename_i hs
      have := has_of_within hs hk
      simp only [has_diff, has_every, has_of, Bool.true_and, Bool.not_eq_true'] at this
      have hnot : k ∉ Kind.openers ++ Kind.closers := by simpa using this
      rw [List.mem_append, not_or] at hnot
      rw [Kind.awaited_of_neither hnot.1 hnot.2]
      exact h
    · cases h

namespace Grammar

open Phrase

/-! ## What is awaited -/

/-- What is known of the brackets of the clean readings of a phrase. -/
inductive Account where
  /-- There are none. -/
  | never
  /-- Behind all of them these brackets are awaited. -/
  | leaves (st : List Kind)
  | unknown
deriving DecidableEq

/-- What is known is true of some trees that are read while some brackets are awaited. -/
def Account.TrueOf (st : List Kind) (ts : List Tree) : Account → Prop
  | never => False
  | leaves e => (∀ t ∈ ts, t.Bracketed) ∧ Token.awaited st (Tree.own ts) = some e
  | unknown => True

/-- One reading and then another. -/
def Account.andThen : Account → (List Kind → Account) → Account
  | leaves e, f => f e
  | r, _ => r

/-- One reading or another. -/
def Account.orElse : Account → Account → Account
  | never, r => r
  | r, never => r
  | leaves e, leaves f => if e = f then leaves e else unknown
  | _, _ => unknown

/-- A reading as often as it goes. -/
def Account.repeated (st : List Kind) : Account → Account
  | never => leaves st
  | leaves e => if e = st then leaves st else unknown
  | unknown => unknown

/-- A reading that closes all that it opens, while some brackets are awaited around it. -/
def Account.closed (st : List Kind) : Account → Account
  | leaves e => if e = [] then leaves st else unknown
  | r => r

section
variable {r q : Account} {st : List Kind} {ts us : List Tree}

theorem Account.trueOf_andThen {f : List Kind → Account} (hr : r.TrueOf st ts)
    (hf : ∀ e, (f e).TrueOf e us) : (r.andThen f).TrueOf st (ts ++ us) := by
  cases r with
  | never => exact hr
  | unknown => trivial
  | leaves e =>
    have hfe := hf e
    simp only [andThen]
    cases hq : f e with
    | never =>
      rw [hq] at hfe
      exact hfe
    | unknown => trivial
    | leaves g =>
      rw [hq] at hfe
      refine ⟨List.forall_mem_append.2 ⟨hr.1, hfe.1⟩, ?_⟩
      rw [Tree.own_append, Token.awaited_append, hr.2]
      exact hfe.2

theorem Account.trueOf_orElse_left (hr : r.TrueOf st ts) : (r.orElse q).TrueOf st ts := by
  cases r with
  | never => exact hr.elim
  | unknown => cases q <;> trivial
  | leaves e =>
    cases q with
    | never => exact hr
    | unknown => trivial
    | leaves f =>
      simp only [orElse]
      split
      · exact hr
      · trivial

theorem Account.trueOf_orElse_right (hq : q.TrueOf st ts) : (r.orElse q).TrueOf st ts := by
  cases q with
  | never => exact hq.elim
  | unknown => cases r <;> trivial
  | leaves f =>
    cases r with
    | never => exact hq
    | unknown => trivial
    | leaves e =>
      simp only [orElse]
      split
      · rename_i h
        exact h ▸ hq
      · trivial

theorem Account.trueOf_repeated_nil (r : Account) (st : List Kind) : (r.repeated st).TrueOf st [] := by
  have hnil : (leaves st).TrueOf st [] := ⟨List.forall_mem_nil _, rfl⟩
  cases r with
  | never => exact hnil
  | unknown => trivial
  | leaves e =>
    simp only [repeated]
    split
    · exact hnil
    · trivial

theorem Account.trueOf_repeated_append (hr : r.TrueOf st ts) (h : (r.repeated st).TrueOf st us) :
    (r.repeated st).TrueOf st (ts ++ us) := by
  cases r with
  | never => exact hr.elim
  | unknown => trivial
  | leaves e =>
    simp only [repeated] at h ⊢
    split
    · rename_i he
      subst he
      rw [if_pos rfl] at h
      refine ⟨List.forall_mem_append.2 ⟨hr.1, h.1⟩, ?_⟩
      rw [Tree.own_append, Token.awaited_append, hr.2]
      exact h.2
    · trivial

/-- What closes all that it opens does so inside anything. -/
theorem Account.trueOf_closed (hr : r.TrueOf [] ts) (st : List Kind) : (r.closed st).TrueOf st ts := by
  cases r with
  | never => exact hr
  | unknown => trivial
  | leaves e =>
    simp only [closed]
    split
    · rename_i he
      subst he
      exact ⟨hr.1, Token.awaited_append_outer hr.2 st⟩
    · trivial

/-- What a phrase reads becomes a node. -/
theorem Account.trueOf_enclosed {k : Kind} (hr : r.TrueOf [] ts) (st : List Kind) :
    (r.closed st).TrueOf st [.node k ts] := by
  cases r with
  | never => exact hr
  | unknown => trivial
  | leaves e =>
    simp only [closed]
    split
    · rename_i he
      subst he
      exact ⟨List.forall_mem_singleton.2 (.node (Token.nested_iff.2 hr.2) hr.1), rfl⟩
    · trivial

/-- What nodes adopt stays nested beside what they hold. -/
theorem bracketed_adoptAll {as bs : List Tree} (has : ∀ t ∈ as, t.Bracketed)
    (hown : Token.Nested (Tree.own as)) (hbs : ∀ t ∈ bs, t.Bracketed ∧ t.isNode = true) :
    (∀ t ∈ adoptAll as bs, t.Bracketed) ∧ Token.Nested (Tree.own (adoptAll as bs)) := by
  induction bs generalizing as with
  | nil => exact ⟨has, hown⟩
  | cons b bs ih =>
    obtain ⟨hb, hnode⟩ := hbs b List.mem_cons_self
    cases hb with
    | token => cases hnode
    | @node k ds hds hcs =>
      have hadopted : (Tree.node k (as ++ ds)).Bracketed :=
        .node (by rw [Tree.own_append]; exact hown.append hds) (List.forall_mem_append.2 ⟨has, hcs⟩)
      exact ih (List.forall_mem_singleton.2 hadopted) .nil fun t ht => hbs t (List.mem_cons_of_mem _ ht)

theorem Account.trueOf_adopted {f : List Kind → Account} {as bs : List Tree} (hr : r.TrueOf [] as)
    (hf : ∀ e, (f e).TrueOf e bs) (hbs : ∀ t ∈ bs, t.isNode = true) (st : List Kind) :
    (((r.closed []).andThen f).closed st).TrueOf st (adoptAll as bs) := by
  cases r with
  | never => exact hr
  | unknown => trivial
  | leaves d =>
    by_cases hd : d = []
    · subst hd
      show ((f []).closed st).TrueOf st (adoptAll as bs)
      have hq := hf []
      cases hfe : f [] with
      | never =>
        rw [hfe] at hq
        exact hq
      | unknown => trivial
      | leaves e =>
        rw [hfe] at hq
        simp only [closed]
        split
        · obtain ⟨hall, hnested⟩ := bracketed_adoptAll hr.1 (Token.nested_iff.2 hr.2)
            fun t ht => ⟨hq.1 t ht, hbs t ht⟩
          exact ⟨hall, hnested.awaited st⟩
        · trivial
    · rw [show (leaves d).closed [] = unknown from if_neg hd]
      trivial

end

/-! ## The account -/

/-- What is known when the next token has a kind of one set and the one after it of another. -/
def Account.ifAny (s second : KindSet) (r : Account) : Account :=
  if s.isEmpty || second.isEmpty then never else r

/-- What is known of the clean readings of a phrase while some brackets are awaited in the node that is open, in
front of two tokens whose kinds are in two sets. -/
def Phrase.account : P → KindSet → KindSet → List Kind → Account
  | .done, _, _, st | .trivia, _, _, st => .leaves st
  | .next, s, _, st =>
    match s.awaited st with
    | some e => .leaves e
    | none => .unknown
  | .fault _, _, _, _ => .never
  | .seq p q, s, second, st =>
    (p.account s second st).andThen (q.account (p.after s second).1 (p.after s second).2)
  | .adopt p q, s, second, st =>
    if q.adopting then
      (((p.account s second []).closed []).andThen
        (q.account (p.after s second).1 (p.after s second).2)).closed st
    else .unknown
  | .branch l p q, s, second, st =>
    (Account.ifAny (s ∩ l.may true) (second ∩ l.maySecond true)
      (p.account (s ∩ l.may true) (second ∩ l.maySecond true) st)).orElse
    (Account.ifAny (s ∩ l.may false) (second ∩ l.maySecond false)
      (q.account (s ∩ l.may false) (second ∩ l.maySecond false) st))
  | .many l p, _, _, st => (p.account (l.may true) (l.maySecond true) st).repeated st
  | .enclose _ p, s, second, st => (p.account s second []).closed st
  | .rule a, s, _, st => if s.within a.admits then .leaves st else .unknown

/-- Every rule closes the brackets that it opens, in the same node. -/
theorem rules_bracketed : rules.all (fun a =>
    (grammar a).account (if a == .file then .every else a.admits) .every [] == .leaves []) = true := by
  decide +kernel

/-- What is known of a rule is what its phrase says. -/
theorem Rule.account_eq {a : Rule} {k : Kind} (hk : a.admits.has k = true) :
    (grammar a).account a.admits .every [] = .leaves [] := by
  have h := List.all_eq_true.1 rules_bracketed a (mem_of_admits hk)
  rw [beq_iff_eq] at h
  rwa [if_neg] at h
  rw [beq_iff_eq]
  rintro rfl
  simp [admits] at hk

section
variable {p : P} {ts us : List Token} {as : List Tree}

/-- The token that a phrase takes decides which brackets are awaited. -/
theorem account_next {s : KindSet} (hs : s.has (nextKind ts) = true) (st : List Kind)
    {second : KindSet} :
    (next.account s second st).TrueOf st ((pending ts ++ (upcoming ts).take 1).map .token) := by
  simp only [account]
  split
  · rename_i e he
    have hk := KindSet.awaited_of_has he hs
    refine ⟨fun t ht => ?_, ?_⟩
    · obtain ⟨u, -, rfl⟩ := List.mem_map.1 ht
      exact .token u
    rw [Tree.own_map_token, Token.awaited_append,
      Token.awaited_of_trivia (fun w hw => trivia_of_mem_pending hw), Option.bind_some]
    cases hu : upcoming ts with
    | nil =>
      rw [nextKind, hu] at hk
      exact hk
    | cons t us =>
      rw [nextKind_of_upcoming hu] at hk
      rw [List.take_succ_cons, List.take_zero, Token.awaited, hk]
      rfl
  · trivial

/-- What is known of a phrase is true of its clean readings. -/
theorem Reads.trueOf_account (h : Reads p ts as us) {s second : KindSet}
    (hs : s.has (nextKind ts) = true) (hsecond : second.has (secondKind ts) = true) (st : List Kind) :
    (p.account s second st).TrueOf st as := by
  -- The branch that is taken is one that may be.
  have hmay {l : Look} {b : Bool} {ts : List Token} {s second : KindSet} {r : Account}
      (hl : l.holds ts = b) (hs : s.has (nextKind ts) = true)
      (hsecond : second.has (secondKind ts) = true) :
      (s ∩ l.may b).has (nextKind ts) = true ∧
        (second ∩ l.maySecond b).has (secondKind ts) = true ∧
        Account.ifAny (s ∩ l.may b) (second ∩ l.maySecond b) r = r := by
    have h₁ := has_inter_may hs hl
    have h₂ := has_inter_maySecond hsecond hl
    refine ⟨h₁, h₂, ?_⟩
    rw [Account.ifAny, KindSet.not_isEmpty_of_has h₁, KindSet.not_isEmpty_of_has h₂]
    rfl
  induction h generalizing s second st with
  | done => exact ⟨List.forall_mem_nil _, rfl⟩
  | trivia =>
    refine ⟨fun t ht => ?_, ?_⟩
    · obtain ⟨u, -, rfl⟩ := List.mem_map.1 ht
      exact .token u
    · rw [Tree.own_map_token]
      exact Token.awaited_of_trivia (fun w hw => trivia_of_mem_pending hw) st
  | next => exact account_next hs st
  | seq hp hq ihp ihq =>
    have hafter := hp.has_after hs hsecond
    exact Account.trueOf_andThen (ihp hs hsecond st) fun e => ihq hafter.1 hafter.2 e
  | adopt hp hq ihp ihq =>
    have hafter := hp.has_after hs hsecond
    simp only [account]
    split
    · rename_i hadopting
      refine Account.trueOf_adopted (ihp hs hsecond []) (fun e => ihq hafter.1 hafter.2 e) (fun t ht => ?_) st
      obtain ⟨k, cs, rfl, -⟩ := hq.makes.nodes_of_adopting hadopting t ht
      rfl
    · trivial
  | left hl _ ih =>
    obtain ⟨h₁, h₂, h₃⟩ := hmay hl hs hsecond
    simp only [account]
    rw [h₃]
    exact Account.trueOf_orElse_left (ih h₁ h₂ st)
  | right hl _ ih =>
    obtain ⟨h₁, h₂, h₃⟩ := hmay hl hs hsecond
    simp only [account]
    rw [h₃]
    exact Account.trueOf_orElse_right (ih h₁ h₂ st)
  | stop hl => exact Account.trueOf_repeated_nil _ st
  | @again l p ts us vs as bs hl hp hm ihp ihm =>
    have h₁ := l.may_holds ts
    have h₂ := l.maySecond_holds ts
    rw [hl] at h₁ h₂
    exact Account.trueOf_repeated_append (ihp h₁ h₂ st)
      (ihm (KindSet.has_every _) (KindSet.has_every _) st)
  | enclose _ ih => exact Account.trueOf_enclosed (ih hs hsecond []) st
  | @rule a ts us as _ ih =>
    simp only [account]
    split
    · rename_i hadmits
      have hk := KindSet.has_of_within hadmits hs
      have hclosed := Account.trueOf_closed (ih hk (KindSet.has_every _) []) st
      rwa [Rule.account_eq hk] at hclosed
    · trivial

end

/-- The trees of a file that is read cleanly are bracketed, and so are the tokens beside them. -/
theorem bracketed_file {ts us : List Token} {as : List Tree} (h : Reads (.rule .file) ts as us) :
    (∀ t ∈ as, t.Bracketed) ∧ Token.Nested (Tree.own as) := by
  cases h with
  | rule h =>
    have hknown := h.trueOf_account (KindSet.has_every _) (KindSet.has_every _) []
    have hfile := List.all_eq_true.1 rules_bracketed .file (by decide)
    rw [beq_iff_eq] at hfile
    rw [show (grammar .file).account .every .every [] = .leaves [] from hfile] at hknown
    exact ⟨hknown.1, Token.nested_iff.2 hknown.2⟩

end Grammar

/-- In the tree of a source without problems the brackets among the children of every node are nested. -/
theorem bracketed_parse {source : String} (h : (parse source).errors = []) :
    (parse source).tree.Bracketed := by
  obtain ⟨htrees, hown⟩ := Grammar.bracketed_file (Grammar.reads_readFile (errors_parse_eq_nil_iff.1 h).2)
  exact .node hown htrees

end Renumber
