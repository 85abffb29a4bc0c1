import Renumber.Proofs.Grammar.Argument
import Renumber.Proofs.Grammar.Expression

/-!
# Reading by precedence

The grammar has one rule for each level of operators (`ofLevel`), and each reads its operands by the rule of
the next tighter level. So what the rule of a level reads hangs on the token behind it only: it stops in front
of an operator that is looser (`Kind.tightness`). This is said of tokens and the tree that they are read as
(`ReadsAs`), and it is carried from each level to the looser ones (`ReadsAs.loosen`).

Operators that group to the left need more than that. Their left operand has no reading of its own: the rule
reads the first operand and then goes on, one operator after another, and what is in front becomes a part of
each. `Grows` says of some tokens that such a reading comes past them and can go on. More operators
(`Chained.append`) or more trailers (`Primary.append`) are then appended at the end, which is where the
expressions grow, too.
-/

namespace Renumber

/-- How tightly a token holds on to the operand in front of it: one more than the level of its operator, and
nothing at all if no expression goes on with it. -/
def Kind.tightness : Kind → Nat
  | .ifKw => 1
  | .orKw => 2
  | .andKw => 3
  | .lt | .gt | .eqEq | .gtEq | .ltEq | .ltGt | .notEq | .inKw | .isKw | .notKw => 5
  | .pipe => 6
  | .caret => 7
  | .amp => 8
  | .shl | .shr => 9
  | .plus | .minus => 10
  | .star | .slash | .percent | .doubleSlash | .atSign => 11
  | .doubleStar => 13
  | .lParen | .lBracket | .dot => 14
  | .str => 15
  | _ => 0

/-- No operator between two operands binds as tightly as a sign. -/
theorem Kind.tightness_ne (k : Kind) : k.tightness ≠ 12 := by
  unfold tightness
  split <;> decide

namespace Grammar

open Phrase

/-! ## What comes first -/

/-- The kinds of tokens that expressions of a level start with. -/
def starters (m : Nat) : List Kind :=
  [.ident, .number, .str, .lParen] ++ (if m ≤ 11 then [.plus, .minus, .tilde] else []) ++
    if m ≤ 3 then [.notKw] else []

/-- The kinds of tokens that make the word `exec` in front of them a statement. -/
def execOperands : List Kind :=
  [.ident, .number, .str, .lBrace, .backquote, .noneKw, .trueKw, .falseKw, .lambdaKw]

/-- The tokens may come behind any name. -/
def Beside (ts : List Token) : Prop :=
  ∀ t ∈ ts.head?, t.kind.isTrivia = false ∧ t.kind ∉ execOperands

theorem Beside.cons {t : Token} (ht : t.kind.isTrivia = false ∧ t.kind ∉ execOperands)
    (ts : List Token) : Beside (t :: ts) := by
  rintro u ⟨⟩
  exact ht

/-- The tokens start like an expression of a level, and not like the statement `exec`. -/
def Starts (m : Nat) (ts : List Token) : Prop :=
  ∃ t us, ts = t :: us ∧ t.kind ∈ starters m ∧ (t.kind = .ident → Beside us)

theorem starters_subset {k m : Nat} (hk : k ≤ m) : starters m ⊆ starters k := by
  intro j hj
  simp only [starters, List.mem_append] at hj ⊢
  rcases hj with (hj | hj) | hj
  · exact .inl (.inl hj)
  · split at hj
    · exact .inl (.inr (by rwa [if_pos (by omega)]))
    · cases hj
  · split at hj
    · exact .inr (by rwa [if_pos (by omega)])
    · cases hj

theorem starters_not_trivia {m : Nat} {k : Kind} (hk : k ∈ starters m) : k.isTrivia = false :=
  (by decide : ∀ k ∈ starters 0, k.isTrivia = false) k (starters_subset (Nat.zero_le m) hk)

section
variable {k m : Nat} {ts us : List Token}

/-- A looser expression may start like a tighter one. -/
theorem Starts.loosen (h : Starts m ts) (hk : k ≤ m) : Starts k ts := by
  obtain ⟨t, us, rfl, ht, hexec⟩ := h
  exact ⟨t, us, rfl, starters_subset hk ht, hexec⟩

theorem Starts.append (h : Starts m ts) (hus : Beside us) : Starts m (ts ++ us) := by
  obtain ⟨t, vs, rfl, ht, hexec⟩ := h
  refine ⟨t, vs ++ us, rfl, ht, fun hk => ?_⟩
  cases vs with
  | nil => exact hus
  | cons v vs => exact .cons (hexec hk v rfl) _

theorem Starts.nextKind_mem (h : Starts m ts) (us : List Token) :
    nextKind (ts ++ us) ∈ starters m := by
  obtain ⟨t, vs, rfl, ht, -⟩ := h
  rwa [List.cons_append, nextKind_cons (starters_not_trivia ht)]

theorem Starts.pending_append (h : Starts m ts) (us : List Token) : pending (ts ++ us) = [] := by
  obtain ⟨t, vs, rfl, ht, -⟩ := h
  rw [← upcoming_eq_self_iff, List.cons_append,
    upcoming_cons_of_not_trivia (starters_not_trivia ht)]

/-- What a condition says about every token that can come first holds of the one that does. -/
theorem Starts.holds (h : Starts m ts) (us : List Token) {l : Look} {b : Bool}
    (hl : ∀ k ∈ starters m, (l.may !b).has k = false) : l.holds (ts ++ us) = b :=
  Look.holds_of_nextKind rfl (hl _ (h.nextKind_mem us))

/-- No statement `exec` starts like an expression. -/
theorem Starts.not_exec (h : Starts m ts) : atExec.holds ts = false := by
  obtain ⟨t, us, rfl, ht, hexec⟩ := h
  have htriv := starters_not_trivia ht
  by_cases hk : t.kind = .ident
  · have hsecond : (Look.second execOperands).holds (t :: us) = false := by
      rw [Look.holds, secondKind, upcoming_cons_of_not_trivia htriv, List.drop_one, List.tail_cons]
      cases us with
      | nil => decide
      | cons u us =>
        obtain ⟨hu, hmem⟩ := hexec hk u rfl
        rw [nextKind_cons hu]
        simpa using hmem
    show ((is .ident).holds _ && ((Look.text "exec").holds _ &&
      (Look.second execOperands).holds (t :: us))) = false
    rw [hsecond, Bool.and_false, Bool.and_false]
  · have hnext : (is .ident).holds (t :: us) = false := by
      rw [is, Look.holds, nextKind_cons htriv]
      simpa using hk
    show ((is .ident).holds (t :: us) && _) = false
    rw [hnext, Bool.false_and]

end

/-! ## What comes behind -/

/-- The kinds of tokens that hold on more tightly than at a level. -/
def tighter (m : Nat) : KindSet := .of (Kind.all.filter fun k => m < k.tightness)

/-- A condition fails in front of a token that is too loose for it. -/
theorem Look.not_holds_of_tightness {l : Look} {m : Nat} {us : List Token}
    (hus : (nextKind us).tightness ≤ m) (hl : (l.may true).within (tighter m) = true) :
    l.holds us = false := by
  rw [← Bool.not_eq_true]
  intro h
  have hmay := l.may_holds us
  rw [h] at hmay
  have htight := KindSet.has_of_within hl hmay
  rw [tighter, KindSet.has_of, List.contains_iff_mem, List.mem_filter, decide_eq_true_eq] at htight
  exact absurd htight.2 (Nat.not_lt.2 hus)

/-! ## The levels of the grammar -/

/-- The rule for the expressions of a level and tighter ones. -/
def ofLevel : Nat → Rule
  | 0 => .test
  | 1 => .orTest
  | 2 => .andTest
  | 3 => .notTest
  | 4 => .comparison
  | 5 => .bitOr
  | 6 => .bitXor
  | 7 => .bitAnd
  | 8 => .shift
  | 9 => .arith
  | 10 => .term
  | 11 => .factor
  | _ => .power

/-- The levels of the operators that group to the left. -/
def chainLevels : List Nat := [1, 2, 4, 5, 6, 7, 8, 9, 10]

/-- An operator of a level comes next. -/
def operatorNext : Nat → Look
  | 1 => .next [.orKw]
  | 2 => .next [.andKw]
  | 4 => .either (.next [.lt, .gt, .eqEq, .gtEq, .ltEq, .ltGt, .notEq, .inKw, .isKw])
      (pair .notKw .inKw)
  | 5 => .next [.pipe]
  | 6 => .next [.caret]
  | 7 => .next [.amp]
  | 8 => .next [.shl, .shr]
  | 9 => .next [.plus, .minus]
  | _ => .next [.star, .slash, .percent, .doubleSlash, .atSign]

/-- The tokens of an operator of a level. -/
def operatorTokens (m : Nat) : P :=
  if m = 4 then
    branch (.either (pair .isKw .notKw) (pair .notKw .inKw)) (seq next next) next
  else next

/-- An operator of a level and its right operand. -/
def link (m : Nat) : P :=
  enclose (levelNode m) (seq (operatorTokens m) (rule (ofLevel (m + 1))))

/-- The rules of these levels are all built in one way. -/
theorem grammar_ofLevel {m : Nat} (hm : m ∈ chainLevels) : grammar (ofLevel m) =
    seq trivia (adopt (rule (ofLevel (m + 1))) (many (operatorNext m) (link m))) := by
  simp only [chainLevels, List.mem_cons, List.not_mem_nil, or_false] at hm
  rcases hm with rfl | rfl | rfl | rfl | rfl | rfl | rfl | rfl | rfl <;> rfl

theorem level_mem (op : Operator) : op.level ∈ chainLevels := by
  cases op <;> decide

theorem operatorNext_within {m : Nat} (hm : m ∈ chainLevels) :
    ((operatorNext m).may true).within (tighter m) = true :=
  (by decide +kernel : ∀ m ∈ chainLevels, ((operatorNext m).may true).within (tighter m) = true) m hm

section
variable (op : Operator) (us : List Token)

theorem beside_operator : Beside (op.tokens ++ us) := by
  cases op <;> exact .cons ⟨rfl, by decide⟩ _

theorem tightness_operator : (nextKind (op.tokens ++ us)).tightness = op.level + 1 := by
  cases op <;> rfl

/-- An operator comes next and is read, if the word behind it is not taken for a part of it. -/
theorem reads_operator {us : List Token} (hus : op = .is → nextKind us ≠ .notKw) :
    (operatorNext op.level).holds (op.tokens ++ us) = true ∧
      Reads (operatorTokens op.level) (op.tokens ++ us) (op.tokens.map .token) us := by
  cases op with
  | isNot | notElem => exact ⟨rfl, .left rfl (.seq (.of_next_nil rfl) (.of_next_nil rfl))⟩
  | is =>
    have hsecond : (Look.second [.notKw]).holds (Operator.is.tokens ++ us) = false := by
      show [Kind.notKw].contains (nextKind us) = false
      simpa using hus rfl
    refine ⟨rfl, .right ?_ (.of_next_nil rfl)⟩
    show ((is .isKw).holds _ && (Look.second [.notKw]).holds _ || _) = false
    rw [hsecond, Bool.and_false]
    rfl
  | lt | gt | eqEq | gtEq | ltEq | ltGt | notEq | elem =>
    exact ⟨rfl, .right rfl (.of_next_nil rfl)⟩
  | _ => exact ⟨rfl, .of_next_nil rfl⟩

end

/-! ## Readings that grow -/

/-- The tokens are read as a tree by a phrase, whatever comes behind that does not hold on more tightly than
at a level. -/
def ReadsAs (p : P) (m : Nat) (ts : List Token) (t : Tree) : Prop :=
  ∀ us : List Token, (nextKind us).tightness ≤ m → Reads p (ts ++ us) [t] us

/-- The tokens are read as a tree by one phrase and as more trees by another one that is repeated. Behind the
first tree some tokens are left, and however the repetition goes on behind the tokens, it does so from
there. -/
def Grows (p : P) (l : Look) (q : P) (m : Nat) (ts : List Token) (a : Tree) (ns : List Tree) :
    Prop :=
  ∀ us : List Token, (nextKind us).tightness ≤ m → ∃ mid, Reads p (ts ++ us) [a] mid ∧
    ∀ {cs : List Tree} {vs : List Token}, Reads (many l q) us cs vs →
      Reads (many l q) mid (ns ++ cs) vs

section
variable {p q : P} {l : Look} {k m : Nat} {ts xs : List Token} {a n t : Tree} {ns : List Tree}

theorem Grows.of_readsAs (h : ReadsAs p m ts a) : Grows p l q m ts a [] :=
  fun us hus => ⟨us, h us hus, id⟩

theorem Grows.append (h : Grows p l q m ts a ns)
    (hxs : ∀ us, (nextKind (xs ++ us)).tightness ≤ m ∧ l.holds (xs ++ us) = true)
    (hn : ReadsAs q m xs n) : Grows p l q m (ts ++ xs) a (ns ++ [n]) := by
  intro us hus
  obtain ⟨mid, hp, hq⟩ := h _ (hxs us).1
  refine ⟨mid, by rwa [List.append_assoc], fun hcs => ?_⟩
  rw [List.append_assoc]
  exact hq (.again (hxs us).2 (hn us hus) hcs)

/-! ## Operators -/

/-- The tokens are an operand of a level and operators of that level, each with its right operand, and are
read as one tree. -/
def Chained (m : Nat) (ts : List Token) (t : Tree) : Prop :=
  ∃ a ns, Grows (rule (ofLevel (m + 1))) (operatorNext m) (link m) (m + 1) ts a ns ∧
    adoptAll [a] ns = [t]

theorem Chained.of_readsAs (h : ReadsAs (rule (ofLevel (m + 1))) (m + 1) ts t) : Chained m ts t :=
  ⟨t, [], .of_readsAs h, rfl⟩

/-- One more operator makes what is in front of it its left operand. -/
theorem Chained.append {op : Operator} {right : Tree} (h : Chained op.level ts t)
    (hxs : Starts (op.level + 1) xs)
    (hright : ReadsAs (rule (ofLevel (op.level + 1))) (op.level + 1) xs right) :
    Chained op.level (ts ++ (op.tokens ++ xs))
      (.node op.node (t :: (op.tokens.map .token ++ [right]))) := by
  obtain ⟨a, ns, hgrows, ht⟩ := h
  -- The right operand of `is` does not start with `not`: that would be looser than the operator.
  have hne (us : List Token) (hop : op = .is) : nextKind (xs ++ us) ≠ .notKw := by
    subst hop
    intro hk
    exact absurd (hk ▸ hxs.nextKind_mem us) (by decide)
  have hop (us : List Token) := reads_operator op (hne us)
  refine ⟨a, _, hgrows.append (n := .node op.node (op.tokens.map .token ++ [right]))
    (fun us => ?_) fun us hus => ?_, ?_⟩
  · rw [List.append_assoc, tightness_operator]
    exact ⟨Nat.le_refl _, (hop us).1⟩
  · rw [List.append_assoc]
    exact .enclose (.seq (hop us).2 (hright us hus))
  · rw [adoptAll, List.foldl_append, show ns.foldl adoptOne [a] = [t] from ht]
    rfl

/-- Where no operator of the level comes behind, the tokens are read by the rule of the level. -/
theorem Chained.readsAs (h : Chained m ts t) (hm : m ∈ chainLevels) (hts : Starts m ts) :
    ReadsAs (rule (ofLevel m)) m ts t := by
  intro us hus
  obtain ⟨a, ns, hgrows, ht⟩ := h
  obtain ⟨mid, ha, hmany⟩ := hgrows us (Nat.le_succ_of_le hus)
  have hns := hmany (.stop (Look.not_holds_of_tightness hus (operatorNext_within hm)))
  rw [List.append_nil] at hns
  refine .rule ?_
  rw [grammar_ofLevel hm, ← ht]
  exact ha.adopted hns (hts.pending_append us)

/-- What is read at a level is read at the looser one next to it. -/
theorem ReadsAs.loosen_one (h : ReadsAs (rule (ofLevel (m + 1))) (m + 1) ts t) (hm : m < 12)
    (hts : Starts (m + 1) ts) : ReadsAs (rule (ofLevel m)) m ts t := by
  by_cases hchain : m ∈ chainLevels
  · exact (Chained.of_readsAs h).readsAs hchain (hts.loosen (Nat.le_succ m))
  have hcases : m = 0 ∨ m = 3 ∨ m = 11 := by
    simp only [chainLevels, List.mem_cons, List.not_mem_nil, or_false] at hchain
    omega
  intro us hus
  have hread := h us (Nat.le_succ_of_le hus)
  rcases hcases with rfl | rfl | rfl
  · have hif := Look.not_holds_of_tightness (l := is .ifKw) hus (by decide +kernel)
    exact .rule (.right (hts.holds us (by decide))
      (hread.operand (.right hif .done) (hts.pending_append us)))
  · exact .rule (.right (hts.holds us (by decide)) hread)
  · exact .rule (.right (hts.holds us (by decide)) hread)

/-- What is read at a level is read at every looser one. -/
theorem ReadsAs.loosen (h : ReadsAs (rule (ofLevel m)) m ts t) (hk : k ≤ m) (hm : m ≤ 12)
    (hts : Starts m ts) : ReadsAs (rule (ofLevel k)) k ts t := by
  induction m, hk using Nat.le_induction with
  | base => exact h
  | succ m hk ih =>
    exact ih (h.loosen_one hm hts) (by omega) (hts.loosen (Nat.le_succ m))

/-! ## Powers -/

/-- The kinds of tokens that trailers start with. -/
def trailerKinds : List Kind := [.lParen, .lBracket, .dot]

/-- A trailer comes next. -/
def trailerNext : Look := .next trailerKinds

/-- A trailer or an exponent comes next. -/
def powerNext : Look := .next [.lParen, .lBracket, .dot, .doubleStar]

/-- The exponent of a power, if there is one. -/
def exponent : P := when (is .doubleStar) [next, rule .factor]

/-- The tokens are an atom and trailers, and are read as such. -/
def Primary (ts : List Token) (a : Tree) (ns : List Tree) : Prop :=
  Grows (rule .atom) trailerNext (rule .trailer) 14 ts a ns

/-- One more trailer. -/
theorem Primary.append {x : Token} (h : Primary ts a ns) (hx : x.kind ∈ trailerKinds)
    (hn : ReadsAs (rule .trailer) 14 (x :: xs) n) : Primary (ts ++ x :: xs) a (ns ++ [n]) := by
  refine Grows.append h (fun us => ?_) hn
  have htriv : x.kind.isTrivia = false :=
    (by decide : ∀ k ∈ trailerKinds, k.isTrivia = false) _ hx
  rw [trailerNext, Look.holds, List.cons_append, nextKind_cons htriv, List.contains_iff_mem]
  refine ⟨?_, hx⟩
  exact (by decide : ∀ k ∈ trailerKinds, k.tightness ≤ 14) _ hx

/-- An atom by itself is read as it is. -/
theorem ReadsAs.power (h : ReadsAs (rule .atom) 14 ts t) (hts : Starts 12 ts) :
    ReadsAs (rule (ofLevel 12)) 12 ts t := by
  intro us hus
  have hend := Look.not_holds_of_tightness (l := powerNext) hus (by decide +kernel)
  exact .rule (.right (hts.holds us (by decide))
    ((h us (hus.trans (by omega))).operand (.right hend .done) (hts.pending_append us)))

theorem holds_of_reads_many {us : List Token} {as : List Tree} (h : Reads (many l p) ts as us)
    (has : as ≠ []) : l.holds ts = true := by
  cases h with
  | stop _ => exact absurd rfl has
  | again hl _ _ => exact hl

/-- An atom with trailers or an exponent is read as one node. -/
theorem Primary.reads_power {us vs : List Token} {cs : List Tree} (h : Primary ts a ns)
    (hts : Starts 12 ts) (hus : (nextKind us).tightness ≤ 13)
    (hne : ns ≠ [] ∨ nextKind us = .doubleStar) (hexponent : Reads exponent us cs vs) :
    Reads (rule (ofLevel 12)) (ts ++ us) [.node .powerExpr (a :: (ns ++ cs))] vs := by
  obtain ⟨mid, hatom, htrailers⟩ := h us (Nat.le_succ_of_le hus)
  have hns := htrailers (.stop (Look.not_holds_of_tightness hus (by decide +kernel)))
  rw [List.append_nil] at hns
  have hnext : powerNext.holds mid = true := by
    rw [powerNext, Look.holds, List.contains_iff_mem]
    by_cases hnil : ns = []
    · subst hnil
      obtain rfl : us = mid := hns.leaves_append
      rw [hne.resolve_left (absurd rfl)]
      decide
    · have hmid := holds_of_reads_many hns hnil
      rw [trailerNext, Look.holds, List.contains_iff_mem] at hmid
      exact (by decide : trailerKinds ⊆ [.lParen, .lBracket, .dot, .doubleStar]) hmid
  exact .rule (.right (hts.holds us (by decide))
    (hatom.adopted (.left hnext (.enclose (.seq hns hexponent))) (hts.pending_append us)))

/-- An atom with trailers is read as one node. -/
theorem Primary.readsAs (h : Primary ts a ns) (hns : ns ≠ []) (hts : Starts 12 ts) :
    ReadsAs (rule (ofLevel 12)) 12 ts (.node .powerExpr (a :: ns)) := by
  intro us hus
  have hend := Look.not_holds_of_tightness (l := is .doubleStar) hus (by decide +kernel)
  have hread := h.reads_power hts (Nat.le_succ_of_le hus) (.inl hns) (.right hend .done)
  rwa [List.append_nil] at hread

/-- A power goes on with its exponent, which is read like an operand of a sign. -/
theorem Primary.readsAs_exponent (h : Primary ts a ns) (hts : Starts 12 ts)
    (hxs : ReadsAs (rule (ofLevel 11)) 11 xs t) :
    ReadsAs (rule (ofLevel 12)) 12 (ts ++ ⟨.doubleStar, "**"⟩ :: xs)
      (.node .powerExpr (a :: (ns ++ [.token ⟨.doubleStar, "**"⟩, t]))) := by
  intro us hus
  have hloose := Nat.le_of_lt_succ (Nat.lt_of_le_of_ne hus (nextKind us).tightness_ne)
  rw [List.append_assoc]
  exact h.reads_power hts (Nat.le_refl 13) (.inr rfl)
    (.left rfl (.seq (.of_next_nil rfl) (hxs us hloose)))

end

end Grammar

end Renumber
