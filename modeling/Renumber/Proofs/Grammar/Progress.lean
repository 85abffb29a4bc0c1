import Renumber.Parse
import Renumber.Proofs.Grammar.Look
import Renumber.Proofs.Grammar.Makes

/-!
# Every reading ends

The rules call each other, and a loop of the grammar goes on as long as the next token tells it to. Two
estimates show that neither runs on: `Phrase.idle` is the set of kinds of the next token in front of
which a phrase may read nothing but trivia, and `Phrase.height` is how deep phrases nest before the next
token is read. Both look at the phrase only; what they say of the rules themselves is a table
(`Rule.idle`, `Rule.height`) that the grammar is checked against once (`rules_sane`).

* A loop reads a token each time around (`Phrase.sane`).
* The fuel that the whole file is given is never used up (`exists_read_file`).
* What is read as a file leaves no token over (`rest_readFile`).
-/

namespace Renumber.Grammar

open Phrase

/-! ## Phrases that may read nothing -/

section
variable {α : Type}

/-- The kinds in front of which the phrase may read nothing but trivia. The table says the same of the
rules. -/
def Phrase.idle (table : α → KindSet) : Phrase α → KindSet
  | .done | .trivia | .fault _ => .every
  | .next => .of [.eof]
  | .seq p q | .adopt p q => p.idle table ∩ q.idle table
  | .branch l p q => (l.may true ∩ p.idle table) ∪ (l.may false ∩ q.idle table)
  | .many l p => l.may false ∪ p.idle table
  | .enclose _ p => p.idle table
  | .rule a => table a

/-- How deep phrases nest in front of a token, whose kind is in a set, until that token is read. -/
def Phrase.height (table : α → KindSet) (heights : α → KindSet → Nat) : KindSet → Phrase α → Nat
  | _, .done | _, .trivia | _, .fault _ | _, .next => 1
  | s, .seq p q | s, .adopt p q =>
    1 + max (p.height table heights s)
      (if (s ∩ p.idle table).isEmpty then 0 else q.height table heights (s ∩ p.idle table))
  | s, .branch l p q =>
    1 + max (if (s ∩ l.may true).isEmpty then 0 else p.height table heights (s ∩ l.may true))
      (if (s ∩ l.may false).isEmpty then 0 else q.height table heights (s ∩ l.may false))
  | s, .many l p =>
    1 + if (s ∩ l.may true).isEmpty then 0 else p.height table heights (s ∩ l.may true)
  | s, .enclose _ p => 1 + p.height table heights s
  | s, .rule a => 1 + heights a s

/-- How many phrases a phrase is built from. -/
def Phrase.size : Phrase α → Nat
  | .done | .trivia | .fault _ | .next | .rule _ => 1
  | .seq p q | .adopt p q | .branch _ p q => 1 + p.size + q.size
  | .many _ p | .enclose _ p => 1 + p.size

theorem Phrase.height_pos (table : α → KindSet) (heights : α → KindSet → Nat) (s : KindSet)
    (p : Phrase α) : 0 < p.height table heights s := by
  cases p <;> simp only [height] <;> omega

/-- A phrase nests no deeper than its size and the rules that it calls. -/
theorem Phrase.height_le_size {table : α → KindSet} {heights : α → KindSet → Nat} {m : Nat}
    (hm : ∀ a s, heights a s ≤ m) (s : KindSet) (p : Phrase α) :
    p.height table heights s ≤ p.size + m := by
  induction p generalizing s with
  | done | trivia | next | fault _ => simp only [height, size]; omega
  | seq p q ihp ihq | adopt p q ihp ihq =>
    have := ihp s
    have := ihq (s ∩ p.idle table)
    simp only [height, size]
    split <;> omega
  | branch l p q ihp ihq =>
    have := ihp (s ∩ l.may true)
    have := ihq (s ∩ l.may false)
    simp only [height, size]
    split <;> split <;> omega
  | many l p ih =>
    have := ih (s ∩ l.may true)
    simp only [height, size]
    split <;> omega
  | enclose _ p ih => have := ih s; simp only [height, size]; omega
  | rule a => have := hm a s; simp only [height, size]; omega

end

/-! ## The rules -/

/-- The rules that the grammar uses. -/
def rules : List Rule :=
  [.file, .statement, .simpleStmt, .smallStmt, .returnStmt, .scopeStmt .globalStmt,
   .scopeStmt .nonlocalStmt, .delStmt, .assertStmt, .execStmt, .raiseStmt, .exprStmt, .assignValue,
   .importStmt, .importAlias, .importFromStmt, .importedNames, .importedName, .dottedName, .ifStmt,
   .elifClause, .elseClause, .whileStmt, .forStmt, .tryStmt, .exceptClause, .finallyClause,
   .withStmt, .withItem, .funcDef, .params .rParen true, .params .colon false, .param true,
   .param false, .typeHint true, .typeHint false, .classDef, .decorated, .decorator, .suite,
   .starOrTest, .starOrBitOr, .starExpr, .namedExprTest, .test, .testNoCond, .lambdaExpr, .orTest,
   .andTest, .notTest, .comparison, .bitOr, .bitXor, .bitAnd, .shift, .arith, .term, .factor,
   .power, .trailer, .atom, .testListComp, .dictOrSet, .dictOrSetItem, .subscriptList, .subscript,
   .argList, .argument, .compFor, .compIf, .yieldExpr]

/-- The kinds at which an expression that is missing is reported and nothing is passed over. -/
def exprStops : List Kind :=
  [.newline, .eof, .indent, .dedent, .rParen, .rBracket, .rBrace, .colon, .comma, .eq, .semicolon]

/-- The kinds in front of which a rule may read nothing but trivia. -/
def Rule.idle : Rule → KindSet
  | .smallStmt | .exprStmt => .of [.newline, .eof]
  | .decorated => .every \ .of [.atSign]
  | .elseClause => .every \ .of [.elseKw]
  | .importAlias | .importedNames | .importedName | .dottedName | .params .. | .param _
  | .typeHint _ => .every
  | .withItem | .assignValue | .starOrTest | .starOrBitOr | .namedExprTest | .test | .testNoCond
  | .orTest | .andTest | .notTest | .comparison | .bitOr | .bitXor | .bitAnd | .shift | .arith
  | .term | .factor | .power | .atom | .testListComp | .dictOrSet | .dictOrSetItem
  | .subscriptList | .subscript | .argList | .argument | .compFor => .of exprStops
  | _ => .of [.eof]

/-- How deep phrases nest in a rule until the next token is read. The rules that are not named take
their first token at once unless there is none. -/
def Rule.height : Rule → KindSet → Nat
  | .file, _ => 128
  | .statement, _ => 118
  | .simpleStmt, _ => 84
  | .smallStmt, _ => 80
  | .exprStmt, _ => 66
  | .assignValue, _ => 60
  | .importAlias, _ => 14
  | .importedNames, _ => 12
  | .importedName, _ | .dottedName, _ => 10
  | .elseClause, _ => 5
  | .forStmt, _ | .withStmt, _ => 98
  | .withItem, _ => 55
  | .funcDef, _ => 100
  | .params .., _ => 16
  | .param _, _ => 11
  | .typeHint _, _ => 3
  | .decorated, _ => 108
  | .suite, _ => 88
  | .subscriptList, _ => 63
  | .argList, _ => 62
  | .subscript, _ => 60
  | .argument, _ | .testListComp, _ | .dictOrSet, _ => 58
  | .starOrTest, _ | .dictOrSetItem, _ => 56
  | .namedExprTest, _ => 54
  | .compFor, _ => 55
  | .test, _ => 51
  | .testNoCond, _ => 49
  | .orTest, _ => 47
  | .andTest, _ => 44
  | .notTest, _ => 41
  | .comparison, _ => 39
  | .starOrBitOr, _ => 38
  | .bitOr, _ => 36
  | .bitXor, _ => 33
  | .bitAnd, _ => 30
  | .shift, _ => 27
  | .arith, _ => 24
  | .term, _ => 21
  | .factor, _ => 18
  | .power, _ => 16
  | .atom, _ => 12
  | _, s => if s.has .eof then 96 else 8

/-- The phrase names rules of the grammar only, and each of its loops reads something each time
around. -/
def Phrase.sane : P → Bool
  | .done | .trivia | .fault _ | .next => true
  | .seq p q | .adopt p q | .branch _ p q => p.sane && q.sane
  | .many l p => p.sane && (l.may true ∩ p.idle Rule.idle).isEmpty
  | .enclose _ p => p.sane
  | .rule a => rules.contains a

/-- The table of heights is true of a rule in front of a token whose kind is in a set. -/
def Rule.deep (a : Rule) (s : KindSet) : Bool :=
  decide ((grammar a).height Rule.idle Rule.height s ≤ a.height s)

/-- What the tables say of a rule is true of its phrase. -/
def Rule.sane (a : Rule) : Bool :=
  (grammar a).sane && decide ((grammar a).size ≤ 128) &&
    ((grammar a).idle Rule.idle).within a.idle &&
    a.deep .every && a.deep (.every \ .of [.eof])

theorem rules_sane : rules.all Rule.sane = true := by decide +kernel

theorem Rule.height_le (a : Rule) (s : KindSet) : a.height s ≤ 128 := by
  unfold Rule.height
  split <;> (try split) <;> omega

/-- Whether there is a next token is all that the table of heights asks for. -/
theorem Rule.height_congr (a : Rule) {s t : KindSet} (h : s.has .eof = t.has .eof) :
    a.height s = a.height t := by
  unfold Rule.height
  split <;> simp only [h]

theorem Rule.height_mono (a : Rule) {s : KindSet} (t : KindSet) (h : s.has .eof = false) :
    a.height s ≤ a.height t := by
  unfold Rule.height
  split <;> simp only [h, Bool.false_eq_true, if_false, Nat.le_refl]
  split <;> omega

section
variable {n : Nat} {p : P} {ts : List Token} {r : Reading}

theorem Rule.sane_of_mem {a : Rule} (h : rules.contains a = true) :
    (grammar a).sane = true ∧ (grammar a).size ≤ 128 ∧
      ((grammar a).idle Rule.idle).within a.idle = true ∧
      a.deep .every = true ∧ a.deep (.every \ .of [.eof]) = true := by
  have := List.all_eq_true.1 rules_sane a (by simpa using h)
  simpa only [Rule.sane, Bool.and_eq_true, decide_eq_true_eq, and_assoc] using this

/-- The table of heights is true of a rule in front of every token. -/
theorem Rule.exists_height_le {a : Rule} (h : rules.contains a = true) {s : KindSet} {k : Kind}
    (hk : s.has k = true) : ∃ t : KindSet, t.has k = true ∧
      (grammar a).height Rule.idle Rule.height t ≤ a.height s := by
  obtain ⟨-, -, -, hall, hmost⟩ := sane_of_mem h
  rw [deep, decide_eq_true_eq] at hall hmost
  by_cases he : k = .eof
  · subst he
    exact ⟨.every, by simp, Nat.le_trans hall (Nat.le_of_eq (a.height_congr (by simp [hk])))⟩
  · exact ⟨.every \ .of [.eof], by simpa using he,
      Nat.le_trans hmost (a.height_mono s (by simp))⟩

/-! ## Readings -/

/-- What comes next in front of some tokens hangs only on those from the next one on. -/
theorem nextKind_congr {ts us : List Token} (h : upcoming ts = upcoming us) :
    nextKind ts = nextKind us := by
  rw [nextKind, nextKind, h]

/-- Of two readings one after another, both have read trivia only if they have together. -/
theorem upcoming_between {ts us vs : List Token} (h₁ : us <:+ ts) (h₂ : vs <:+ us)
    (h : upcoming vs = upcoming ts) : upcoming us = upcoming ts ∧ upcoming vs = upcoming us := by
  have hs := upcoming_suffix_of_suffix h₁
  have ht := upcoming_suffix_of_suffix h₂
  rw [h] at ht
  have hu : upcoming us = upcoming ts :=
    hs.eq_of_length (Nat.le_antisymm hs.length_le ht.length_le)
  exact ⟨hu, h.trans hu.symm⟩

/-- A phrase that has read nothing but trivia is one that may do so. -/
theorem Makes.idle (h : Makes grammar p ts r) (hp : p.sane = true)
    (hu : upcoming r.rest = upcoming ts) : (p.idle Rule.idle).has (nextKind ts) = true := by
  induction h with
  | done | trivia | fault => exact KindSet.has_every _
  | @next ts =>
    cases hts : upcoming ts with
    | nil => simp [Phrase.idle, nextKind, hts]
    | cons t us =>
      have hle := (upcoming_suffix us).length_le
      simp only [hts, List.drop_succ_cons, List.drop_zero] at hu
      rw [hu, List.length_cons] at hle
      omega
  | seq ha hb iha ihb | adopt ha hb iha ihb =>
    simp only [Phrase.sane, Bool.and_eq_true] at hp
    obtain ⟨h₁, h₂⟩ := upcoming_between ha.rest_suffix hb.rest_suffix hu
    rw [Phrase.idle, KindSet.has_inter, iha hp.1 h₁, ← nextKind_congr h₁, ihb hp.2 h₂]
    rfl
  | @left l _ _ ts _ hl _ ih =>
    simp only [Phrase.sane, Bool.and_eq_true] at hp
    have hmay := l.may_holds ts
    rw [hl] at hmay
    rw [Phrase.idle, KindSet.has_union, KindSet.has_inter, hmay, ih hp.1 hu]
    rfl
  | @right l _ _ ts _ hl _ ih =>
    simp only [Phrase.sane, Bool.and_eq_true] at hp
    have hmay := l.may_holds ts
    rw [hl] at hmay
    rw [Phrase.idle, KindSet.has_union, Bool.or_comm, KindSet.has_inter, hmay, ih hp.2 hu]
    rfl
  | @stop l _ ts hl =>
    have hmay := l.may_holds ts
    rw [hl] at hmay
    rw [Phrase.idle, KindSet.has_union, hmay]
    rfl
  | again _ ha hb ih _ =>
    simp only [Phrase.sane, Bool.and_eq_true] at hp
    obtain ⟨h₁, -⟩ := upcoming_between ha.rest_suffix hb.rest_suffix hu
    rw [Phrase.idle, KindSet.has_union, Bool.or_comm, ih hp.1 h₁]
    rfl
  | enclose _ ih => exact ih hp hu
  | rule _ ih =>
    obtain ⟨hsane, -, hidle, -⟩ := Rule.sane_of_mem hp
    exact KindSet.has_of_within hidle (ih hsane hu)

/-- There is fuel enough for a phrase after another one: either that has read a token, or the two
nest together. -/
theorem Phrase.fuel_after {q : P} {s : KindSet} {m : Nat} (h : Makes grammar p ts r)
    (hp : p.sane = true) (hq : q.size ≤ 128) (hs : s.has (nextKind ts) = true)
    (hm : 512 * (upcoming ts).length + (if (s ∩ p.idle Rule.idle).isEmpty then 0 else
      q.height Rule.idle Rule.height (s ∩ p.idle Rule.idle)) ≤ m) :
    ∃ t : KindSet, t.has (nextKind r.rest) = true ∧
      512 * (upcoming r.rest).length + q.height Rule.idle Rule.height t ≤ m := by
  have hsuffix := upcoming_suffix_of_suffix h.rest_suffix
  rcases Nat.lt_or_eq_of_le hsuffix.length_le with hlt | heq
  · have : q.height Rule.idle Rule.height .every ≤ q.size + 128 :=
      q.height_le_size Rule.height_le .every
    exact ⟨.every, by simp, by omega⟩
  · have hu := hsuffix.eq_of_length heq
    have hhas : (s ∩ p.idle Rule.idle).has (nextKind ts) = true := by
      rw [KindSet.has_inter, hs, h.idle hp hu]
      rfl
    rw [KindSet.not_isEmpty_of_has hhas] at hm
    refine ⟨s ∩ p.idle Rule.idle, ?_, ?_⟩
    · rwa [nextKind_congr hu]
    · rw [hu]; exact hm

/-- A phrase has an answer when the fuel covers how deep it nests before each token that is left. -/
theorem Phrase.exists_read {s : KindSet} (hp : p.sane = true) (hsize : p.size ≤ 128)
    (hs : s.has (nextKind ts) = true)
    (hn : 512 * (upcoming ts).length + p.height Rule.idle Rule.height s ≤ n) :
    ∃ r, read grammar n p ts = some r := by
  induction n generalizing p ts s with
  | zero =>
    have := p.height_pos Rule.idle Rule.height s
    omega
  | succ n ih =>
    cases p with
    | done | trivia | next | fault _ => exact ⟨_, rfl⟩
    | seq p q | adopt p q =>
      simp only [sane, Bool.and_eq_true] at hp
      simp only [size] at hsize
      simp only [height] at hn
      obtain ⟨a, ha⟩ := ih (p := p) hp.1 (by omega) hs (by omega)
      obtain ⟨t, ht, hm⟩ := fuel_after (m := n) (q := q) (makes_of_read ha) hp.1 (by omega) hs (by omega)
      obtain ⟨b, hb⟩ := ih hp.2 (by omega) ht hm
      exact ⟨_, by simp only [read, ha, hb, Option.bind_eq_bind, Option.bind_some]; rfl⟩
    | branch l p q =>
      simp only [sane, Bool.and_eq_true] at hp
      simp only [size] at hsize
      simp only [height] at hn
      simp only [read]
      split <;> rename_i hc
      · have hhas := has_inter_may hs hc
        rw [KindSet.not_isEmpty_of_has hhas] at hn
        exact ih hp.1 (by omega) hhas (by simp only [Bool.false_eq_true, if_false] at hn; omega)
      · have hhas := has_inter_may hs (Bool.eq_false_iff.2 hc)
        rw [KindSet.not_isEmpty_of_has hhas] at hn
        exact ih hp.2 (by omega) hhas (by simp only [Bool.false_eq_true, if_false] at hn; omega)
    | many l p =>
      have hmany := hp
      have hbound := hsize
      simp only [sane, Bool.and_eq_true] at hp
      simp only [size] at hsize
      simp only [height] at hn
      have hl := l.may_holds ts
      simp only [read]
      split <;> rename_i hc
      · have hhas := has_inter_may hs hc
        rw [hc] at hl
        rw [KindSet.not_isEmpty_of_has hhas] at hn
        simp only [Bool.false_eq_true, if_false] at hn
        obtain ⟨a, ha⟩ := ih (p := p) hp.1 (by omega) hhas (by omega)
        -- Around the loop a token is read, so what nests there does not add up.
        obtain ⟨t, ht, hm⟩ := fuel_after (m := n) (q := .many l p) (makes_of_read ha) hp.1 hbound
          hl (by rw [if_pos hp.2]; omega)
        obtain ⟨b, hb⟩ := ih hmany hbound ht hm
        exact ⟨_, by simp only [ha, hb, Option.bind_eq_bind, Option.bind_some]; rfl⟩
      · exact ⟨_, rfl⟩
    | enclose k p =>
      simp only [size] at hsize
      simp only [height] at hn
      obtain ⟨a, ha⟩ := ih (p := p) hp (by omega) hs (by omega)
      exact ⟨_, by simp only [read, ha, Option.bind_eq_bind, Option.bind_some]; rfl⟩
    | rule a =>
      simp only [height] at hn
      obtain ⟨hsane, hbound, -⟩ := Rule.sane_of_mem hp
      obtain ⟨t, ht, hle⟩ := Rule.exists_height_le hp hs
      exact ih hsane hbound ht (by omega)

end

/-! ## Files -/

/-- The fuel that a file is given is never used up. -/
theorem exists_read_file (ts : List Token) :
    ∃ r, read grammar (fuelFor ts) (.rule .file) ts = some r := by
  refine Phrase.exists_read (s := .every) (by decide) (by decide) (by simp) ?_
  have := (upcoming_suffix ts).length_le
  simp only [Phrase.height, Rule.height, fuelFor]
  omega

/-- What is read of a file is what the rule for files makes of it. -/
theorem makes_readFile (ts : List Token) : Makes grammar (.rule .file) ts (readFile ts) := by
  obtain ⟨r, hr⟩ := exists_read_file ts
  rw [readFile, hr, Option.getD_some]
  exact makes_of_read hr

theorem Makes.readFile_eq {ts : List Token} {r : Reading} (h : Makes grammar (.rule .file) ts r) :
    readFile ts = r := (makes_readFile ts).unique h

/-- The loop of a file goes on up to the end. -/
theorem nextKind_rest_readFile (ts : List Token) :
    upcoming (readFile ts).rest = (readFile ts).rest ∧ nextKind (readFile ts).rest = .eof := by
  have h := makes_readFile ts
  generalize readFile ts = r at h
  cases h with
  | rule h =>
  cases h with
  | seq hitems htrivia =>
  cases htrivia with
  | trivia =>
  have hend := hitems.holds_rest
  rw [upcoming_upcoming, nextKind_congr (upcoming_upcoming _)]
  exact ⟨rfl, by simpa [Look.holds, is] using hend⟩

/-- What is read as a file leaves no token over. -/
theorem rest_readFile {ts : List Token} (hk : ∀ t ∈ ts, t.kind ≠ .eof) : (readFile ts).rest = [] := by
  obtain ⟨hrest, hend⟩ := nextKind_rest_readFile ts
  rw [← hrest]
  exact upcoming_eq_nil_of_nextKind (fun t ht => hk t ((makes_readFile ts).rest_suffix.subset ht)) hend

end Renumber.Grammar
