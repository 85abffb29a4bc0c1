import Renumber.Proofs.Grammar.Formed
import Renumber.Proofs.Grammar.Taken

/-!
# Every cycle reads something

Reading a phrase means to read other phrases, in front of the tokens that are left then (`Calls`); a phrase
has a reading when all of these have one (`exists_makes_of_calls`). A call either leaves a token behind, or
it goes down in rank: the rank of a phrase in front of a token is how deep phrases nest until that token is
read (`Phrase.rank`). So no chain of calls is endless, and when a phrase is called again from below itself, be
it a rule that calls itself or a loop that goes around, a token has been read in between (`file_ends`).
-/

namespace Renumber.Grammar

open Phrase

/-- What is called to read a phrase in front of some tokens, and in front of which tokens. -/
inductive Calls : P × List Token → P × List Token → Prop
  | seqLeft {p q : P} {ts : List Token} : Calls (.seq p q, ts) (p, ts)
  | seqRight {p q : P} {ts : List Token} {r : Reading} (h : Makes grammar p ts r) :
      Calls (.seq p q, ts) (q, r.rest)
  | branchLeft {l : Look} {p q : P} {ts : List Token} (hl : l.holds ts = true) :
      Calls (.branch l p q, ts) (p, ts)
  | branchRight {l : Look} {p q : P} {ts : List Token} (hl : l.holds ts = false) :
      Calls (.branch l p q, ts) (q, ts)
  | body {l : Look} {p : P} {ts : List Token} (hl : l.holds ts = true) : Calls (.many l p, ts) (p, ts)
  | again {l : Look} {p : P} {ts : List Token} {r : Reading} (hl : l.holds ts = true)
      (h : Makes grammar p ts r) : Calls (.many l p, ts) (.many l p, r.rest)
  | enclose {k : Kind} {p : P} {ts : List Token} : Calls (.enclose k p, ts) (p, ts)
  | adoptLeft {p q : P} {ts : List Token} : Calls (.adopt p q, ts) (p, ts)
  | adoptRight {p q : P} {ts : List Token} {r : Reading} (h : Makes grammar p ts r) :
      Calls (.adopt p q, ts) (q, r.rest)
  | rule {a : Rule} {ts : List Token} : Calls (.rule a, ts) (grammar a, ts)

/-- A phrase has a reading if everything that it calls has one. -/
theorem exists_makes_of_calls {p : P} {ts : List Token}
    (h : ∀ q us, Calls (p, ts) (q, us) → ∃ r, Makes grammar q us r) : ∃ r, Makes grammar p ts r := by
  cases p with
  | done | trivia | next | fault _ => exact ⟨_, by constructor⟩
  | seq p q =>
    obtain ⟨a, ha⟩ := h p ts .seqLeft
    obtain ⟨b, hb⟩ := h q a.rest (.seqRight ha)
    exact ⟨_, ha.seq hb⟩
  | adopt p q =>
    obtain ⟨a, ha⟩ := h p ts .adoptLeft
    obtain ⟨b, hb⟩ := h q a.rest (.adoptRight ha)
    exact ⟨_, ha.adopt hb⟩
  | branch l p q =>
    cases hl : l.holds ts with
    | true =>
      obtain ⟨r, hr⟩ := h p ts (.branchLeft hl)
      exact ⟨r, .left hl hr⟩
    | false =>
      obtain ⟨r, hr⟩ := h q ts (.branchRight hl)
      exact ⟨r, .right hl hr⟩
  | many l p =>
    cases hl : l.holds ts with
    | true =>
      obtain ⟨a, ha⟩ := h p ts (.body hl)
      obtain ⟨b, hb⟩ := h (.many l p) a.rest (.again hl ha)
      exact ⟨_, .again hl ha hb⟩
    | false => exact ⟨_, .stop hl⟩
  | enclose k p =>
    obtain ⟨a, ha⟩ := h p ts .enclose
    exact ⟨_, ha.enclose⟩
  | rule a =>
    obtain ⟨r, hr⟩ := h (grammar a) ts .rule
    exact ⟨r, hr.rule⟩

/-! ## Ranks -/

/-- How deep phrases nest in front of a token of a kind until that token is read: the least estimate for a set
with the kind in it. -/
noncomputable def Phrase.rank (p : P) (k : Kind) : Nat :=
  sInf {h | ∃ s : KindSet, s.has k = true ∧ p.height Rule.idle Rule.height s = h}

theorem Phrase.rank_le {p : P} {k : Kind} {s : KindSet} (hs : s.has k = true) :
    p.rank k ≤ p.height Rule.idle Rule.height s := Nat.sInf_le ⟨s, hs, rfl⟩

theorem Phrase.exists_rank_eq (p : P) (k : Kind) :
    ∃ s : KindSet, s.has k = true ∧ p.height Rule.idle Rule.height s = p.rank k :=
  Nat.sInf_mem (s := {h | ∃ s : KindSet, s.has k = true ∧ p.height Rule.idle Rule.height s = h})
    ⟨_, .every, KindSet.has_every k, rfl⟩

/-- A phrase that nests deeper than another one in front of every set of kinds ranks above it. -/
theorem Phrase.rank_lt {p q : P} {k : Kind}
    (h : ∀ s : KindSet, s.has k = true → ∃ t : KindSet, t.has k = true ∧
      q.height Rule.idle Rule.height t < p.height Rule.idle Rule.height s) : q.rank k < p.rank k := by
  obtain ⟨s, hs, hp⟩ := p.exists_rank_eq k
  obtain ⟨t, ht, hlt⟩ := h s hs
  exact hp ▸ (rank_le ht).trans_lt hlt

/-- The tokens that are left, and in front of the same tokens the rank. -/
noncomputable def measure (x : P × List Token) : Nat ×ₗ Nat :=
  toLex ((upcoming x.2).length, x.1.rank (nextKind x.2))

section
variable {p q : P} {ts us : List Token}

/-- In front of the same tokens, a phrase of lower rank. -/
theorem measure_lt_of_rank (h : q.rank (nextKind ts) < p.rank (nextKind ts)) :
    measure (q, ts) < measure (p, ts) :=
  Prod.Lex.toLex_lt_toLex.2 (.inr ⟨rfl, h⟩)

/-- Behind a reading: it has read a token, or what comes then is of lower rank. -/
theorem measure_lt_of_makes {p' : P} {r : Reading} (h : Makes grammar p' ts r)
    (hrank : upcoming r.rest = upcoming ts → q.rank (nextKind ts) < p.rank (nextKind ts)) :
    measure (q, r.rest) < measure (p, ts) := by
  have hsuffix := upcoming_suffix_of_suffix h.rest_suffix
  rcases Nat.lt_or_eq_of_le hsuffix.length_le with hlt | heq
  · exact Prod.Lex.toLex_lt_toLex.2 (.inl hlt)
  · have hu := hsuffix.eq_of_length heq
    refine Prod.Lex.toLex_lt_toLex.2 (.inr ⟨heq, ?_⟩)
    show q.rank (nextKind r.rest) < p.rank (nextKind ts)
    rw [nextKind_congr hu]
    exact hrank hu

end

/-- What is called is sane, and an end of the tokens is left for it. -/
theorem Calls.sane {x y : P × List Token} (h : Calls x y) (hx : x.1.sane = true) :
    y.1.sane = true ∧ y.2 <:+ x.2 := by
  cases h with
  | seqLeft | adoptLeft | branchLeft _ | body _ =>
    simp only [Phrase.sane, Bool.and_eq_true] at hx
    exact ⟨hx.1, List.suffix_rfl⟩
  | seqRight h | adoptRight h =>
    simp only [Phrase.sane, Bool.and_eq_true] at hx
    exact ⟨hx.2, h.rest_suffix⟩
  | branchRight _ =>
    simp only [Phrase.sane, Bool.and_eq_true] at hx
    exact ⟨hx.2, List.suffix_rfl⟩
  | again _ h => exact ⟨hx, h.rest_suffix⟩
  | enclose => exact ⟨hx, List.suffix_rfl⟩
  | rule => exact ⟨(Rule.sane_of_mem hx).1, List.suffix_rfl⟩

/-- A call reads a token or goes down in rank. -/
theorem Calls.measure_lt {x y : P × List Token} (h : Calls x y) (hx : x.1.sane = true) :
    measure y < measure x := by
  cases h with
  | seqLeft | adoptLeft =>
    refine measure_lt_of_rank (rank_lt fun s hs => ⟨s, hs, ?_⟩)
    simp only [height]
    omega
  | @seqRight p q ts r h | @adoptRight p q ts r h =>
    simp only [Phrase.sane, Bool.and_eq_true] at hx
    refine measure_lt_of_makes h fun hu => rank_lt fun s hs => ?_
    have hidle : (s ∩ p.idle Rule.idle).has (nextKind ts) = true := by
      rw [KindSet.has_inter, hs, h.idle hx.1 hu]
      rfl
    refine ⟨_, hidle, ?_⟩
    simp only [height, KindSet.not_isEmpty_of_has hidle, Bool.false_eq_true, if_false]
    omega
  | branchLeft hl | branchRight hl =>
    refine measure_lt_of_rank (rank_lt fun s hs => ⟨_, has_inter_may hs hl, ?_⟩)
    simp only [height, KindSet.not_isEmpty_of_has (has_inter_may hs hl), Bool.false_eq_true, if_false]
    omega
  | body hl =>
    refine measure_lt_of_rank (rank_lt fun s hs => ⟨_, has_inter_may hs hl, ?_⟩)
    simp only [height, KindSet.not_isEmpty_of_has (has_inter_may hs hl), Bool.false_eq_true, if_false]
    omega
  | @again l p ts r hl h =>
    -- The body of a loop reads a token wherever the condition of the loop may hold.
    simp only [Phrase.sane, Bool.and_eq_true] at hx
    refine measure_lt_of_makes h fun hu => ?_
    have hmay := l.may_holds ts
    rw [hl] at hmay
    have hnone := KindSet.not_has_of_isEmpty hx.2 (nextKind ts)
    rw [KindSet.has_inter, hmay, h.idle hx.1 hu] at hnone
    cases hnone
  | enclose =>
    refine measure_lt_of_rank (rank_lt fun s hs => ⟨s, hs, ?_⟩)
    simp only [height]
    omega
  | rule =>
    refine measure_lt_of_rank (rank_lt fun s hs => ?_)
    obtain ⟨t, ht, hle⟩ := Rule.exists_height_le hx hs
    exact ⟨t, ht, by simp only [height]; omega⟩

/-! ## Chains of calls -/

section
variable {x y : P × List Token}

/-- Along a chain of calls the measure goes down. -/
theorem measure_lt_of_transGen (h : Relation.TransGen Calls x y) (hx : x.1.sane = true) :
    measure y < measure x ∧ y.1.sane = true ∧ y.2 <:+ x.2 := by
  induction h with
  | single h => exact ⟨h.measure_lt hx, h.sane hx⟩
  | tail _ h ih =>
    obtain ⟨hlt, hsane, hsuffix⟩ := ih
    obtain ⟨hsane', hsuffix'⟩ := h.sane hsane
    exact ⟨(h.measure_lt hsane).trans hlt, hsane', hsuffix'.trans hsuffix⟩

theorem sane_of_reflTransGen (h : Relation.ReflTransGen Calls x y) (hx : x.1.sane = true) :
    y.1.sane = true := by
  rcases Relation.reflTransGen_iff_eq_or_transGen.1 h with rfl | h
  · exact hx
  · exact (measure_lt_of_transGen h hx).2.1

/-- There is no endless chain of calls. -/
theorem acc_calls (hx : x.1.sane = true) : Acc (fun y x => Calls x y) x := by
  induction hm : measure x using WellFoundedLT.induction generalizing x with
  | ind m ih =>
    subst hm
    exact .intro x fun y hy => ih _ (hy.measure_lt hx) (hy.sane hx).1 rfl

end

/-- Every phrase made of the rules has a reading in front of any tokens. -/
theorem exists_makes_of_sane {p : P} (hp : p.sane = true) (ts : List Token) : ∃ r, Makes grammar p ts r := by
  suffices h : ∀ x : P × List Token, x.1.sane = true → ∃ r, Makes grammar x.1 x.2 r from h (p, ts) hp
  intro x hx
  induction acc_calls hx with
  | intro x _ ih => exact exists_makes_of_calls fun q us h => ih (q, us) h (h.sane hx).1

/-- A phrase that is called again from below itself has read a token by then. -/
theorem exists_read_between {p : P} {us vs : List Token} (hp : p.sane = true)
    (h : Relation.TransGen Calls (p, us) (p, vs)) :
    ∃ used, us = used ++ vs ∧ ∃ t ∈ used, t.kind.isTrivia = false := by
  obtain ⟨hlt, -, used, hused⟩ := measure_lt_of_transGen h hp
  refine ⟨used, hused.symm, ?_⟩
  by_contra hnone
  push Not at hnone
  have hu : upcoming us = upcoming vs := by
    rw [← show used ++ vs = us from hused]
    exact upcoming_append_of_trivia (fun t ht => by simpa using hnone t ht) vs
  have heq : measure (p, vs) = measure (p, us) := by
    simp only [measure, hu, nextKind_congr hu]
  rw [heq] at hlt
  exact lt_irrefl _ hlt

/-! ## Files -/

/-- Every list of tokens is read as a file. The fuel for it, which the number of tokens bounds, is not used
up, and the reading takes all tokens up to the end: all of them, unless there is one that says that the file
ends. There is no endless chain of calls on the way, everything that is called has a reading, and a rule or
a loop that comes around again has read a token since. -/
theorem file_ends (ts : List Token) :
    (∃ r, read grammar (fuelFor ts) (.rule .file) ts = some r ∧
      Tree.leavesOf r.trees = ts.takeWhile (fun t => t.kind ≠ .eof) ∧
      r.rest = ts.dropWhile (fun t => t.kind ≠ .eof) ∧
      ((∀ t ∈ ts, t.kind ≠ .eof) → Tree.leavesOf r.trees = ts ∧ r.rest = [])) ∧
    Acc (fun y x => Calls x y) (.rule .file, ts) ∧
    ∀ p us, Relation.ReflTransGen Calls (.rule .file, ts) (p, us) →
      (∃ n r, read grammar n p us = some r) ∧
      ∀ vs, Relation.TransGen Calls (p, us) (p, vs) →
        ∃ used, us = used ++ vs ∧ ∃ t ∈ used, t.kind.isTrivia = false := by
  have hfile : (Phrase.rule Rule.file).sane = true := by decide
  refine ⟨?_, acc_calls hfile, fun p us h => ?_⟩
  · obtain ⟨r, hr⟩ := exists_read_file ts
    obtain rfl := (makes_of_read hr).readFile_eq
    obtain ⟨hleaves, hrest⟩ := leaves_and_rest_readFile ts
    refine ⟨_, hr, hleaves, hrest, fun hk => ⟨?_, rest_readFile hk⟩⟩
    rw [hleaves, List.takeWhile_eq_self_iff]
    simpa using hk
  · have hp := sane_of_reflTransGen h hfile
    obtain ⟨r, hr⟩ := exists_makes_of_sane hp us
    obtain ⟨n, hn⟩ := hr.exists_read
    exact ⟨⟨n, r, hn⟩, fun vs => exists_read_between hp⟩

/-- A mark that closes no block and a bracket that closes none: the loop of the file comes around behind the
mark. -/
theorem file_ends_stray :
    (∃ r, read grammar (fuelFor [⟨.dedent, ""⟩, ⟨.rParen, ")"⟩]) (.rule .file)
      [⟨.dedent, ""⟩, ⟨.rParen, ")"⟩] = some r ∧
      Tree.leavesOf r.trees = [⟨.dedent, ""⟩, ⟨.rParen, ")"⟩] ∧ r.rest = []) ∧
    ∃ used : List Token, [⟨.dedent, ""⟩, ⟨.rParen, ")"⟩] = used ++ [⟨.rParen, ")"⟩] ∧
      ∃ t ∈ used, t.kind.isTrivia = false := by
  obtain ⟨⟨r, hr, -, -, hwhole⟩, -, hcalls⟩ := file_ends [⟨.dedent, ""⟩, ⟨.rParen, ")"⟩]
  have hloop : Relation.ReflTransGen Calls (.rule .file, [⟨.dedent, ""⟩, ⟨.rParen, ")"⟩])
      (.many (.not (is .eof)) fileItem, [⟨.dedent, ""⟩, ⟨.rParen, ")"⟩]) :=
    .tail (.single .rule) (grammar_file ▸ .seqLeft)
  have hitem : Makes grammar fileItem [⟨.dedent, ""⟩, ⟨.rParen, ")"⟩]
      ⟨[.node .error [.token ⟨.dedent, ""⟩]], [⟨.rParen, ")"⟩], []⟩ := makes_of_read (n := 8) rfl
  exact ⟨⟨r, hr, hwhole (by decide)⟩, (hcalls _ _ hloop).2 _ (.single (.again rfl hitem))⟩

end Renumber.Grammar
