import Renumber.Proofs.Grammar.Survey

/-!
# What a phrase never takes

Whether a reading succeeds or reports faults, which kinds of tokens it can take hangs on the kinds of the
next two tokens, and `Phrase.spares` follows these through a phrase: it says that no token of one kind is
taken, if that is so of the rules in front of the tokens that a table admits (`Makes.kind_ne_of_spares`). Two tables
pass the check. No rule ever takes the end of the file for a token (`rules_spare_eof`), so a file is read up
to it and no further (`leaves_and_rest_readFile`); and no rule but those of whole lines takes the end of a line
(`rules_spare_newline`).
-/

namespace Renumber.Grammar

open Phrase

/-- The kinds that the next token and the one after it may have behind a phrase, given those that they may
have in front of it, whether or not the phrase reports a fault. -/
def Phrase.behind (s second : KindSet) : P → KindSet × KindSet
  | .fault _ => (s, second)
  | p => p.after s second

/-- In front of two tokens whose kinds are in two sets, the phrase takes no token of a kind, if the rules
take none in front of the tokens that the table admits. -/
def Phrase.spares (k : Kind) (table : Rule → KindSet) : P → KindSet → KindSet → Bool
  | .done, _, _ | .trivia, _, _ | .fault _, _, _ => true
  | .next, s, _ => !s.has k
  | .seq p q, s, second | .adopt p q, s, second =>
    p.spares k table s second && q.spares k table (p.behind s second).1 (p.behind s second).2
  | .branch l p q, s, second =>
    ((s ∩ l.may true).isEmpty || p.spares k table (s ∩ l.may true) (second ∩ l.maySecond true)) &&
      ((s ∩ l.may false).isEmpty || q.spares k table (s ∩ l.may false) (second ∩ l.maySecond false))
  | .many l p, _, _ => p.spares k table (l.may true) (l.maySecond true)
  | .enclose _ p, s, second => p.spares k table s second
  | .rule a, s, _ => s.within (table a)

/-- The table is true of the rules: in front of the tokens that it admits none of them takes a token of a
kind. -/
def Spared (k : Kind) (table : Rule → KindSet) : Prop :=
  ∀ a j, (table a).has j = true → (grammar a).spares k table (table a) .every = true

section
variable {p : P} {ts : List Token} {r : Reading} {s second : KindSet}

theorem Makes.has_behind (h : Makes grammar p ts r) (hs : s.has (nextKind ts) = true)
    (hsecond : second.has (secondKind ts) = true) :
    (p.behind s second).1.has (nextKind r.rest) = true ∧
      (p.behind s second).2.has (secondKind r.rest) = true := by
  cases h with
  | done | fault => exact ⟨hs, hsecond⟩
  | trivia =>
    refine ⟨?_, ?_⟩
    · rwa [nextKind_congr (upcoming_upcoming ts)]
    · rwa [secondKind, upcoming_upcoming]
  | next => exact ⟨hsecond, KindSet.has_every _⟩
  | _ => exact ⟨KindSet.has_every _, KindSet.has_every _⟩

/-- What a phrase spares is in none of the trees that it reads. -/
theorem Makes.kind_ne_of_spares {k : Kind} {table : Rule → KindSet} (hk : k.isTrivia = false)
    (htable : Spared k table) (h : Makes grammar p ts r)
    (hp : p.spares k table s second = true) (hs : s.has (nextKind ts) = true)
    (hsecond : second.has (secondKind ts) = true) : ∀ t ∈ Tree.leavesOf r.trees, t.kind ≠ k := by
  have htrivia {ts : List Token} : ∀ t ∈ pending ts, t.kind ≠ k := by
    rintro t ht rfl
    rw [trivia_of_mem_pending ht] at hk
    cases hk
  induction h generalizing s second with
  | done | fault | stop => exact List.forall_mem_nil _
  | trivia =>
    rw [Tree.leavesOf_map_token]
    exact htrivia
  | @next ts =>
    rw [Tree.leavesOf_map_token]
    intro t ht
    rcases List.mem_append.1 ht with ht | ht
    · exact htrivia t ht
    · rintro rfl
      obtain ⟨us, hu⟩ : ∃ us, upcoming ts = t :: us := by
        cases hu : upcoming ts with
        | nil => rw [hu] at ht; cases ht
        | cons u us =>
          rw [hu, List.take_succ_cons, List.take_zero, List.mem_singleton] at ht
          exact ⟨us, by rw [ht]⟩
      rw [nextKind_of_upcoming hu] at hs
      simp [spares, hs] at hp
  | seq ha _ iha ihb | adopt ha _ iha ihb =>
    simp only [spares, Bool.and_eq_true] at hp
    obtain ⟨hs', hsecond'⟩ := ha.has_behind hs hsecond
    intro t ht
    simp only [Tree.leavesOf_append, leavesOf_adoptAll] at ht
    exact (List.mem_append.1 ht).elim (iha hp.1 hs hsecond t) (ihb hp.2 hs' hsecond' t)
  | left hl _ ih =>
    have hs' := has_inter_may hs hl
    simp only [spares, Bool.and_eq_true, KindSet.not_isEmpty_of_has hs', Bool.false_or] at hp
    exact ih hp.1 hs' (has_inter_maySecond hsecond hl)
  | right hl _ ih =>
    have hs' := has_inter_may hs hl
    simp only [spares, Bool.and_eq_true, KindSet.not_isEmpty_of_has hs', Bool.false_or] at hp
    exact ih hp.2 hs' (has_inter_maySecond hsecond hl)
  | @again l p ts _ _ hl _ _ iha ihb =>
    -- the loop spares the same wherever it starts
    have hmany : (many l p).spares k table .every .every = true := hp
    intro t ht
    rw [Tree.leavesOf_append] at ht
    exact (List.mem_append.1 ht).elim (iha hp (hl ▸ l.may_holds ts) (hl ▸ l.maySecond_holds ts) t)
      (ihb hmany (KindSet.has_every _) (KindSet.has_every _) t)
  | enclose _ ih =>
    intro t ht
    rw [Tree.leavesOf_cons, Tree.leaves_node, Tree.leavesOf_nil, List.append_nil] at ht
    exact ih hp hs hsecond t ht
  | rule _ ih =>
    have hnext := KindSet.has_of_within hp hs
    exact ih (htable _ _ hnext) hnext (KindSet.has_every _)

end

/-! ## The end of the file -/

/-- In front of which tokens the grammar calls a rule. A file may start with any token. -/
def Rule.admitsAll (a : Rule) : KindSet := if a = .file then .every else a.admits

theorem rules_spare_eof :
    rules.all (fun a => (grammar a).spares .eof Rule.admitsAll a.admitsAll .every) = true := by
  decide +kernel

theorem spared_eof : Spared .eof Rule.admitsAll := by
  intro a j hj
  refine List.all_eq_true.1 rules_spare_eof a ?_
  unfold Rule.admitsAll at hj
  split at hj
  · rename_i ha
    subst ha
    decide
  · exact Rule.mem_of_admits hj

/-- A file is read up to the first token that is the end of it, if there is one. -/
theorem leaves_and_rest_readFile (ts : List Token) :
    Tree.leavesOf (readFile ts).trees = ts.takeWhile (fun t => t.kind ≠ .eof) ∧
      (readFile ts).rest = ts.dropWhile fun t => t.kind ≠ .eof := by
  have hfile := makes_readFile ts
  have hspares : (Phrase.rule Rule.file).spares .eof Rule.admitsAll .every .every = true := rfl
  have hleaves := hfile.kind_ne_of_spares rfl spared_eof hspares (KindSet.has_every _)
    (KindSet.has_every _)
  obtain ⟨hrest, hend⟩ := nextKind_rest_readFile ts
  have hfirst : (readFile ts).rest.takeWhile (fun t => t.kind ≠ .eof) = [] := by
    cases hr : (readFile ts).rest with
    | nil => rfl
    | cons t us =>
      rw [hr] at hrest hend
      rw [nextKind_of_upcoming hrest] at hend
      exact List.takeWhile_cons_of_neg (by simp [hend])
  have hts := hfile.leaves_append
  generalize readFile ts = r at hleaves hfirst hts ⊢
  have htake : ts.takeWhile (fun t => t.kind ≠ .eof) = Tree.leavesOf r.trees := by
    rw [← hts, List.takeWhile_append_of_pos (by simpa using hleaves), hfirst, List.append_nil]
  refine ⟨htake.symm, ?_⟩
  rw [← List.takeWhile_append_dropWhile (p := fun t => t.kind ≠ .eof) (l := ts), htake] at hts
  exact List.append_cancel_left hts

/-! ## The end of a line -/

/-- In front of which tokens the grammar calls a rule that is not one of whole lines. -/
def Rule.admitsInLine (a : Rule) : KindSet := if lineRules.contains a then .of [] else a.admits

theorem rules_spare_newline : rules.all (fun a => lineRules.contains a ||
    (grammar a).spares .newline Rule.admitsInLine a.admitsInLine .every) = true := by
  decide +kernel

theorem spared_newline : Spared .newline Rule.admitsInLine := by
  intro a j hj
  have hline : lineRules.contains a = false := by
    by_contra hline
    rw [Rule.admitsInLine, if_pos (by simpa using hline), KindSet.has_of] at hj
    cases hj
  have hmem : a ∈ rules := by
    rw [Rule.admitsInLine, hline] at hj
    exact Rule.mem_of_admits hj
  have hspares := List.all_eq_true.1 rules_spare_newline a hmem
  rwa [hline, Bool.false_or] at hspares

end Renumber.Grammar
