import Renumber.Proofs.Grammar.Bare

/-!
# Where a name starts

The trivia in front of a name stand in front of its node and not in it: a name is read right after the trivia
before it, and no name adopts anything. So the first child of every name that is read is its identifier
(`Makes.tidy`), which is where the matcher looks for it.
-/

namespace Renumber

/-- No name in the tree starts with trivia. -/
inductive Tree.Tidy : Tree → Prop
  | token (t : Token) : Tidy (.token t)
  | node {k : Kind} {cs : List Tree} (hname : k = .name → ∀ c ∈ cs.head?, c.isTrivia = false)
      (hcs : ∀ c ∈ cs, Tidy c) : Tidy (.node k cs)

namespace Grammar

open Phrase

/-- A name with the trivia in front of it. -/
def nameAfterTrivia : P := seq trivia (enclose .name next)

/-- The phrase reads names in their places only. -/
def Phrase.tidy : P → Bool
  | .done | .trivia | .next | .fault _ => true
  | .seq p q => (seq p q == nameAfterTrivia) || (p.tidy && q.tidy)
  | .branch _ p q => p.tidy && q.tidy
  | .many _ p => p.tidy
  | .enclose k p => k != .name && p.tidy
  | .adopt p q => p.tidy && q.tidy && q.adopting
  | .rule a => rules.contains a

theorem rules_tidy : rules.all (fun a => (grammar a).tidy) = true := by decide +kernel

theorem Rule.phrase_tidy {a : Rule} (h : rules.contains a = true) : (grammar a).tidy = true :=
  List.all_eq_true.1 rules_tidy a (by simpa using h)

section
variable {p : P} {ts : List Token} {r : Reading}

theorem tidy_map_token (ts : List Token) : ∀ t ∈ ts.map Tree.token, t.Tidy := by
  intro t ht
  obtain ⟨u, -, rfl⟩ := List.mem_map.1 ht
  exact .token u

theorem Makes.tidy_nameAfterTrivia (h : Makes grammar nameAfterTrivia ts r) :
    ∀ t ∈ r.trees, t.Tidy := by
  cases h with
  | seq htrivia hname =>
  cases htrivia with
  | trivia =>
  cases hname with
  | enclose hnext =>
  cases hnext with
  | next =>
  intro t ht
  rcases List.mem_append.1 ht with ht | ht
  · exact tidy_map_token _ t ht
  · rw [List.mem_singleton.1 ht, pending_upcoming, upcoming_upcoming, List.nil_append]
    refine .node (fun _ c hc => ?_) (tidy_map_token _)
    cases hu : upcoming ts with
    | nil => rw [hu] at hc; cases hc
    | cons u us =>
      rw [hu] at hc
      cases hc
      exact not_trivia_of_upcoming hu

/-- A node that adopts tidy trees and may do so is tidy. -/
theorem tidy_adopt {k : Kind} {cs ds : List Tree} (hk : k.isFlat = false) (hcs : ∀ t ∈ cs, t.Tidy)
    (hn : (Tree.node k ds).Tidy) : (Tree.node k (cs ++ ds)).Tidy := by
  cases hn with
  | node _ hds =>
    refine .node (fun h => ?_) fun c hc => (List.mem_append.1 hc).elim (hcs c) (hds c)
    rw [h] at hk
    cases hk

/-- What is read is tidy. -/
theorem Makes.tidy (h : Makes grammar p ts r) (hp : p.tidy = true) : ∀ t ∈ r.trees, t.Tidy := by
  induction h with
  | done | fault | stop => exact List.forall_mem_nil _
  | trivia | next => exact tidy_map_token _
  | seq ha hb iha ihb =>
    simp only [Phrase.tidy, Bool.or_eq_true, beq_iff_eq, Bool.and_eq_true] at hp
    rcases hp with hname | hp
    · exact tidy_nameAfterTrivia (hname ▸ ha.seq hb)
    · exact fun t ht => (List.mem_append.1 ht).elim (iha hp.1 t) (ihb hp.2 t)
  | again _ _ _ iha ihb => exact fun t ht => (List.mem_append.1 ht).elim (iha hp t) (ihb hp t)
  | left _ _ ih =>
    simp only [Phrase.tidy, Bool.and_eq_true] at hp
    exact ih hp.1
  | right _ _ ih =>
    simp only [Phrase.tidy, Bool.and_eq_true] at hp
    exact ih hp.2
  | enclose _ ih =>
    simp only [Phrase.tidy, Bool.and_eq_true, bne_iff_ne] at hp
    intro t ht
    rw [List.mem_singleton.1 ht]
    exact .node (fun h => absurd h hp.1) (ih hp.2)
  | adopt _ hb iha ihb =>
    simp only [Phrase.tidy, Bool.and_eq_true] at hp
    exact forall_adoptAll tidy_adopt (iha hp.1.1) fun t ht => ⟨ihb hp.1.2 t ht, hb.nodes_of_adopting hp.2 t ht⟩
  | rule _ ih => exact ih (Rule.phrase_tidy hp)

end

end Grammar

/-- The tree of a source is tidy. -/
theorem tidy_parse (source : String) : (parse source).tree.Tidy :=
  .node (fun h => by cases h) ((Grammar.makes_readFile (tokensOf source)).tidy (by decide))

end Renumber
