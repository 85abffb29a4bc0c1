import Renumber.Proofs.Grammar.Progress

/-!
# Which nodes hold which

What the grammar builds is more orderly than trees in general: only nodes have the kinds of nodes, names
and attributes hold tokens and nothing else (`Regular`). Nodes that adopt what stands in front of them are
never of those kinds, nor calls; so a name, an attribute and a call hold what their own rules have read.
This holds of everything that is read, with or without faults (`Makes.regular`).
-/

namespace Renumber

/-- The kinds of nodes. -/
def Kind.isNode (k : Kind) : Bool := errorToken.raw < k.raw && k.raw ≤ error.raw

/-- The kinds of nodes that hold tokens only. -/
def Kind.isFlat (k : Kind) : Bool := k == .name || k == .attrTrailer

theorem Kind.isTrivia_of_isNode {k : Kind} (h : k.isNode = true) : k.isTrivia = false := by
  cases k <;> first | rfl | exact absurd h (by decide)

/-- The tree holds nodes where nodes belong. -/
inductive Tree.Regular : Tree → Prop
  | token (t : Token) : Regular (.token t)
  | node {k : Kind} {cs : List Tree} (hk : k.isNode = true)
      (hflat : k.isFlat = true → ∀ c ∈ cs, ∃ t, c = .token t) (hcs : ∀ c ∈ cs, Regular c) :
      Regular (.node k cs)

namespace Grammar

open Phrase

section
variable {α : Type}

/-- The phrase builds no node. -/
def Phrase.flat : Phrase α → Bool
  | .done | .trivia | .next | .fault _ => true
  | .seq p q | .branch _ p q => p.flat && q.flat
  | .many _ p => p.flat
  | .enclose .. | .adopt .. | .rule _ => false

/-- The nodes that the phrase builds may adopt what stands in front of them. -/
def Phrase.adopting : Phrase α → Bool
  | .done => true
  | .branch _ p q => p.adopting && q.adopting
  | .many _ p => p.adopting
  | .enclose k _ => !k.isFlat && k != .callTrailer
  | _ => false

end

/-- The phrase builds nodes where nodes belong. -/
def Phrase.regular : P → Bool
  | .done | .trivia | .next | .fault _ => true
  | .seq p q | .branch _ p q => p.regular && q.regular
  | .many _ p => p.regular
  | .enclose k p => k.isNode && (!k.isFlat || p.flat) && p.regular
  | .adopt p q => p.regular && q.regular && q.adopting
  | .rule a => rules.contains a

theorem rules_regular : rules.all (fun a => (grammar a).regular) = true := by decide +kernel

theorem Rule.phrase_regular {a : Rule} (h : rules.contains a = true) :
    (grammar a).regular = true :=
  List.all_eq_true.1 rules_regular a (by simpa using h)

section
variable {p : P} {ts : List Token} {r : Reading}

/-- A phrase that builds no node reads tokens. -/
theorem Makes.tokens_of_flat (h : Makes grammar p ts r) (hp : p.flat = true) :
    ∀ t ∈ r.trees, ∃ u, t = .token u := by
  induction h with
  | done | fault | stop => exact List.forall_mem_nil _
  | trivia | next =>
    intro t ht
    obtain ⟨u, -, rfl⟩ := List.mem_map.1 ht
    exact ⟨u, rfl⟩
  | seq _ _ iha ihb =>
    simp only [flat, Bool.and_eq_true] at hp
    exact fun t ht => (List.mem_append.1 ht).elim (iha hp.1 t) (ihb hp.2 t)
  | again _ _ _ iha ihb => exact fun t ht => (List.mem_append.1 ht).elim (iha hp t) (ihb hp t)
  | left _ _ ih =>
    simp only [flat, Bool.and_eq_true] at hp
    exact ih hp.1
  | right _ _ ih =>
    simp only [flat, Bool.and_eq_true] at hp
    exact ih hp.2
  | enclose | adopt | rule => cases hp

/-- The nodes that may adopt are of kinds that hold other nodes. -/
theorem Makes.nodes_of_adopting (h : Makes grammar p ts r) (hp : p.adopting = true) :
    ∀ t ∈ r.trees, ∃ k cs, t = .node k cs ∧ k.isFlat = false ∧ k ≠ .callTrailer := by
  induction h with
  | done | stop => exact List.forall_mem_nil _
  | left _ _ ih =>
    simp only [adopting, Bool.and_eq_true] at hp
    exact ih hp.1
  | right _ _ ih =>
    simp only [adopting, Bool.and_eq_true] at hp
    exact ih hp.2
  | again _ _ _ iha ihb => exact fun t ht => (List.mem_append.1 ht).elim (iha hp t) (ihb hp t)
  | @enclose k _ _ a =>
    simp only [adopting, Bool.and_eq_true, Bool.not_eq_true', bne_iff_ne] at hp
    intro t ht
    rw [List.mem_singleton.1 ht]
    exact ⟨k, a.trees, rfl, hp⟩
  | seq | trivia | next | fault | adopt | rule => cases hp

/-- What holds of a node that adopts trees holds when several nodes adopt them, one after the other. -/
theorem forall_adoptAll {T : Tree → Prop}
    (hadopt : ∀ {k : Kind} {cs ds : List Tree}, k.isFlat = false → (∀ c ∈ cs, T c) →
      T (.node k ds) → T (.node k (cs ++ ds)))
    {cs ns : List Tree} (hcs : ∀ t ∈ cs, T t)
    (hns : ∀ t ∈ ns, T t ∧ ∃ k ds, t = .node k ds ∧ k.isFlat = false ∧ k ≠ .callTrailer) :
    ∀ t ∈ adoptAll cs ns, T t := by
  induction ns generalizing cs with
  | nil => exact hcs
  | cons n ns ih =>
    obtain ⟨hn, k, ds, rfl, hk, -⟩ := hns n List.mem_cons_self
    exact ih (fun t ht => List.mem_singleton.1 ht ▸ hadopt hk hcs hn)
      fun t ht => hns t (List.mem_cons_of_mem _ ht)

/-- A node that adopts regular trees and may do so is regular. -/
theorem regular_adopt {k : Kind} {cs ds : List Tree} (hk : k.isFlat = false)
    (hcs : ∀ t ∈ cs, t.Regular) (hn : (Tree.node k ds).Regular) :
    (Tree.node k (cs ++ ds)).Regular := by
  cases hn with
  | node hnode _ hds =>
    refine .node hnode (fun h => ?_) fun c hc => (List.mem_append.1 hc).elim (hcs c) (hds c)
    rw [hk] at h
    cases h

/-- What is read is regular. -/
theorem Makes.regular (h : Makes grammar p ts r) (hp : p.regular = true) :
    ∀ t ∈ r.trees, t.Regular := by
  induction h with
  | done | fault | stop => exact List.forall_mem_nil _
  | trivia | next =>
    intro t ht
    obtain ⟨u, -, rfl⟩ := List.mem_map.1 ht
    exact .token u
  | seq _ _ iha ihb =>
    simp only [Phrase.regular, Bool.and_eq_true] at hp
    exact fun t ht => (List.mem_append.1 ht).elim (iha hp.1 t) (ihb hp.2 t)
  | again _ _ _ iha ihb => exact fun t ht => (List.mem_append.1 ht).elim (iha hp t) (ihb hp t)
  | left _ _ ih =>
    simp only [Phrase.regular, Bool.and_eq_true] at hp
    exact ih hp.1
  | right _ _ ih =>
    simp only [Phrase.regular, Bool.and_eq_true] at hp
    exact ih hp.2
  | enclose ha ih =>
    simp only [Phrase.regular, Bool.and_eq_true] at hp
    obtain ⟨⟨hk, hflat⟩, hp⟩ := hp
    intro t ht
    rw [List.mem_singleton.1 ht]
    refine .node hk (fun h => ?_) (ih hp)
    rw [h] at hflat
    exact ha.tokens_of_flat hflat
  | adopt _ hb iha ihb =>
    simp only [Phrase.regular, Bool.and_eq_true] at hp
    exact forall_adoptAll regular_adopt (iha hp.1.1) fun t ht =>
      ⟨ihb hp.1.2 t ht, hb.nodes_of_adopting hp.2 t ht⟩
  | rule _ ih => exact ih (Rule.phrase_regular hp)

end

end Grammar

/-- The tree of a source is regular. -/
theorem regular_parse (source : String) : (parse source).tree.Regular :=
  .node rfl (fun h => by cases h) ((Grammar.makes_readFile (tokensOf source)).regular (by decide))

end Renumber
