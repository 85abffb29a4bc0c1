import Renumber.Proofs.Grammar.Regular

/-!
# Trivia stay in front of nodes

No node below the root of a tree starts with trivia, whatever is wrong with the source (`led_parse`). A
node is opened only when the trivia in front of the next token have been read (`Phrase.flushes`), so its
first token is the next one. A node that adopts what stands in front of it is opened later, perhaps in front
of trivia; but it adopts something that was opened in time, unless nothing has been read since
(`led_adoptAll`). That the rules keep to this is checked once (`rules_led`).
-/

namespace Renumber

namespace Tree

/-- Some trees do not start with trivia. -/
def Clear (ts : List Tree) : Prop := ∀ w, ts.head? = some (token w) → w.kind.isTrivia = false

theorem clear_node (k : Kind) (cs ts : List Tree) : Clear (node k cs :: ts) := by
  intro w h
  cases h

theorem Clear.append {ts : List Tree} (h : Clear ts) {us : List Tree} (hus : ts = [] → Clear us) :
    Clear (ts ++ us) := by
  cases ts with
  | nil => exact hus rfl
  | cons t ts => exact h

theorem Clear.of_append {ts us : List Tree} (h : Clear (ts ++ us)) (hts : ts ≠ []) (vs : List Tree) :
    Clear (ts ++ vs) := by
  cases ts with
  | nil => exact absurd rfl hts
  | cons t ts => exact h

/-- Tokens without trivia in front are held by trees that do not start with trivia. -/
theorem clear_of_leaves {ts : List Tree} (us : List Token)
    (h : Grammar.pending (leavesOf ts ++ us) = []) : Clear ts := by
  intro w hw
  cases ts with
  | nil => cases hw
  | cons t ts =>
    obtain rfl : t = token w := Option.some.inj hw
    simpa [Grammar.pending] using h

/-- No node of the tree starts with trivia. -/
inductive Led : Tree → Prop
  | token (t : Token) : Led (.token t)
  | node {k : Kind} {cs : List Tree} (hhead : Clear cs) (hcs : ∀ c ∈ cs, Led c) : Led (.node k cs)

/-- What is below the tree is led, perhaps not the tree itself. -/
def LedBelow (t : Tree) : Prop := ∃ k cs, t = node k cs ∧ ∀ c ∈ cs, Led c

end Tree

namespace Grammar

open Phrase

section
variable {α : Type}

/-- No trivia are pending after the phrase, if the same is known of the tokens in front of it. -/
def Phrase.flushes (flushed : Bool) : Phrase α → Bool
  | .trivia => true
  | .done | .fault _ => flushed
  | .seq p q => q.flushes (p.flushes flushed)
  | .branch _ p q => p.flushes flushed && q.flushes flushed
  | _ => false

end

mutual

/-- The phrase opens nodes only where no trivia are pending, if it is known whether there are some in
front of it. -/
def Phrase.led (flushed : Bool) : P → Bool
  | .done | .trivia | .next | .fault _ => true
  | .seq p q => p.led flushed && q.led (p.flushes flushed)
  | .branch _ p q => p.led flushed && q.led flushed
  | .many _ p => p.led false
  | .enclose _ p => flushed && p.led true
  | .adopt p q => flushed && p.led true && q.leads
  | .rule a => rules.contains a

/-- The phrase reads nodes that adopt what stands in front of them, and is led below them. -/
def Phrase.leads : P → Bool
  | .done => true
  | .branch _ p q => p.leads && q.leads
  | .many _ p => p.leads
  | .enclose _ p => p.led false
  | _ => false

end

theorem rules_led : rules.all (fun a => (grammar a).led false) = true := by decide +kernel

theorem Rule.phrase_led {a : Rule} (h : rules.contains a = true) : (grammar a).led false = true :=
  List.all_eq_true.1 rules_led a (by simpa using h)

/-- Led trees that some nodes adopt, one after the other, make led trees. If there are none, the first of
the nodes must not start with trivia. -/
theorem led_adoptAll {cs ns : List Tree} (hcs : ∀ t ∈ cs, t.Led) (hhead : Tree.Clear cs)
    (hns : ∀ t ∈ ns, t.LedBelow)
    (hfirst : cs = [] → ∀ k ds, ns.head? = some (.node k ds) → Tree.Clear ds) :
    ∀ t ∈ adoptAll cs ns, t.Led := by
  induction ns generalizing cs with
  | nil => exact hcs
  | cons n ns ih =>
    obtain ⟨k, ds, rfl, hds⟩ := hns n List.mem_cons_self
    have hn : (Tree.node k (cs ++ ds)).Led :=
      .node (hhead.append fun h => hfirst h k ds rfl)
        fun c hc => (List.mem_append.1 hc).elim (hcs c) (hds c)
    exact ih (fun t ht => List.mem_singleton.1 ht ▸ hn) (Tree.clear_node k _ _)
      (fun t ht => hns t (List.mem_cons_of_mem _ ht)) fun h => (List.cons_ne_nil _ _ h).elim

section
variable {p : P} {ts : List Token} {r : Reading} {flushed : Bool}

theorem Makes.pending_of_flushes (h : Makes grammar p ts r) (hp : p.flushes flushed = true)
    (hts : flushed = true → pending ts = []) : pending r.rest = [] := by
  induction h generalizing flushed with
  | done | fault => exact hts hp
  | trivia => exact pending_upcoming _
  | seq _ _ iha ihb => exact ihb hp fun hf => iha hf hts
  | left _ _ ih =>
    simp only [flushes, Bool.and_eq_true] at hp
    exact ih hp.1 hts
  | right _ _ ih =>
    simp only [flushes, Bool.and_eq_true] at hp
    exact ih hp.2 hts
  | next | stop | again | enclose | adopt | rule => cases hp

/-- A reading that starts behind all trivia does not start with trivia. -/
theorem Makes.clear (h : Makes grammar p ts r) (hts : pending ts = []) : Tree.Clear r.trees :=
  Tree.clear_of_leaves r.rest (by rwa [h.leaves_append])

/-- What is read holds no node that starts with trivia; but what adopts may start with some. -/
theorem Makes.led (h : Makes grammar p ts r) :
    (∀ flushed, p.led flushed = true → (flushed = true → pending ts = []) →
      ∀ t ∈ r.trees, t.Led) ∧
    (p.leads = true → ∀ t ∈ r.trees, t.LedBelow) := by
  induction h with
  | done | fault | stop => exact ⟨fun _ _ _ => List.forall_mem_nil _, fun _ => List.forall_mem_nil _⟩
  | trivia | next =>
    refine ⟨fun _ _ _ t ht => ?_, fun hp => (Bool.false_ne_true hp).elim⟩
    obtain ⟨u, -, rfl⟩ := List.mem_map.1 ht
    exact .token u
  | seq ha _ iha ihb =>
    refine ⟨fun flushed hp hts t ht => ?_, fun hp => (Bool.false_ne_true hp).elim⟩
    simp only [Phrase.led, Bool.and_eq_true] at hp
    exact (List.mem_append.1 ht).elim (iha.1 flushed hp.1 hts t)
      (ihb.1 _ hp.2 (fun hf => ha.pending_of_flushes hf hts) t)
  | left _ _ ih =>
    refine ⟨fun flushed hp hts => ?_, fun hp => ?_⟩ <;>
      simp only [Phrase.led, leads, Bool.and_eq_true] at hp
    · exact ih.1 flushed hp.1 hts
    · exact ih.2 hp.1
  | right _ _ ih =>
    refine ⟨fun flushed hp hts => ?_, fun hp => ?_⟩ <;>
      simp only [Phrase.led, leads, Bool.and_eq_true] at hp
    · exact ih.1 flushed hp.2 hts
    · exact ih.2 hp.2
  | again _ _ _ iha ihb =>
    refine ⟨fun flushed hp hts t ht => ?_, fun hp t ht => ?_⟩
    · exact (List.mem_append.1 ht).elim (iha.1 false hp (fun hf => (Bool.false_ne_true hf).elim) t)
        (ihb.1 false hp (fun hf => (Bool.false_ne_true hf).elim) t)
    · exact (List.mem_append.1 ht).elim (iha.2 hp t) (ihb.2 hp t)
  | @enclose k _ _ a ha ih =>
    refine ⟨fun flushed hp hts t ht => ?_, fun hp t ht => ?_⟩ <;> rw [List.mem_singleton.1 ht]
    · simp only [Phrase.led, Bool.and_eq_true] at hp
      exact .node (ha.clear (hts hp.1)) (ih.1 true hp.2 fun _ => hts hp.1)
    · exact ⟨k, a.trees, rfl, ih.1 false hp fun hf => (Bool.false_ne_true hf).elim⟩
  | @adopt _ _ ts a b ha hb iha ihb =>
    refine ⟨fun flushed hp hts => ?_, fun hp => (Bool.false_ne_true hp).elim⟩
    simp only [Phrase.led, Bool.and_eq_true] at hp
    obtain ⟨⟨hf, hp⟩, hq⟩ := hp
    refine led_adoptAll (iha.1 true hp fun _ => hts hf) (ha.clear (hts hf)) (ihb.2 hq)
      fun hnil k ds hhead => ?_
    -- Nothing has been read, so the first node starts behind all trivia, too.
    have hrest : a.rest = ts := by
      have := ha.leaves_append
      rwa [hnil, Tree.leavesOf_nil, List.nil_append] at this
    obtain ⟨ns, hns⟩ := List.head?_eq_some_iff.1 hhead
    refine Tree.clear_of_leaves (Tree.leavesOf ns ++ b.rest) ?_
    have := hb.leaves_append
    rw [hns, Tree.leavesOf_cons, Tree.leaves_node, List.append_assoc, hrest] at this
    rw [this]
    exact hts hf
  | rule _ ih =>
    exact ⟨fun _ hp _ => ih.1 false (Rule.phrase_led hp) fun hf => (Bool.false_ne_true hf).elim,
      fun hp => (Bool.false_ne_true hp).elim⟩

end

end Grammar

/-- No node below the root of the tree of a source starts with trivia. -/
theorem led_parse (source : String) : ∀ t ∈ (parse source).tree.children, t.Led :=
  (Grammar.makes_readFile (tokensOf source)).led.1 false (by decide) fun hf => (Bool.false_ne_true hf).elim

end Renumber
