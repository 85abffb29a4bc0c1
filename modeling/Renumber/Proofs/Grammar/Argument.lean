import Renumber.Proofs.Grammar.Clean

/-!
# Arguments

An argument is one node (`exists_node_of_argument`); the trivia in front of it come out in front of the
node (`Reads.argument_append`); and a number by itself is one, if a comma or a closing parenthesis follows
(`reads_number`). Between an argument and an atom the grammar has a rule for each precedence of operators,
all built in one way: an operand becomes the first child of what comes after it, if anything does
(`Reads.operand`).
-/

namespace Renumber.Grammar

open Phrase

section
variable {p q : P} {ts us : List Token} {as : List Tree}

/-! ## One node -/

/-- The rules that build one node. -/
def loneRules : List Rule :=
  [.argument, .namedExprTest, .test, .lambdaExpr, .orTest, .andTest, .notTest, .comparison, .bitOr,
   .bitXor, .bitAnd, .shift, .arith, .term, .factor, .power, .atom]

/-- Without trivia in front, the phrase builds one node or reports something. -/
def Phrase.lone : P → Bool
  | .seq .trivia q => q.lone
  | .seq (.fault _) _ => true
  | .fault _ => true
  | .branch _ p q => p.lone && q.lone
  | .enclose .. => true
  | .adopt p q => p.lone && q.adopting
  | .rule a => loneRules.contains a
  | _ => false

theorem rules_lone : loneRules.all (fun a => (grammar a).lone) = true := by decide +kernel

theorem exists_node_of_adoptAll {k : Kind} {cs : List Tree} {ns : List Tree}
    (h : ∀ n ∈ ns, ∃ j ds, n = .node j ds) :
    ∃ j ds, adoptAll [.node k cs] ns = [.node j ds] := by
  induction ns generalizing k cs with
  | nil => exact ⟨k, cs, rfl⟩
  | cons n ns ih =>
    obtain ⟨j, ds, rfl⟩ := h n List.mem_cons_self
    exact ih fun m hm => h m (List.mem_cons_of_mem _ hm)

theorem Reads.exists_node (h : Reads p ts as us) (hp : p.lone = true) (hts : pending ts = []) :
    ∃ k cs, as = [.node k cs] := by
  induction h with
  | @seq p q ts us vs as bs hp' hq' _ ihq =>
    cases p with
    | trivia =>
      cases hp'
      rw [hts]
      exact ihq hp (pending_upcoming _)
    | fault _ => cases hp'
    | _ => cases hp
  | left _ _ ih =>
    simp only [lone, Bool.and_eq_true] at hp
    exact ih hp.1 hts
  | right _ _ ih =>
    simp only [lone, Bool.and_eq_true] at hp
    exact ih hp.2 hts
  | enclose _ _ => exact ⟨_, _, rfl⟩
  | adopt _ hq' ihp _ =>
    simp only [lone, Bool.and_eq_true] at hp
    obtain ⟨k, cs, rfl⟩ := ihp hp.1 hts
    refine exists_node_of_adoptAll fun t ht => ?_
    obtain ⟨j, ds, rfl, -, -⟩ := hq'.makes.nodes_of_adopting hp.2 t ht
    exact ⟨j, ds, rfl⟩
  | rule _ ih =>
    simp only [lone, List.contains_iff_mem] at hp
    exact ih (List.all_eq_true.1 rules_lone _ hp) hts
  | _ => cases hp

theorem exists_node_of_argument (h : Reads (rule .argument) ts as us) (hts : pending ts = []) :
    ∃ k cs, as = [.node k cs] :=
  h.exists_node (by decide) hts

/-! ## Trivia in front -/

theorem Reads.trivia_append {ws : List Token} (hws : ∀ w ∈ ws, w.kind.isTrivia = true)
    (h : Reads (.seq .trivia q) ts as us) :
    Reads (.seq .trivia q) (ws ++ ts) (ws.map .token ++ as) us := by
  cases h with
  | seq hp hq =>
    cases hp
    have h : Reads .trivia (ws ++ ts) _ _ := .trivia
    rw [pending_append_of_trivia hws, upcoming_append_of_trivia hws] at h
    rw [← List.append_assoc, ← List.map_append]
    exact .seq h hq

theorem Look.holds_append_of_trivia {ws : List Token} (hws : ∀ w ∈ ws, w.kind.isTrivia = true)
    (ts : List Token) (l : Look) : l.holds (ws ++ ts) = l.holds ts := by
  have hu := upcoming_append_of_trivia hws ts
  refine holds_congr (nextKind_congr hu) ?_ ?_ l
  · rw [nextText, nextText, hu]
  · rw [secondKind, secondKind, hu]

/-- The trivia in front of an argument come out in front of it. -/
theorem Reads.argument_append {ws : List Token} (hws : ∀ w ∈ ws, w.kind.isTrivia = true)
    (h : Reads (.rule .argument) ts as us) :
    Reads (.rule .argument) (ws ++ ts) (ws.map .token ++ as) us := by
  cases h with
  | rule h =>
    cases h with
    | left hl h => exact .rule (.left ((Look.holds_append_of_trivia hws ts _).trans hl)
        (h.trivia_append hws))
    | right hl h => exact .rule (.right ((Look.holds_append_of_trivia hws ts _).trans hl)
        (h.trivia_append hws))

/-! ## A number -/

theorem Look.holds_of_nextKind {l : Look} {k : Kind} {b : Bool} (hk : nextKind ts = k)
    (h : (l.may !b).has k = false) : l.holds ts = b := by
  have := l.may_holds ts
  rw [hk] at this
  cases hl : l.holds ts <;> cases b <;> simp_all

theorem Reads.of_pending (hts : pending ts = []) : Reads .trivia ts [] ts := by
  have h : Reads .trivia ts _ _ := .trivia
  rwa [hts, upcoming_eq_self_iff.2 hts] at h

/-- What is read becomes a part of what comes after it. -/
theorem Reads.adopted {bs : List Tree} {vs : List Token} (h : Reads p ts as us)
    (hq : Reads q us bs vs) (hts : pending ts = []) :
    Reads (.seq .trivia (.adopt p q)) ts (adoptAll as bs) vs :=
  .seq (.of_pending hts) (.adopt h hq)

/-- An operand is what comes out if nothing that may adopt it comes after it. -/
theorem Reads.operand (h : Reads p ts as us) (hq : Reads q us [] us) (hts : pending ts = []) :
    Reads (.seq .trivia (.adopt p q)) ts as us :=
  h.adopted hq hts

theorem Reads.node {k : Kind} {ps : List P} (h : Reads (steps ps) ts as us)
    (hts : pending ts = []) : Reads (node k ps) ts [.node k as] us :=
  .seq (.of_pending hts) (.enclose h)

/-- A number in front of a comma or a closing parenthesis is an argument. -/
theorem reads_number {t : Token} (ht : t.kind = .number)
    (hus : nextKind us = .comma ∨ nextKind us = .rParen) :
    Reads (rule .argument) (t :: us) [.node .literal [.token t]] us := by
  have htriv : t.kind.isTrivia = false := by rw [ht]; rfl
  have hts : pending (t :: us) = [] :=
    upcoming_eq_self_iff.1 (upcoming_cons_of_not_trivia htriv us)
  have hhere {l : Look} {b : Bool} (h : (l.may !b).has .number = false) :
      l.holds (t :: us) = b :=
    Look.holds_of_nextKind ((nextKind_cons htriv us).trans ht) h
  have hafter {l : Look} (h : ((l.may true).has .comma || (l.may true).has .rParen) = false) :
      l.holds us = false := by
    rw [Bool.or_eq_false_iff] at h
    exact hus.elim (fun hk => Look.holds_of_nextKind hk h.1) fun hk => Look.holds_of_nextKind hk h.2
  -- From the atom up to the argument, no operator comes after the number.
  have hatom : Reads (rule .atom) (t :: us) [.node .literal [.token t]] us :=
    .rule (.right (hhere (by decide)) (.left (hhere (by decide)) (.node (.of_next_nil htriv) hts)))
  have hpower := Reads.rule (a := .power) (.right (hhere (by decide))
    (hatom.operand (.right (hafter (by decide)) .done) hts))
  have hfactor := Reads.rule (a := .factor) (.right (hhere (by decide)) hpower)
  have hterm := Reads.rule (a := .term) (hfactor.operand (.stop (hafter (by decide))) hts)
  have harith := Reads.rule (a := .arith) (hterm.operand (.stop (hafter (by decide))) hts)
  have hshift := Reads.rule (a := .shift) (harith.operand (.stop (hafter (by decide))) hts)
  have hand := Reads.rule (a := .bitAnd) (hshift.operand (.stop (hafter (by decide))) hts)
  have hxor := Reads.rule (a := .bitXor) (hand.operand (.stop (hafter (by decide))) hts)
  have hor := Reads.rule (a := .bitOr) (hxor.operand (.stop (hafter (by decide))) hts)
  have hcomparison := Reads.rule (a := .comparison)
    (hor.operand (.stop (hafter (by decide))) hts)
  have hnot := Reads.rule (a := .notTest) (.right (hhere (by decide)) hcomparison)
  have handTest := Reads.rule (a := .andTest) (hnot.operand (.stop (hafter (by decide))) hts)
  have horTest := Reads.rule (a := .orTest) (handTest.operand (.stop (hafter (by decide))) hts)
  have htest := Reads.rule (a := .test) (.right (hhere (by decide))
    (horTest.operand (.right (hafter (by decide)) .done) hts))
  have hnamed := Reads.rule (a := .namedExprTest)
    (htest.operand (.right (hafter (by decide)) .done) hts)
  exact .rule (.right (hhere (by decide))
    (hnamed.operand (.right (hafter (by decide)) .done) hts))

end

end Renumber.Grammar
