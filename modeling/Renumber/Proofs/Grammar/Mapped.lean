import Renumber.Proofs.Grammar.Progress

/-!
# Tokens with other texts

The grammar goes by kinds. The only text that it asks for is that of the word `exec` (`Phrase.worded`). So
when a change of the tokens keeps their kinds and the word, a phrase reads of the changed tokens what it reads
of the others, with the tokens changed (`Makes.map`).
-/

namespace Renumber

namespace Tree

mutual

/-- The tree with every token changed. -/
def mapTokens (f : Token → Token) : Tree → Tree
  | token t => token (f t)
  | node k cs => node k (mapTokensOf f cs)

/-- The trees with every token changed. -/
def mapTokensOf (f : Token → Token) : List Tree → List Tree
  | [] => []
  | t :: ts => t.mapTokens f :: mapTokensOf f ts

end

section
variable (f : Token → Token)

@[simp] theorem mapTokens_token (t : Token) : (token t).mapTokens f = token (f t) := by
  rw [mapTokens]

@[simp] theorem mapTokens_node (k : Kind) (cs : List Tree) :
    (node k cs).mapTokens f = node k (mapTokensOf f cs) := by
  rw [mapTokens]

theorem mapTokensOf_eq_map (ts : List Tree) : mapTokensOf f ts = ts.map (mapTokens f) := by
  induction ts with
  | nil => rw [mapTokensOf, List.map_nil]
  | cons t ts ih => rw [mapTokensOf, ih, List.map_cons]

@[simp] theorem mapTokensOf_map_token (ts : List Token) :
    mapTokensOf f (ts.map token) = (ts.map f).map token := by
  rw [mapTokensOf_eq_map, List.map_map, List.map_map]
  exact List.map_congr_left fun t _ => mapTokens_token f t

end

end Tree

/-- The fault in front of the changed tokens. -/
def Fault.mapTokens (f : Token → Token) (e : Fault) : Fault := ⟨e.problem, e.rest.map f⟩

/-- The reading of the changed tokens. -/
def Grammar.Reading.mapTokens (f : Token → Token) (r : Grammar.Reading) : Grammar.Reading :=
  ⟨r.trees.map (Tree.mapTokens f), r.rest.map f, r.faults.map (Fault.mapTokens f)⟩

namespace Grammar

open Phrase

/-! ## Conditions on texts -/

/-- The condition asks for no other text than that of one word. -/
def Look.worded : Look → Bool
  | .next _ | .second _ => true
  | .text s => s == "exec"
  | .both a b | .either a b => a.worded && b.worded
  | .not a => a.worded

/-- No condition of the phrase asks for the text of another word. -/
def Phrase.worded : P → Bool
  | .done | .trivia | .next | .fault _ => true
  | .seq p q | .adopt p q => p.worded && q.worded
  | .branch l p q => l.worded && p.worded && q.worded
  | .many l p => l.worded && p.worded
  | .enclose _ p => p.worded
  | .rule a => rules.contains a

theorem rules_worded : rules.all (fun a => (grammar a).worded) = true := by decide +kernel

theorem Rule.phrase_worded {a : Rule} (h : rules.contains a = true) : (grammar a).worded = true :=
  List.all_eq_true.1 rules_worded a (by simpa using h)

/-! ## Readings -/

/-- A change of tokens that the grammar does not notice. -/
structure Unnoticed (f : Token → Token) : Prop where
  kind : ∀ t, (f t).kind = t.kind
  word : ∀ t, ((f t).text == "exec") = (t.text == "exec")

section
variable {f : Token → Token} (hf : Unnoticed f)
include hf

theorem upcoming_map (ts : List Token) : upcoming (ts.map f) = (upcoming ts).map f := by
  simp only [upcoming, List.dropWhile_map, Function.comp_def, hf.kind]

theorem pending_map (ts : List Token) : pending (ts.map f) = (pending ts).map f := by
  simp only [pending, List.takeWhile_map, Function.comp_def, hf.kind]

theorem nextKind_map (ts : List Token) : nextKind (ts.map f) = nextKind ts := by
  rw [nextKind, upcoming_map hf, List.head?_map, Option.map_map, nextKind]
  congr 2
  funext t
  exact hf.kind t

theorem secondKind_map (ts : List Token) : secondKind (ts.map f) = secondKind ts := by
  rw [secondKind, upcoming_map hf, ← List.map_drop, nextKind_map hf, secondKind]

theorem Look.holds_map {l : Look} (hl : l.worded = true) (ts : List Token) :
    l.holds (ts.map f) = l.holds ts := by
  induction l with
  | next ks => rw [holds, holds, nextKind_map hf]
  | second ks => rw [holds, holds, secondKind_map hf]
  | text s =>
    obtain rfl := beq_iff_eq.1 hl
    rw [holds, holds, nextText, nextText, upcoming_map hf]
    cases upcoming ts with
    | nil => rfl
    | cons t us => exact hf.word t
  | both a b iha ihb | either a b iha ihb =>
    rw [worded, Bool.and_eq_true] at hl
    rw [holds, holds, iha hl.1, ihb hl.2]
  | not a ih => rw [holds, holds, ih hl]

omit hf in
theorem adoptAll_map (cs ns : List Tree) : adoptAll (cs.map (Tree.mapTokens f))
    (ns.map (Tree.mapTokens f)) = (adoptAll cs ns).map (Tree.mapTokens f) := by
  induction ns generalizing cs with
  | nil => rfl
  | cons n ns ih =>
    have hone : adoptOne (cs.map (Tree.mapTokens f)) (n.mapTokens f) =
        (adoptOne cs n).map (Tree.mapTokens f) := by
      cases n <;> simp [adoptOne, Tree.mapTokensOf_eq_map]
    show adoptAll (adoptOne _ _) _ = (adoptAll (adoptOne cs n) ns).map _
    rw [hone, ih]

/-- A phrase reads of the changed tokens what it reads of the others, with the tokens changed. -/
theorem Makes.map {p : P} {ts : List Token} {r : Reading} (h : Makes grammar p ts r)
    (hp : p.worded = true) : Makes grammar p (ts.map f) (r.mapTokens f) := by
  have htokens (ts : List Token) :
      (ts.map f).map Tree.token = (ts.map Tree.token).map (Tree.mapTokens f) := by
    rw [← Tree.mapTokensOf_map_token, Tree.mapTokensOf_eq_map]
  induction h with
  | done => exact .done
  | @trivia ts =>
    have h : Makes grammar .trivia (ts.map f) _ := .trivia
    rwa [pending_map hf, upcoming_map hf, htokens] at h
  | @next ts =>
    have h : Makes grammar .next (ts.map f) _ := .next
    rwa [pending_map hf, upcoming_map hf, ← List.map_take, ← List.map_drop, ← List.map_append,
      htokens] at h
  | @fault problem ts =>
    have h : Makes grammar (.fault problem) (ts.map f) _ := .fault
    rwa [upcoming_map hf] at h
  | seq _ _ iha ihb =>
    rw [worded, Bool.and_eq_true] at hp
    simpa [Reading.mapTokens] using (iha hp.1).seq (ihb hp.2)
  | left hl _ ih =>
    rw [worded, Bool.and_eq_true, Bool.and_eq_true] at hp
    exact .left ((Look.holds_map hf hp.1.1 _).trans hl) (ih hp.1.2)
  | right hl _ ih =>
    rw [worded, Bool.and_eq_true, Bool.and_eq_true] at hp
    exact .right ((Look.holds_map hf hp.1.1 _).trans hl) (ih hp.2)
  | stop hl =>
    rw [worded, Bool.and_eq_true] at hp
    exact .stop ((Look.holds_map hf hp.1 _).trans hl)
  | again hl _ _ iha ihb =>
    have hmany := hp
    rw [worded, Bool.and_eq_true] at hp
    simpa [Reading.mapTokens] using
      Makes.again ((Look.holds_map hf hp.1 _).trans hl) (iha hp.2) (ihb hmany)
  | enclose _ ih => simpa [Reading.mapTokens, Tree.mapTokensOf_eq_map] using (ih hp).enclose
  | adopt _ _ iha ihb =>
    rw [worded, Bool.and_eq_true] at hp
    simpa [Reading.mapTokens, adoptAll_map] using (iha hp.1).adopt (ihb hp.2)
  | rule _ ih => exact .rule (ih (Rule.phrase_worded hp))

/-- What is read of a file of changed tokens. -/
theorem readFile_map (ts : List Token) : readFile (ts.map f) = (readFile ts).mapTokens f :=
  ((makes_readFile ts).map hf (by decide +kernel)).readFile_eq

end

end Grammar

end Renumber
