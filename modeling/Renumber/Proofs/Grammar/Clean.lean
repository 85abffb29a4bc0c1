import Renumber.Proofs.Grammar.Regular

/-!
# Clean readings

What a phrase reads without a fault, as a relation between the tokens it is given, the trees it builds and
the tokens it leaves (`Reads`). Clean readings are the readings that report nothing (`Makes.reads`,
`Reads.makes`), so a file read cleanly is what `readFile` gives (`readFile_of_reads`).

The grammar looks ahead, but never past an opening parenthesis, the end of a line or the end of a block
(`Look.bounds`): in front of one, no condition hangs on what comes after it. So a clean reading that leaves
one of them stays the same when other tokens follow it (`Reads.beyond`).
-/

namespace Renumber.Grammar

open Phrase

/-- A phrase reads some trees from the front of a list of tokens, leaves the rest and reports nothing. -/
inductive Reads : P → List Token → List Tree → List Token → Prop
  | done {ts : List Token} : Reads done ts [] ts
  | seq {p q : P} {ts us vs : List Token} {as bs : List Tree} (hp : Reads p ts as us)
      (hq : Reads q us bs vs) : Reads (seq p q) ts (as ++ bs) vs
  | trivia {ts : List Token} : Reads trivia ts ((pending ts).map .token) (upcoming ts)
  | next {ts : List Token} :
      Reads next ts ((pending ts ++ (upcoming ts).take 1).map .token) ((upcoming ts).drop 1)
  | left {l : Look} {p q : P} {ts us : List Token} {as : List Tree} (hl : l.holds ts = true)
      (hp : Reads p ts as us) : Reads (branch l p q) ts as us
  | right {l : Look} {p q : P} {ts us : List Token} {as : List Tree} (hl : l.holds ts = false)
      (hq : Reads q ts as us) : Reads (branch l p q) ts as us
  | stop {l : Look} {p : P} {ts : List Token} (hl : l.holds ts = false) : Reads (many l p) ts [] ts
  | again {l : Look} {p : P} {ts us vs : List Token} {as bs : List Tree} (hl : l.holds ts = true)
      (hp : Reads p ts as us) (hm : Reads (many l p) us bs vs) :
      Reads (many l p) ts (as ++ bs) vs
  | enclose {k : Kind} {p : P} {ts us : List Token} {as : List Tree} (hp : Reads p ts as us) :
      Reads (enclose k p) ts [.node k as] us
  | adopt {p q : P} {ts us vs : List Token} {as bs : List Tree} (hp : Reads p ts as us)
      (hq : Reads q us bs vs) : Reads (adopt p q) ts (adoptAll as bs) vs
  | rule {a : Rule} {ts us : List Token} {as : List Tree} (h : Reads (grammar a) ts as us) :
      Reads (rule a) ts as us

/-! ## Readings without faults -/

/-- A reading that reports nothing is a clean one. -/
theorem Makes.reads {p : P} {ts : List Token} {r : Reading} (h : Makes grammar p ts r)
    (hr : r.faults = []) : Reads p ts r.trees r.rest := by
  induction h with
  | done => exact .done
  | trivia => exact .trivia
  | next => exact .next
  | fault => cases hr
  | seq _ _ iha ihb =>
    obtain ⟨har, hbr⟩ := List.append_eq_nil_iff.1 hr
    exact .seq (iha har) (ihb hbr)
  | left hl _ ih => exact .left hl (ih hr)
  | right hl _ ih => exact .right hl (ih hr)
  | stop hl => exact .stop hl
  | again hl _ _ iha ihb =>
    obtain ⟨har, hbr⟩ := List.append_eq_nil_iff.1 hr
    exact .again hl (iha har) (ihb hbr)
  | enclose _ ih => exact .enclose (ih hr)
  | adopt _ _ iha ihb =>
    obtain ⟨har, hbr⟩ := List.append_eq_nil_iff.1 hr
    exact .adopt (iha har) (ihb hbr)
  | rule _ ih => exact .rule (ih hr)

section
variable {p : P} {ts us : List Token} {as : List Tree}

/-- A clean reading is one that reports nothing. -/
theorem Reads.makes (h : Reads p ts as us) : Makes grammar p ts ⟨as, us, []⟩ := by
  induction h with
  | done => exact .done
  | trivia => exact .trivia
  | next => exact .next
  | seq _ _ ihp ihq => exact ihp.seq ihq
  | adopt _ _ ihp ihq => exact ihp.adopt ihq
  | left hl _ ih => exact .left hl ih
  | right hl _ ih => exact .right hl ih
  | stop hl => exact .stop hl
  | again hl _ _ ihp ihm => exact .again hl ihp ihm
  | enclose _ ih => exact ih.enclose
  | rule _ ih => exact ih.rule

/-- A clean reading takes tokens in order and loses none. -/
theorem Reads.leaves_append (h : Reads p ts as us) : Tree.leavesOf as ++ us = ts :=
  h.makes.leaves_append

/-- Trivia in front of a token. -/
theorem Reads.of_trivia {ws vs : List Token} (hws : ∀ w ∈ ws, w.kind.isTrivia = true)
    (hvs : upcoming vs = vs) : Reads Phrase.trivia (ws ++ vs) (ws.map .token) vs := by
  have h : Reads Phrase.trivia (ws ++ vs) _ _ := .trivia
  rwa [pending_append_of_trivia hws, upcoming_eq_self_iff.1 hvs, List.append_nil,
    upcoming_append_of_trivia hws, hvs] at h

/-- A token with the trivia in front of it. -/
theorem Reads.of_next {ws vs : List Token} {u : Token} (hws : ∀ w ∈ ws, w.kind.isTrivia = true)
    (hu : u.kind.isTrivia = false) :
    Reads Phrase.next (ws ++ u :: vs) ((ws ++ [u]).map .token) vs := by
  have hvs := upcoming_cons_of_not_trivia hu vs
  have h : Reads Phrase.next (ws ++ u :: vs) _ _ := .next
  rwa [pending_append_of_trivia hws, upcoming_eq_self_iff.1 hvs, List.append_nil,
    upcoming_append_of_trivia hws, hvs] at h

theorem Reads.of_next_nil {vs : List Token} {u : Token} (hu : u.kind.isTrivia = false) :
    Reads Phrase.next (u :: vs) [.token u] vs :=
  Reads.of_next (List.forall_mem_nil _) hu

/-- Of a file that is read without faults there is a clean reading. -/
theorem reads_readFile (h : (readFile ts).faults = []) :
    Reads (.rule .file) ts (readFile ts).trees (readFile ts).rest := (makes_readFile ts).reads h

/-- A clean reading of a file is what is read of the file. -/
theorem readFile_of_reads (h : Reads (.rule .file) ts as us) : readFile ts = ⟨as, us, []⟩ :=
  h.makes.readFile_eq

end

/-! ## Beyond what bounds the look ahead -/

theorem upcoming_append_of_cons {ys us : List Token} {u : Token} (h : upcoming ys = u :: us)
    (xs : List Token) : upcoming (ys ++ xs) = u :: (us ++ xs) := by
  induction ys with
  | nil => cases h
  | cons y ys ih =>
    cases hy : y.kind.isTrivia with
    | true =>
      rw [upcoming_cons_of_trivia hy] at h
      rw [List.cons_append, upcoming_cons_of_trivia hy, ih h]
    | false =>
      rw [upcoming_cons_of_not_trivia hy] at h
      obtain ⟨rfl, rfl⟩ := List.cons.inj h
      rw [List.cons_append, upcoming_cons_of_not_trivia hy]

theorem trivia_of_upcoming_eq_nil {ys : List Token} (h : upcoming ys = []) :
    ∀ y ∈ ys, y.kind.isTrivia = true := by
  have := pending_append_upcoming ys
  rw [h, List.append_nil] at this
  exact fun y hy => trivia_of_mem_pending (this ▸ hy)

section
variable {t : Token} {ys xs xs' : List Token}

/-- Whether trivia come first or not, there is a next token if one is not trivia. -/
theorem exists_upcoming_append_singleton (ht : t.kind.isTrivia = false) (ys : List Token) :
    ∃ u us, upcoming (ys ++ [t]) = u :: us := by
  cases hu : upcoming ys with
  | nil =>
    rw [upcoming_append_of_trivia (trivia_of_upcoming_eq_nil hu), upcoming_cons_of_not_trivia ht]
    exact ⟨t, [], rfl⟩
  | cons u us => exact ⟨u, us ++ [t], upcoming_append_of_cons hu [t]⟩

theorem nextKind_append_cons (ht : t.kind.isTrivia = false) :
    nextKind (ys ++ t :: xs) = nextKind (ys ++ t :: xs') := by
  obtain ⟨u, us, hu⟩ := exists_upcoming_append_singleton ht ys
  rw [List.append_cons, List.append_cons ys t xs',
    nextKind_of_upcoming (upcoming_append_of_cons hu xs),
    nextKind_of_upcoming (upcoming_append_of_cons hu xs')]

/-- Two lists of tokens look the same to a condition when their next two tokens do. -/
theorem Look.holds_congr {ts us : List Token} (hn : nextKind ts = nextKind us)
    (ht : nextText ts = nextText us) (hs : secondKind ts = secondKind us) (l : Look) :
    l.holds ts = l.holds us := by
  induction l with
  | next ks => rw [holds, holds, hn]
  | second ks => rw [holds, holds, hs]
  | text s => rw [holds, holds, ht]
  | both l m ihl ihm | either l m ihl ihm => rw [holds, holds, ihl, ihm]
  | not l ih => rw [holds, holds, ih]

/-- The kinds of the tokens that the grammar does not look past. -/
def Look.bounds : List Kind := [.lParen, .newline, .dedent]

theorem Look.not_trivia_of_bounds {k : Kind} (hk : k ∈ Look.bounds) : k.isTrivia = false := by
  revert k
  decide

/-- In front of each kind of token that bounds the look ahead, the condition has one outcome only. -/
def Look.steady (l : Look) : Bool :=
  Look.bounds.all fun k => !((l.may true).has k && (l.may false).has k)

theorem Look.holds_of_steady {l : Look} (hl : l.steady = true) {ts us : List Token}
    (hts : nextKind ts ∈ Look.bounds) (hus : nextKind us = nextKind ts) :
    l.holds ts = l.holds us := by
  have h := l.may_holds ts
  have h' := l.may_holds us
  rw [hus] at h'
  have hl := List.all_eq_true.1 hl _ hts
  cases ht : l.holds ts <;> cases hu : l.holds us <;> simp_all

/-- A condition holds or not whatever follows a token that bounds it. -/
theorem Look.holds_beyond {l : Look} (hl : l.steady = true) (ht : t.kind ∈ Look.bounds) :
    l.holds (ys ++ t :: xs) = l.holds (ys ++ t :: xs') := by
  have htriv := not_trivia_of_bounds ht
  cases hu : upcoming ys with
  | nil =>
    have hys := trivia_of_upcoming_eq_nil hu
    have hnext (zs : List Token) : nextKind (ys ++ t :: zs) = t.kind := by
      rw [nextKind_congr (upcoming_append_of_trivia hys _), nextKind_cons htriv]
    exact holds_of_steady hl ((hnext xs).symm ▸ ht) ((hnext xs').trans (hnext xs).symm)
  | cons u us =>
    have h := upcoming_append_of_cons hu (t :: xs)
    have h' := upcoming_append_of_cons hu (t :: xs')
    refine holds_congr ?_ ?_ ?_ l
    · rw [nextKind_of_upcoming h, nextKind_of_upcoming h']
    · rw [nextText, nextText, h, h']; rfl
    · rw [secondKind, secondKind, h, h']
      exact nextKind_append_cons htriv

end

/-- What stands between the parentheses of a call, with the parentheses. -/
def callBody : P := steps [next, branch (is .rParen) done (rule .argList), expect .rParen]

/-- The phrase can be read again when the tokens behind a bound change: its conditions do not look past it,
what it encloses as the trailer of a call is the body of one, and no such trailer adopts anything. -/
def Phrase.sound : P → Bool
  | .done | .trivia | .next | .fault _ => true
  | .seq p q => p.sound && q.sound
  | .adopt p q => p.sound && q.sound && q.adopting
  | .branch l p q => l.steady && p.sound && q.sound
  | .many l p => l.steady && p.sound
  | .enclose k p => (k != .callTrailer || p == callBody) && p.sound
  | .rule a => rules.contains a

theorem rules_sound : rules.all (fun a => (grammar a).sound) = true := by decide +kernel

theorem Rule.phrase_sound {a : Rule} (h : rules.contains a = true) : (grammar a).sound = true :=
  List.all_eq_true.1 rules_sound a (by simpa using h)

/-- A clean reading that leaves a token that bounds the look ahead is the same whatever follows the token. -/
theorem Reads.beyond {p : P} {ts us ys xs : List Token} {as : List Tree} {t : Token}
    (h : Reads p ts as us) (hp : p.sound = true) (hus : us = ys ++ t :: xs)
    (ht : t.kind ∈ Look.bounds) (xs' : List Token) :
    Reads p (Tree.leavesOf as ++ (ys ++ t :: xs')) as (ys ++ t :: xs') := by
  have htriv := Look.not_trivia_of_bounds ht
  -- The tokens in front of the bound are those that are read and those that are left.
  have hlook {l : Look} {as : List Tree} {ts ys : List Token} (hl : l.steady = true)
      (h : Tree.leavesOf as ++ (ys ++ t :: xs) = ts) :
      l.holds (Tree.leavesOf as ++ (ys ++ t :: xs')) = l.holds ts := by
    rw [← h, ← List.append_assoc, ← List.append_assoc]
    exact Look.holds_beyond hl ht
  have hhead {ys : List Token} (h : upcoming (ys ++ t :: xs) = ys ++ t :: xs) :
      upcoming (ys ++ t :: xs') = ys ++ t :: xs' := by
    cases ys with
    | nil => exact upcoming_cons_of_not_trivia htriv _
    | cons y ys => exact upcoming_cons_of_not_trivia (not_trivia_of_upcoming h) _
  induction h generalizing ys with
  | done => exact .done
  | seq hp' hq' ihp ihq =>
    subst hus
    simp only [sound, Bool.and_eq_true] at hp
    have h₁ := ihp hp.1 (by rw [← hq'.leaves_append, List.append_assoc])
    rw [List.append_assoc] at h₁
    rw [Tree.leavesOf_append, List.append_assoc]
    exact .seq h₁ (ihq hp.2 rfl)
  | @trivia ts =>
    rw [Tree.leavesOf_map_token]
    exact .of_trivia (fun w hw => trivia_of_mem_pending hw)
      (hhead (by rw [← hus, upcoming_upcoming]))
  | @next ts =>
    cases hu : upcoming ts with
    | nil => rw [hu] at hus; simp at hus
    | cons u vs =>
      obtain rfl : vs = ys ++ t :: xs := by rw [hu] at hus; exact hus
      rw [Tree.leavesOf_map_token, List.append_assoc]
      exact .of_next (fun w hw => trivia_of_mem_pending hw) (not_trivia_of_upcoming hu)
  | left hl hp' ih =>
    subst hus
    simp only [sound, Bool.and_eq_true] at hp
    exact .left ((hlook hp.1.1 hp'.leaves_append).trans hl) (ih hp.1.2 rfl)
  | right hl hp' ih =>
    subst hus
    simp only [sound, Bool.and_eq_true] at hp
    exact .right ((hlook hp.1.1 hp'.leaves_append).trans hl) (ih hp.2 rfl)
  | stop hl =>
    subst hus
    simp only [sound, Bool.and_eq_true] at hp
    exact .stop ((hlook hp.1 (show Tree.leavesOf [] ++ _ = _ by simp)).trans hl)
  | again hl hp' hm' ihp ihm =>
    subst hus
    have hmany := hp
    simp only [sound, Bool.and_eq_true] at hp
    have h₁ := ihp hp.2 (by rw [← hm'.leaves_append, List.append_assoc])
    rw [List.append_assoc] at h₁
    have hl' := hlook hp.1 ((Reads.again hl hp' hm').leaves_append)
    rw [Tree.leavesOf_append, List.append_assoc] at hl' ⊢
    exact .again (hl'.trans hl) h₁ (ihm hmany rfl)
  | enclose _ ih =>
    simp only [sound, Bool.and_eq_true] at hp
    rw [Tree.leavesOf_cons, Tree.leaves_node, Tree.leavesOf_nil, List.append_nil]
    exact .enclose (ih hp.2 hus)
  | adopt hp' hq' ihp ihq =>
    subst hus
    simp only [sound, Bool.and_eq_true] at hp
    have h₁ := ihp hp.1.1 (by rw [← hq'.leaves_append, List.append_assoc])
    rw [List.append_assoc] at h₁
    rw [leavesOf_adoptAll, List.append_assoc]
    exact .adopt h₁ (ihq hp.1.2 rfl)
  | rule _ ih => exact .rule (ih (Rule.phrase_sound hp) hus)

end Renumber.Grammar
