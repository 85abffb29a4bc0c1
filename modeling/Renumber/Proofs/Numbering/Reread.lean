import Renumber.Proofs.Grammar.Argument
import Renumber.Proofs.Numbering.Recode

/-!
# Reading a tree again

The tokens of a tree that the grammar has built, with one code more, are read as the tree with the code
(`reads_recoded`). Up to the parenthesis the reading is the old one; behind it, a numeral is an argument by
itself and the other arguments are read as before (`reads_callBody_coded`).
-/

namespace Renumber.Grammar

open Phrase Renumber.Tree

/-! ## Trees by their tokens -/

/-- The first tree that is not trivia, and what stands around it. -/
theorem append_cons_inj {ws ws' ys ys' : List Tree} {l l' : Tree} (hws : solid ws = [])
    (hws' : solid ws' = []) (hl : l.kind.isTrivia = false) (hl' : l'.kind.isTrivia = false)
    (h : ws ++ l :: ys = ws' ++ l' :: ys') : ws = ws' ∧ l = l' ∧ ys = ys' := by
  induction ws generalizing ws' with
  | nil =>
    cases ws' with
    | nil => exact ⟨rfl, List.cons.inj h⟩
    | cons w' ws' =>
      obtain ⟨rfl, -⟩ := List.cons.inj h
      rw [solid_cons_of_not_trivia hl] at hws'
      cases hws'
  | cons w ws ih =>
    have hw : w.kind.isTrivia = true := by
      rw [← Bool.not_eq_false]
      intro hw
      rw [solid_cons_of_not_trivia hw] at hws
      cases hws
    rw [solid_cons_of_trivia hw] at hws
    cases ws' with
    | nil =>
      obtain ⟨rfl, -⟩ := List.cons.inj h
      rw [hl'] at hw
      cases hw
    | cons w' ws' =>
      obtain ⟨rfl, htail⟩ := List.cons.inj h
      rw [solid_cons_of_trivia hw] at hws'
      obtain ⟨rfl, hrest⟩ := ih hws hws' htail
      exact ⟨rfl, hrest⟩

/-- The only node between some tokens. -/
theorem tokens_append_node_inj {xs ys : List Token} {as bs cs ds : List Tree} {k j : Kind}
    (h : as ++ .node k cs :: bs = xs.map .token ++ .node j ds :: ys.map .token) :
    as = xs.map .token ∧ Tree.node k cs = .node j ds ∧ bs = ys.map .token := by
  induction xs generalizing as with
  | nil =>
    cases as with
    | nil => exact ⟨rfl, List.cons.inj h⟩
    | cons a as =>
      obtain ⟨-, h⟩ := List.cons.inj h
      have hmem : Tree.node k cs ∈ ys.map Tree.token := h ▸ by simp
      obtain ⟨t, -, ht⟩ := List.mem_map.1 hmem
      cases ht
  | cons x xs ih =>
    cases as with
    | nil =>
      obtain ⟨h, -⟩ := List.cons.inj h
      cases h
    | cons a as =>
      obtain ⟨rfl, htail⟩ := List.cons.inj h
      obtain ⟨rfl, hrest⟩ := ih htail
      exact ⟨rfl, hrest⟩

theorem solid_map_token {ws : List Token} (hws : ∀ w ∈ ws, w.kind.isTrivia = true) :
    solid (ws.map .token) = [] := by
  induction ws with
  | nil => rfl
  | cons w ws ih =>
    rw [List.map_cons, solid_cons_of_trivia (t := .token w) (hws w List.mem_cons_self)]
    exact ih fun v hv => hws v (List.mem_cons_of_mem _ hv)

/-! ## The body of a call -/

/-- The arguments of a call after the first one. -/
def moreArguments : P :=
  many (is .comma) (seq next (branch (is .rParen) done (rule .argument)))

section
variable {ts us : List Token} {as : List Tree}

theorem reads_trivia_iff : Reads trivia ts as us ↔ ∃ ws : List Token,
    (∀ w ∈ ws, w.kind.isTrivia = true) ∧ upcoming us = us ∧ ts = ws ++ us ∧
      as = ws.map .token := by
  constructor
  · intro h
    cases h
    exact ⟨pending ts, fun w hw => trivia_of_mem_pending hw, upcoming_upcoming ts,
      (pending_append_upcoming ts).symm, rfl⟩
  · rintro ⟨ws, hws, hus, rfl, rfl⟩
    exact .of_trivia hws hus

theorem reads_next_iff (hts : upcoming ts ≠ []) : Reads next ts as us ↔ ∃ (ws : List Token)
    (t : Token), (∀ w ∈ ws, w.kind.isTrivia = true) ∧ t.kind.isTrivia = false ∧
      ts = ws ++ t :: us ∧ as = (ws ++ [t]).map .token := by
  constructor
  · intro h
    obtain ⟨t, vs, hu⟩ := List.exists_cons_of_ne_nil hts
    have hpending := pending_append_upcoming ts
    cases h
    rw [hu] at hpending ⊢
    exact ⟨pending ts, t, fun w hw => trivia_of_mem_pending hw, not_trivia_of_upcoming hu,
      hpending.symm, rfl⟩
  · rintro ⟨ws, t, hws, ht, rfl, rfl⟩
    exact .of_next hws ht

theorem nextKind_append_of_trivia {ws : List Token} (hws : ∀ w ∈ ws, w.kind.isTrivia = true)
    {t : Token} (ht : t.kind.isTrivia = false) (us : List Token) :
    nextKind (ws ++ t :: us) = t.kind := by
  rw [nextKind_congr (upcoming_append_of_trivia hws _), nextKind_cons ht]

theorem upcoming_ne_nil_of_nextKind (h : nextKind ts ≠ .eof) : upcoming ts ≠ [] := by
  intro hu
  rw [nextKind, hu] at h
  exact h rfl

theorem holds_is_iff {k : Kind} : (is k).holds ts = true ↔ nextKind ts = k := by
  simp [is, Look.holds]

/-- What is read as the body of a call stands between two parentheses. -/
theorem reads_callBody_iff : Reads callBody ts as us ↔ ∃ (ws ys ts₁ : List Token) (l r : Token)
    (args : List Tree), (∀ w ∈ ws, w.kind.isTrivia = true) ∧ l.kind.isTrivia = false ∧
      (∀ y ∈ ys, y.kind.isTrivia = true) ∧ r.kind = .rParen ∧ ts = ws ++ l :: ts₁ ∧
      as = (ws ++ [l]).map .token ++ (args ++ (ys ++ [r]).map .token) ∧
      Reads (branch (is .rParen) done (rule .argList)) ts₁ args (ys ++ r :: us) := by
  constructor
  · intro h
    cases h with
    | @seq _ _ _ ts₁ _ _ _ hl h =>
      cases h with
      | @seq _ _ _ ts₂ _ args _ hargs h =>
        cases h with
        | right _ h => cases h
        | left hr h =>
          rw [holds_is_iff] at hr
          have hne : upcoming ts₂ ≠ [] := upcoming_ne_nil_of_nextKind (by rw [hr]; decide)
          obtain ⟨ys, r, hys, hrk, rfl, rfl⟩ := (reads_next_iff hne).1 h
          have hts : upcoming ts ≠ [] := by
            intro hts
            cases hl
            have := hargs.leaves_append
            rw [hts, List.drop_nil, List.append_eq_nil_iff] at this
            simp at this
          obtain ⟨ws, l, hws, hlk, rfl, rfl⟩ := (reads_next_iff hts).1 hl
          rw [nextKind_append_of_trivia hys hrk] at hr
          exact ⟨ws, ys, ts₁, l, r, args, hws, hlk, hys, hr, rfl, rfl, hargs⟩
  · rintro ⟨ws, ys, ts₁, l, r, args, hws, hl, hys, hr, rfl, rfl, hargs⟩
    have hrk : r.kind.isTrivia = false := by rw [hr]; rfl
    refine .seq (.of_next hws hl) (.seq hargs (.left ?_ (.of_next hys hrk)))
    rw [holds_is_iff, nextKind_append_of_trivia hys hrk, hr]

/-- A list of arguments is one node; the trivia in front of it stay outside. -/
theorem reads_argList_iff : Reads (rule .argList) ts as us ↔ ∃ (vs ts₁ ts₂ : List Token)
    (first more : List Tree), (∀ v ∈ vs, v.kind.isTrivia = true) ∧ upcoming ts₁ = ts₁ ∧
      ts = vs ++ ts₁ ∧ as = vs.map .token ++ [.node .argList (first ++ more)] ∧
      Reads (rule .argument) ts₁ first ts₂ ∧ Reads moreArguments ts₂ more us := by
  constructor
  · intro h
    cases h with
    | rule h =>
      cases h with
      | seq ht h =>
        obtain ⟨vs, hvs, hts, rfl, rfl⟩ := reads_trivia_iff.1 ht
        cases h with
        | enclose h =>
          cases h with
          | seq hfirst hmore => exact ⟨vs, _, _, _, _, hvs, hts, rfl, rfl, hfirst, hmore⟩
  · rintro ⟨vs, ts₁, ts₂, first, more, hvs, hts, rfl, rfl, hfirst, hmore⟩
    exact .rule (.seq (.of_trivia hvs hts) (.enclose (.seq hfirst hmore)))

/-- After the first argument there are no more, or a comma comes next. -/
theorem reads_moreArguments_cases (h : Reads moreArguments ts as us) :
    (as = [] ∧ us = ts) ∨ nextKind ts = .comma ∧ solid as ≠ [] := by
  cases h with
  | stop _ => exact .inl ⟨rfl, rfl⟩
  | again hl hp _ =>
    rw [holds_is_iff] at hl
    refine .inr ⟨hl, ?_⟩
    cases hp with
    | seq hnext _ =>
      have hne : upcoming ts ≠ [] := upcoming_ne_nil_of_nextKind (by rw [hl]; decide)
      obtain ⟨ws, t, -, ht, -, rfl⟩ := (reads_next_iff hne).1 hnext
      have htk : (Tree.token t).kind.isTrivia = false := ht
      simp [solid_cons_of_not_trivia htk]

end

/-! ## The body of a call with a code -/

theorem Reads.regular {p : P} {ts us : List Token} {as : List Tree} (h : Reads p ts as us)
    (hp : p.regular = true) : ∀ t ∈ as, t.Regular :=
  h.makes.regular hp

section
variable {ts us vs : List Token} {as : List Tree} {t r : Token}

theorem holds_is_eq_false {k : Kind} (h : nextKind ts ≠ k) : (is k).holds ts = false := by
  rw [← Bool.not_eq_true, holds_is_iff]
  exact h

/-- A numeral is the only argument. -/
theorem reads_only_numeral (n : UInt64) (hus : nextKind us = .rParen) :
    Reads (branch (is .rParen) done (rule .argList)) (.numeral n :: us) [numberArgList n] us := by
  have hnum : (Token.numeral n).kind.isTrivia = false := rfl
  refine .right (holds_is_eq_false (by rw [nextKind_cons hnum]; exact Kind.noConfusion)) ?_
  refine reads_argList_iff.2 ⟨[], _, us, [numberLiteral n], [], by simp,
    upcoming_cons_of_not_trivia hnum us, rfl, rfl, reads_number (t := .numeral n) rfl (.inr hus),
    ?_⟩
  exact .stop (holds_is_eq_false (by rw [hus]; exact Kind.noConfusion))

/-- A numeral is an argument in front of another one. -/
theorem reads_numeral_comma (n : UInt64) (hvs : ∀ v ∈ vs, v.kind.isTrivia = true)
    (hts : nextKind ts ≠ .rParen) (h : Reads (rule .argument) ts as us)
    (hus : nextKind us = .rParen) :
    Reads (branch (is .rParen) done (rule .argList))
      (vs ++ .numeral n :: ⟨.comma, ","⟩ :: ⟨.whitespace, " "⟩ :: ts)
      (vs.map .token ++ [.node .argList (numberLiteral n :: comma :: blanks " " :: as)]) us := by
  have hnum : (Token.numeral n).kind.isTrivia = false := rfl
  have hblank : ∀ w ∈ [(⟨.whitespace, " "⟩ : Token)], w.kind.isTrivia = true := by simp; rfl
  have hcomma (xs : List Token) : nextKind (⟨.comma, ","⟩ :: xs) = .comma := nextKind_cons rfl xs
  refine .right (holds_is_eq_false ?_) (reads_argList_iff.2 ⟨vs, _, _, [numberLiteral n], _, hvs,
    upcoming_cons_of_not_trivia hnum _, rfl, rfl, reads_number (t := .numeral n) rfl (.inl (hcomma _)),
    ?_⟩)
  · rw [nextKind_append_of_trivia hvs hnum]
    exact Kind.noConfusion
  have hargument := h.argument_append hblank
  rw [show comma :: blanks " " :: as = ([comma] ++ ([blanks " "] ++ as)) ++ [] by simp]
  refine .again (holds_is_iff.2 (hcomma _)) (.seq (.of_next_nil rfl) (.right (holds_is_eq_false ?_) hargument))
    (.stop (holds_is_eq_false (by rw [hus]; exact Kind.noConfusion)))
  exact fun hk => hts ((nextKind_congr (upcoming_append_of_trivia hblank ts)).symm.trans hk)

/-- A numeral is an argument in the place of another one. -/
theorem reads_numeral_more (n : UInt64) (hvs : ∀ v ∈ vs, v.kind.isTrivia = true)
    (hts : nextKind ts = .comma) (h : Reads moreArguments ts as us) :
    Reads (branch (is .rParen) done (rule .argList)) (vs ++ .numeral n :: ts)
      (vs.map .token ++ [.node .argList (numberLiteral n :: as)]) us := by
  have hnum : (Token.numeral n).kind.isTrivia = false := rfl
  refine .right (holds_is_eq_false ?_) (reads_argList_iff.2 ⟨vs, _, _, [numberLiteral n], _, hvs,
    upcoming_cons_of_not_trivia hnum _, rfl, rfl, reads_number (t := .numeral n) rfl (.inl hts), h⟩)
  rw [nextKind_append_of_trivia hvs hnum]
  exact Kind.noConfusion

end

/-- The tokens in front of a comma or a closing parenthesis may stand behind a numeral. -/
theorem apart_of_nextKind {us : List Token}
    (h : nextKind us = .comma ∨ nextKind us = .rParen) : Token.Apart us := by
  cases us with
  | nil => rcases h with h | h <;> cases h
  | cons t us =>
    refine ⟨t, us, rfl, ?_⟩
    cases ht : t.kind.isTrivia with
    | true => exact .inl rfl
    | false =>
      rw [nextKind_cons ht] at h
      exact .inr h

section
variable {us : List Tree} {ws vs : List Token} {l : Token} {x : Tree} {a : Arguments}
  {f : UInt64 → List Tree}

/-- Between parentheses that hold tokens only there is no argument. -/
theorem args_of_tokens (h : Args us a f) (hws : ∀ w ∈ ws, w.kind.isTrivia = true)
    (hl : l.kind.isTrivia = false) (zs : List Token) (hus : us = (ws ++ l :: zs).map .token) :
    l.kind = .lParen ∧
      ∀ n, f n = ws.map .token ++ .token l :: numberArgList n :: zs.map .token := by
  have hnone (k : Kind) (cs : List Tree) : Tree.node k cs ∉ us := by
    intro hmem
    obtain ⟨t, -, ht⟩ := List.mem_map.1 (hus ▸ hmem)
    cases ht
  cases h with
  | empty hws' hl' hys' =>
    rw [List.map_append, List.map_cons] at hus
    obtain ⟨rfl, rfl, rfl⟩ := append_cons_inj hws' (solid_map_token hws) (by rw [hl']; rfl)
      (show (Tree.token l).kind.isTrivia = false from hl) hus
    exact ⟨hl', fun n => rfl⟩
  | one => exact absurd (List.mem_append_right _ List.mem_cons_self) (hnone _ _)
  | two => exact absurd (List.mem_append_right _ List.mem_cons_self) (hnone _ _)

/-- Between parentheses that hold a list of arguments there is one argument, or there are two. -/
theorem args_of_node (h : Args us a f) (hws : ∀ w ∈ ws, w.kind.isTrivia = true)
    (hl : l.kind.isTrivia = false) (hvs : ∀ v ∈ vs, v.kind.isTrivia = true)
    (hx : x.kind.isTrivia = false) (more : List Tree) (zs : List Token)
    (hus : us = (ws ++ l :: vs).map .token ++ .node .argList (x :: more) :: zs.map .token) :
    l.kind = .lParen ∧
      ((solid more = [] ∧ ∀ n, f n = (ws ++ l :: vs).map .token ++
          .node .argList (numberLiteral n :: comma :: blanks " " :: x :: more) ::
            zs.map .token) ∨
        (solid more ≠ [] ∧ ∀ n, f n = (ws ++ l :: vs).map .token ++
          .node .argList (numberLiteral n :: more) :: zs.map .token)) := by
  have hlk {xs : List Tree} (hxs : Bracket .lParen xs) (h : xs = (ws ++ l :: vs).map .token) :
      l.kind = .lParen := by
    obtain ⟨t, ht, hk⟩ := hxs
    rw [h, List.map_append, List.map_cons, solid_append, solid_map_token hws,
      solid_cons_of_not_trivia (t := .token l) hl, solid_map_token hvs] at ht
    obtain ⟨rfl, -⟩ := List.cons.inj ht
    exact hk
  cases h with
  | empty hws' hl' hys' =>
    rw [List.map_append, List.map_cons, List.append_assoc, List.cons_append] at hus
    obtain ⟨-, -, rfl⟩ := append_cons_inj hws' (solid_map_token hws) (by rw [hl']; rfl)
      (show (Tree.token l).kind.isTrivia = false from hl) hus
    obtain ⟨r, hr, hrk⟩ := hys'
    rw [solid_append, solid_map_token hvs, List.nil_append,
      solid_cons_of_not_trivia (by rfl)] at hr
    obtain ⟨rfl, -⟩ := List.cons.inj hr
    cases hrk
  | one hxs hps hm hqs hys =>
    obtain ⟨rfl, hnode, rfl⟩ := tokens_append_node_inj hus
    injection hnode with _ hcs
    obtain ⟨rfl, rfl, rfl⟩ := append_cons_inj hps solid_nil hm.2 hx hcs
    exact ⟨hlk hxs rfl, .inl ⟨hqs, fun n => rfl⟩⟩
  | two hxs hps ho hus' hc hvs' hm hws' hys =>
    obtain ⟨rfl, hnode, rfl⟩ := tokens_append_node_inj hus
    injection hnode with _ hcs
    obtain ⟨rfl, rfl, rfl⟩ := append_cons_inj hps solid_nil ho.2 hx hcs
    refine ⟨hlk hxs rfl, .inr ⟨?_, fun n => rfl⟩⟩
    rw [solid_append, hus', solid_cons_of_not_trivia (by rw [hc]; rfl)]
    exact List.cons_ne_nil _ _

end

/-- The body of a call is read again with a code in it. -/
theorem reads_callBody_coded {ts rest : List Token} {us : List Tree} {a : Arguments}
    {f : UInt64 → List Tree} (h : Reads callBody ts us rest) (hargs : Args us a f) (n : UInt64) :
    Reads callBody (leavesOf (f n) ++ rest) (f n) rest ∧
      Renumbered n ts (leavesOf (f n) ++ rest) := by
  obtain ⟨ws, ys, ts₁, l, r, args, hws, hl, hys, hr, rfl, rfl, hbody⟩ := reads_callBody_iff.1 h
  have hpost : nextKind (ys ++ r :: rest) = .rParen := by
    rw [nextKind_append_of_trivia hys (by rw [hr]; rfl), hr]
  have hnew {ts₂ : List Token} {args : List Tree}
      (hbody : Reads (branch (is .rParen) done (rule .argList)) ts₂ args (ys ++ r :: rest)) :=
    reads_callBody_iff.2 ⟨ws, ys, ts₂, l, r, args, hws, hl, hys, hr, rfl, rfl, hbody⟩
  have hdone {ts₂ : List Token} {args : List Tree}
      (hbody : Reads (branch (is .rParen) done (rule .argList)) ts₂ args (ys ++ r :: rest))
      (hf : f n = (ws ++ [l]).map .token ++ (args ++ (ys ++ [r]).map .token))
      (hlk : l.kind = .lParen) (hedit : Inserted n ts₁ ts₂) :
      Reads callBody (leavesOf (f n) ++ rest) (f n) rest ∧
        Renumbered n (ws ++ l :: ts₁) (leavesOf (f n) ++ rest) := by
    have hread := hnew hbody
    rw [← hf] at hread
    rw [hread.leaves_append]
    exact ⟨hread, .intro hlk hedit⟩
  cases hbody with
  | left _ hnil =>
    cases hnil
    obtain ⟨hlk, hf⟩ := args_of_tokens hargs hws hl (ys ++ [r]) (by simp)
    exact hdone (reads_only_numeral n hpost) (by rw [hf]; simp) hlk
      (.empty (apart_of_nextKind (.inr hpost)))
  | right hrp hlist =>
    obtain ⟨vs, ts₂, ts₃, first, more, hvs, hts₂, rfl, rfl, hfirst, hmore⟩ :=
      reads_argList_iff.1 hlist
    obtain ⟨k, cs, rfl⟩ := exists_node_of_argument hfirst (upcoming_eq_self_iff.1 hts₂)
    have hx : (Tree.node k cs).kind.isTrivia = false := by
      cases hfirst.regular (by decide) _ List.mem_cons_self with
      | node hk => exact Kind.isTrivia_of_isNode hk
    obtain ⟨hclimb, hne⟩ := climb_argument hfirst 0
    obtain ⟨t, os, hleaves⟩ := List.exists_cons_of_ne_nil hne
    have hcons : ts₂ = t :: (os ++ ts₃) := by
      rw [← hfirst.leaves_append, hleaves]
      rfl
    have ht : t.kind.isTrivia = false := not_trivia_of_upcoming (hts₂.trans hcons)
    obtain ⟨hlk, ⟨hsolid, hf⟩ | ⟨hsolid, hf⟩⟩ := args_of_node hargs hws hl hvs hx more
      (ys ++ [r]) (by simp)
    · obtain ⟨rfl, rfl⟩ : more = [] ∧ ys ++ r :: rest = ts₃ :=
        (reads_moreArguments_cases hmore).resolve_right fun h => h.2 hsolid
      have hnr : nextKind ts₂ ≠ .rParen := by
        intro hk
        rw [(holds_is_iff.2 ((nextKind_congr (upcoming_append_of_trivia hvs ts₂)).trans hk))]
          at hrp
        cases hrp
      refine hdone (reads_numeral_comma n hvs hnr hfirst hpost) (by rw [hf]; simp) hlk ?_
      rw [hcons]
      rw [hleaves, Token.climb, Option.bind_eq_some_iff] at hclimb
      obtain ⟨e, he, -⟩ := hclimb
      exact .one hvs ht (Kind.not_isLayout_of_climb he)
    · obtain ⟨hcomma, -⟩ := (reads_moreArguments_cases hmore).resolve_left fun h => hsolid (by
        rw [h.1]; rfl)
      refine hdone (reads_numeral_more n hvs hcomma hmore) (by rw [hf]; simp) hlk ?_
      rw [hcons]
      exact .two hvs ht (hleaves ▸ hclimb) (apart_of_nextKind (.inl hcomma))

/-! ## All phrases -/

/-- A code in trees that adopt others is a code in the one or in the other. -/
theorem recoded_adoptAll {n : UInt64} {as bs vs : List Tree}
    (hbs : ∀ b ∈ bs, ∃ k cs, b = .node k cs ∧ k.isFlat = false ∧ k ≠ .callTrailer)
    (h : Recoded n (adoptAll as bs) vs) :
    (∃ as', Recoded n as as' ∧ vs = adoptAll as' bs) ∨
      ∃ bs', Recoded n bs bs' ∧ vs = adoptAll as bs' := by
  induction bs generalizing as with
  | nil => exact .inl ⟨vs, h, rfl⟩
  | cons b bs ih =>
    obtain ⟨k, ds, rfl, -, hk⟩ := hbs b List.mem_cons_self
    rcases ih (fun c hc => hbs c (List.mem_cons_of_mem _ hc)) h with ⟨es, hes, rfl⟩ | ⟨es, hes, rfl⟩
    · obtain ⟨a, f, rfl, -⟩ | ⟨fs, hfs, rfl⟩ := recoded_node hes
      · exact absurd rfl hk
      rcases recoded_append hfs with ⟨as', has, rfl⟩ | ⟨ds', hds, rfl⟩
      · exact .inl ⟨as', has, rfl⟩
      · exact .inr ⟨.node k ds' :: bs, .down hds, rfl⟩
    · exact .inr ⟨.node k ds :: es, .there hes, rfl⟩

/-- Trees that have been read are read again with a code in them, from the tokens that they have then. -/
theorem reads_recoded {p : P} {ts us : List Token} {as as' : List Tree} {n : UInt64}
    (h : Reads p ts as us) (hp : p.sound = true) (hcode : Recoded n as as') :
    Reads p (leavesOf as' ++ us) as' us ∧ Renumbered n ts (leavesOf as' ++ us) := by
  -- A condition in front of the trees has the same outcome: the tokens are the same up to the
  -- parenthesis.
  have hlook {l : Look} {ts ts' : List Token} (hl : l.steady = true) (h : Renumbered n ts ts') :
      l.holds ts' = l.holds ts := by
    cases h with
    | intro ht _ => exact Look.holds_beyond hl (by rw [ht]; decide)
  -- A code in the second of two readings leaves the first one as it is.
  have hfirst {p : P} {ts us us' : List Token} {as : List Tree} (h : Reads p ts as us)
      (hp : p.sound = true) (hedit : Renumbered n us us') :
      Reads p (leavesOf as ++ us') as us' ∧ Renumbered n ts (leavesOf as ++ us') := by
    have hts := h.leaves_append
    have hadd := hedit.append_left (leavesOf as)
    cases hedit with
    | intro ht _ => exact ⟨h.beyond hp rfl (by rw [ht]; decide) _, hts ▸ hadd⟩
  induction h generalizing as' with
  | done | stop _ => cases hcode
  | trivia | next => exact absurd hcode (not_recoded_tokens _ _)
  | seq hp' hq' ihp ihq =>
    simp only [sound, Bool.and_eq_true] at hp
    rcases recoded_append hcode with ⟨as₂, has, rfl⟩ | ⟨bs₂, hbs, rfl⟩ <;>
      rw [leavesOf_append, List.append_assoc]
    · obtain ⟨hread, hedit⟩ := ihp hp.1 has
      rw [hq'.leaves_append]
      exact ⟨.seq hread hq', hedit⟩
    · obtain ⟨hread, hedit⟩ := ihq hp.2 hbs
      obtain ⟨hread', hedit'⟩ := hfirst hp' hp.1 hedit
      exact ⟨.seq hread' hread, hedit'⟩
  | left hl _ ih =>
    simp only [sound, Bool.and_eq_true] at hp
    obtain ⟨hread, hedit⟩ := ih hp.1.2 hcode
    exact ⟨.left ((hlook hp.1.1 hedit).trans hl) hread, hedit⟩
  | right hl _ ih =>
    simp only [sound, Bool.and_eq_true] at hp
    obtain ⟨hread, hedit⟩ := ih hp.2 hcode
    exact ⟨.right ((hlook hp.1.1 hedit).trans hl) hread, hedit⟩
  | again hl hp' hm' ihp ihm =>
    have hmany := hp
    simp only [sound, Bool.and_eq_true] at hp
    rcases recoded_append hcode with ⟨as₂, has, rfl⟩ | ⟨bs₂, hbs, rfl⟩ <;>
      rw [leavesOf_append, List.append_assoc]
    · obtain ⟨hread, hedit⟩ := ihp hp.2 has
      rw [hm'.leaves_append]
      exact ⟨.again ((hlook hp.1 hedit).trans hl) hread hm', hedit⟩
    · obtain ⟨hread, hedit⟩ := ihm hmany hbs
      obtain ⟨hread', hedit'⟩ := hfirst hp' hp.2 hedit
      exact ⟨.again ((hlook hp.1 hedit').trans hl) hread' hread, hedit'⟩
  | enclose hp' ih =>
    simp only [sound, Bool.and_eq_true, Bool.or_eq_true, bne_iff_ne, beq_iff_eq] at hp
    rcases recoded_node hcode with ⟨a, f, rfl, hargs, rfl⟩ | ⟨cs, hcs, rfl⟩ <;>
      rw [leavesOf_cons, leaves_node, leavesOf_nil, List.append_nil]
    · obtain rfl := hp.1.resolve_left fun h => h rfl
      obtain ⟨hread, hedit⟩ := reads_callBody_coded hp' hargs n
      exact ⟨.enclose hread, hedit⟩
    · obtain ⟨hread, hedit⟩ := ih hp.2 hcs
      exact ⟨.enclose hread, hedit⟩
  | adopt hp' hq' ihp ihq =>
    simp only [sound, Bool.and_eq_true] at hp
    rcases recoded_adoptAll (hq'.makes.nodes_of_adopting hp.2) hcode with
      ⟨as₂, has, rfl⟩ | ⟨bs₂, hbs, rfl⟩ <;> rw [leavesOf_adoptAll, List.append_assoc]
    · obtain ⟨hread, hedit⟩ := ihp hp.1.1 has
      rw [hq'.leaves_append]
      exact ⟨.adopt hread hq', hedit⟩
    · obtain ⟨hread, hedit⟩ := ihq hp.1.2 hbs
      obtain ⟨hread', hedit'⟩ := hfirst hp' hp.1.1 hedit
      exact ⟨.adopt hread' hread, hedit'⟩
  | rule _ ih =>
    obtain ⟨hread, hedit⟩ := ih (Rule.phrase_sound hp) hcode
    exact ⟨.rule hread, hedit⟩

end Renumber.Grammar
