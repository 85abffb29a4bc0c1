import Renumber.Proofs.Grammar.Formed
import Renumber.Proofs.Grammar.Leading

/-!
# Where trivia stand

In the tree of a source without problems no node starts or ends with trivia, and every node holds something
(`Tree.Trim`). So its tokens and the tree without trivia leave no choice where the trivia stand: trees that
agree in both are the same (`eq_of_bareOf`).
-/

namespace Renumber

namespace Tree

/-- Every node of the tree holds something and neither starts nor ends with trivia. -/
inductive Trim : Tree → Prop
  | token (t : Token) : Trim (.token t)
  | node {k : Kind} {cs : List Tree} (hne : cs ≠ []) (hclear : Clear cs) (hclosed : Closed cs)
      (hcs : ∀ c ∈ cs, Trim c) : Trim (.node k cs)

/-- The trees of sources without problems are trim. -/
theorem Formed.trim {t : Tree} (h : t.Formed) (hled : t.Led) : t.Trim := by
  induction h with
  | token => exact .token _
  | node _ _ hne hclosed _ _ ih =>
    cases hled with
    | node hclear hcs => exact .node hne hclear hclosed fun c hc => ih c hc (hcs c hc)
  | @suite ws ws' newline indent dedent cs _ _ _ _ _ hdedent ih =>
    cases hled with
    | node hclear hcs =>
      have hmark : (Tree.token dedent).isTrivia = false := by
        rw [isTrivia_token, hdedent]
        rfl
      rw [← List.append_assoc] at hclear hcs ⊢
      refine .node (by simp) hclear (closed_concat _ hmark) fun c hc => ?_
      rcases List.mem_append.1 hc with hc' | hc'
      · rcases List.mem_append.1 hc' with hc' | hc'
        · obtain ⟨t, -, rfl⟩ := List.mem_map.1 hc'
          exact .token t
        · exact ih c hc' (hcs c hc)
      · rw [List.mem_singleton.1 hc']
        exact .token _

/-- What is no trivia starts with a token that is none. -/
theorem Trim.exists_head {t : Tree} (h : t.Trim) (ht : t.isTrivia = false) :
    ∃ u us, t.leaves = u :: us ∧ u.kind.isTrivia = false := by
  induction h with
  | token t => exact ⟨t, [], leaves_token t, ht⟩
  | @node k cs hne hclear _ _ ih =>
    obtain ⟨c, cs, rfl⟩ := List.exists_cons_of_ne_nil hne
    have hc : c.isTrivia = false := by
      cases c with
      | token t => exact hclear t rfl
      | node => rfl
    obtain ⟨u, us, hu, htrivia⟩ := ih c List.mem_cons_self hc
    exact ⟨u, us ++ leavesOf cs, by rw [leaves_node, leavesOf_cons, hu, List.cons_append], htrivia⟩

/-- What is no trivia ends with a token that is none. -/
theorem Trim.exists_last {t : Tree} (h : t.Trim) (ht : t.isTrivia = false) :
    ∃ us u, t.leaves = us ++ [u] ∧ u.kind.isTrivia = false := by
  induction h with
  | token t => exact ⟨[], t, leaves_token t, ht⟩
  | @node k cs hne _ hclosed _ ih =>
    obtain ⟨cs, c, rfl⟩ := (List.eq_nil_or_concat' cs).resolve_left hne
    have hc : c.isTrivia = false := by
      cases c with
      | token t => exact hclosed t (List.getLast?_concat ..)
      | node => rfl
    obtain ⟨us, u, hu, htrivia⟩ := ih c (by simp) hc
    exact ⟨leavesOf cs ++ us, u, by simp [hu], htrivia⟩

theorem Trim.leaves_ne_nil {t : Tree} (h : t.Trim) : t.leaves ≠ [] := by
  cases t with
  | token t => simp
  | node k cs =>
    obtain ⟨u, us, hu, -⟩ := h.exists_head rfl
    rw [hu]
    exact List.cons_ne_nil u us

/-- Two beginnings of a list that end with tokens that are no trivia are the same if they differ at most in
trivia. -/
theorem eq_of_significant {xs ys us vs : List Token} (h : xs ++ us = ys ++ vs)
    (hsig : Token.significant xs = Token.significant ys)
    (hxs : ∃ zs u, xs = zs ++ [u] ∧ u.kind.isTrivia = false)
    (hys : ∃ zs u, ys = zs ++ [u] ∧ u.kind.isTrivia = false) : xs = ys := by
  -- What the longer one has more would end with such a token, too.
  have hnil {xs ys zs : List Token} (hxs : ∃ zs u, xs = zs ++ [u] ∧ u.kind.isTrivia = false)
      (h : xs = ys ++ zs) (hsig : Token.significant xs = Token.significant ys) : zs = [] := by
    by_contra hne
    obtain ⟨ws, u, rfl, hu⟩ := hxs
    obtain ⟨zs, z, rfl⟩ := (List.eq_nil_or_concat' zs).resolve_left hne
    rw [← List.append_assoc] at h
    obtain ⟨-, hlast⟩ := List.append_inj' h rfl
    obtain rfl : u = z := List.singleton_inj.1 hlast
    rw [h, List.append_assoc, Token.significant_append, List.append_right_eq_self, Token.significant_append,
      Token.significant_cons_of_not_trivia hu] at hsig
    simp at hsig
  rcases List.append_eq_append_iff.1 h with ⟨zs, hzs, -⟩ | ⟨zs, hzs, -⟩
  · rw [hnil hys hzs hsig.symm, List.append_nil] at hzs
    exact hzs.symm
  · rw [hnil hxs hzs hsig, List.append_nil] at hzs
    exact hzs

theorem Trim.children {k : Kind} {cs : List Tree} (h : (Tree.node k cs).Trim) : ∀ c ∈ cs, c.Trim := by
  cases h with
  | node _ _ _ hcs => exact hcs

/-- Of two lists of trim trees with the same tokens, both start with trivia or neither does. -/
theorem isTrivia_congr {t u : Tree} {ts us : List Tree} (hts : ∀ s ∈ t :: ts, s.Trim)
    (hus : ∀ s ∈ u :: us, s.Trim) (h : leavesOf (t :: ts) = leavesOf (u :: us)) :
    t.isTrivia = u.isTrivia := by
  have hfirst {t u : Tree} {ts us : List Tree} (hu : u.Trim)
      (h : leavesOf (t :: ts) = leavesOf (u :: us)) (htrivia : t.isTrivia = true) :
      u.isTrivia = true := by
    by_contra hne
    obtain ⟨x, xs, hx, hx'⟩ := hu.exists_head (Bool.not_eq_true _ ▸ hne)
    cases t with
    | node => cases htrivia
    | token t =>
      rw [leavesOf_cons, leavesOf_cons, hx, leaves_token] at h
      obtain ⟨rfl, -⟩ := List.cons.inj h
      rw [isTrivia_token, hx'] at htrivia
      cases htrivia
  rw [Bool.eq_iff_iff]
  exact ⟨hfirst (hus u List.mem_cons_self) h, hfirst (hts t List.mem_cons_self) h.symm⟩

/-- Where trivia stand in trim trees follows from the tokens and the trees without trivia. -/
theorem eq_of_bareOf {ts us : List Tree} (hts : ∀ t ∈ ts, t.Trim) (hus : ∀ u ∈ us, u.Trim)
    (hbare : bareOf ts = bareOf us) (hleaves : leavesOf ts = leavesOf us) : ts = us := by
  match ts, us with
  | [], [] => rfl
  | [], u :: us =>
    rw [leavesOf_cons, leavesOf_nil] at hleaves
    exact absurd (List.append_eq_nil_iff.1 hleaves.symm).1 (hus u List.mem_cons_self).leaves_ne_nil
  | t :: ts, [] =>
    rw [leavesOf_cons, leavesOf_nil] at hleaves
    exact absurd (List.append_eq_nil_iff.1 hleaves).1 (hts t List.mem_cons_self).leaves_ne_nil
  | .token t :: ts, .token u :: us =>
    rw [leavesOf_cons, leavesOf_cons, leaves_token, leaves_token] at hleaves
    obtain ⟨rfl, hrest⟩ := List.cons.inj hleaves
    have hbare' : bareOf ts = bareOf us := by
      cases h : (Tree.token t).isTrivia with
      | true => rwa [bareOf_cons_of_trivia h, bareOf_cons_of_trivia h] at hbare
      | false =>
        rw [bareOf_cons_of_not_trivia h, bareOf_cons_of_not_trivia h] at hbare
        exact (List.cons.inj hbare).2
    rw [eq_of_bareOf (List.forall_mem_cons.1 hts).2 (List.forall_mem_cons.1 hus).2 hbare' hrest]
  | .token t :: ts, .node j ds :: us =>
    have htrivia := isTrivia_congr hts hus hleaves
    rw [bareOf_cons_of_not_trivia htrivia, bareOf_node_cons, bare_token] at hbare
    cases hbare
  | .node k cs :: ts, .token u :: us =>
    have htrivia := isTrivia_congr hts hus hleaves
    rw [bareOf_cons_of_not_trivia htrivia.symm, bareOf_node_cons, bare_token] at hbare
    cases hbare
  | .node k cs :: ts, .node j ds :: us =>
    obtain ⟨ht, hts'⟩ := List.forall_mem_cons.1 hts
    obtain ⟨hu, hus'⟩ := List.forall_mem_cons.1 hus
    rw [bareOf_node_cons, bareOf_node_cons] at hbare
    obtain ⟨hnode, hbare'⟩ := List.cons.inj hbare
    obtain ⟨rfl, hbelow⟩ := Tree.node.inj hnode
    have hsig := congrArg leavesOf hbelow
    rw [leavesOf_bareOf, leavesOf_bareOf] at hsig
    rw [leavesOf_cons, leavesOf_cons] at hleaves
    have hsame := eq_of_significant hleaves hsig (ht.exists_last rfl) (hu.exists_last rfl)
    rw [hsame] at hleaves
    rw [eq_of_bareOf ht.children hu.children hbelow hsame,
      eq_of_bareOf hts' hus' hbare' (List.append_cancel_left hleaves)]
termination_by sizeOf ts

/-- Trivia in front of the other tokens of some trim trees stand in front of the trees. -/
theorem exists_of_leaves_append {ts : List Tree} (hts : ∀ t ∈ ts, t.Trim) {ws us : List Token}
    (hws : ∀ w ∈ ws, w.kind.isTrivia = true) (h : leavesOf ts = ws ++ us) :
    ∃ ts', ts = ws.map .token ++ ts' ∧ leavesOf ts' = us := by
  induction ws generalizing ts with
  | nil => exact ⟨ts, rfl, h⟩
  | cons w ws ih =>
    cases ts with
    | nil =>
      rw [leavesOf_nil] at h
      cases h
    | cons t ts =>
      obtain ⟨ht, hts'⟩ := List.forall_mem_cons.1 hts
      cases t with
      | node k cs =>
        obtain ⟨u, vs, hu, htrivia⟩ := ht.exists_head rfl
        rw [leavesOf_cons, hu] at h
        obtain ⟨rfl, -⟩ := List.cons.inj h
        rw [hws u List.mem_cons_self] at htrivia
        cases htrivia
      | token t =>
        rw [leavesOf_cons, leaves_token] at h
        obtain ⟨rfl, hrest⟩ := List.cons.inj h
        obtain ⟨ts', rfl, hleaves⟩ := ih hts' (fun v hv => hws v (List.mem_cons_of_mem _ hv)) hrest
        exact ⟨ts', rfl, hleaves⟩

end Tree

theorem trim_parse {source : String} (h : (parse source).errors = []) :
    ∀ t ∈ (parse source).tree.children, t.Trim :=
  fun t ht => (formed_parse h t ht).trim (led_parse source t ht)

end Renumber
