import Renumber.Proofs.Grammar.Fixed
import Renumber.Proofs.Lossless
import Renumber.Proofs.Numbering.Quiet

/-!
# What stands in front of the last marks

The blocks that are still open at the end of a text are closed by marks at the end of its tree. Two trees may
differ in the tokens that stand in front of these marks (`AtEnd`): trivia that follow a text move there when
it is read together with them (`exists_atEnd`). Numbering does not look at these tokens (`Coded.atEnd`).
-/

namespace Renumber

namespace Tree

/-- The trees are the same, but for the tokens in front of the marks that they end with. -/
inductive AtEnd (ws ws' : List Token) : List Tree → List Tree → Prop
  | here {ds : List Token} (hds : Token.textOf ds = "") :
      AtEnd ws ws' ((ws ++ ds).map token) ((ws' ++ ds).map token)
  | inside {k : Kind} {cs cs' : List Tree} {ds : List Token} (hk : k ≠ .powerExpr)
      (hds : Token.textOf ds = "") (hcs : AtEnd ws ws' cs cs') :
      AtEnd ws ws' (node k cs :: ds.map token) (node k cs' :: ds.map token)
  | there {ts us : List Tree} (t : Tree) (h : AtEnd ws ws' ts us) : AtEnd ws ws' (t :: ts) (t :: us)

section
variable {ws ws' : List Token} {ts us : List Tree}

theorem AtEnd.symm (h : AtEnd ws ws' ts us) : AtEnd ws' ws us ts := by
  induction h with
  | here hds => exact .here hds
  | inside hk hds _ ih => exact .inside hk hds ih
  | there t _ ih => exact .there t ih

theorem AtEnd.append_left (h : AtEnd ws ws' ts us) (vs : List Tree) :
    AtEnd ws ws' (vs ++ ts) (vs ++ us) := by
  induction vs with
  | nil => exact h
  | cons v vs ih => exact .there v ih

/-- These tokens are the last ones that have a text. -/
theorem AtEnd.exists_textOf (h : AtEnd ws ws' ts us) : ∃ text,
    Token.textOf (leavesOf ts) = text ++ Token.textOf ws ∧
      Token.textOf (leavesOf us) = text ++ Token.textOf ws' := by
  induction h with
  | here hds => exact ⟨"", by simp [hds], by simp [hds]⟩
  | inside _ hds _ ih =>
    obtain ⟨text, hts, hus⟩ := ih
    exact ⟨text, by simp [hts, hds], by simp [hus, hds]⟩
  | there t _ ih =>
    obtain ⟨text, hts, hus⟩ := ih
    exact ⟨Token.textOf t.leaves ++ text, by simp [hts, String.append_assoc],
      by simp [hus, String.append_assoc]⟩

theorem coded_map_token_iff {us : List Token} {vs : List Tree} {s s' : UInt64}
    {fs : List (UInt64 × FixKind × Shape)} :
    Coded s (us.map token) vs fs s' ↔ vs = us.map token ∧ fs = [] ∧ s' = s := by
  refine coded_quiet_iff ?_
  induction us with
  | nil => rfl
  | cons u us ih => rw [List.map_cons, powersOf_cons, powers_token, ih]

/-- Numbering makes of such trees such trees, with the same codes. -/
theorem Coded.atEnd {s s' : UInt64} {ts' : List Tree} {fs : List (UInt64 × FixKind × Shape)}
    (hcoded : Coded s ts ts' fs s') (h : AtEnd ws ws' ts us) :
    ∃ us', Coded s us us' fs s' ∧ AtEnd ws ws' ts' us' := by
  induction h generalizing s ts' fs s' with
  | here hds =>
    obtain ⟨rfl, rfl, rfl⟩ := coded_map_token_iff.1 hcoded
    exact ⟨_, coded_map_token_iff.2 ⟨rfl, rfl, rfl⟩, .here hds⟩
  | @inside k cs cs' ds hk hds _ ih =>
    obtain ⟨es, _, f₁, f₂, s₁, rfl, rfl, hcs, htokens⟩ :=
      (coded_plain_iff (call?_eq_none hk cs)).1 hcoded
    obtain ⟨rfl, rfl, rfl⟩ := coded_map_token_iff.1 htokens
    obtain ⟨es', hcs', hend⟩ := ih hcs
    exact ⟨_, .plain (call?_eq_none hk cs') hcs' htokens, .inside hk hds hend⟩
  | @there ts us t _ ih =>
    have hcons : Coded s ([t] ++ ts) ts' fs s' := hcoded
    obtain ⟨t', vs, f₁, f₂, s₁, rfl, rfl, ht, hts⟩ := coded_append_iff.1 hcons
    obtain ⟨us', hus, hend⟩ := ih hts
    exact ⟨_, ht.append hus, hend.append_left t'⟩

end

/-! ## Trivia in front of the marks -/

/-- The tokens are marks that close blocks. -/
def Dedents (ds : List Token) : Prop := ∀ d ∈ ds, d = ⟨.dedent, ""⟩

theorem Dedents.textOf {ds : List Token} (h : Dedents ds) : Token.textOf ds = "" := by
  induction ds with
  | nil => rfl
  | cons d ds ih =>
    rw [Token.textOf_cons, h d List.mem_cons_self, ih fun e he => h e (List.mem_cons_of_mem _ he)]
    rfl

section
variable {ws : List Token}

/-- A tree closes only blocks that it opens, so the marks that some trees end with are in the last one. -/
theorem exists_last_of_dedents {ts : List Tree} (hts : ∀ t ∈ ts, t.Formed) (htrim : ∀ t ∈ ts, t.Trim)
    {xs ds : List Token} (hds : Dedents ds) (hne : ds ≠ []) (h : leavesOf ts = xs ++ ds) :
    ∃ us t ys, ts = us ++ [t] ∧ xs = leavesOf us ++ ys ∧ t.leaves = ys ++ ds := by
  have hts' : ts ≠ [] := by
    rintro rfl
    exact hne (List.append_eq_nil_iff.1 h.symm).2
  obtain ⟨us, t, rfl⟩ := (List.eq_nil_or_concat' ts).resolve_left hts'
  have ht : t ∈ us ++ [t] := by simp
  rw [leavesOf_append, leavesOf_cons, leavesOf_nil, List.append_nil] at h
  rcases List.append_eq_append_iff.1 h with ⟨ys, hxs, hys⟩ | ⟨zs, -, hzs⟩
  · exact ⟨us, t, ys, rfl, hxs, hys⟩
  · obtain ⟨d, es, hd⟩ := List.exists_cons_of_ne_nil (htrim t ht).leaves_ne_nil
    have hnest := (hts t ht).nest 0
    rw [hd, hds d (by rw [hzs, hd]; simp)] at hnest
    cases hnest

/-- Some trivia can stand in front of the marks that the tree ends with. -/
def Yields (ws : List Token) (t : Tree) : Prop :=
  ∀ xs ds es, Dedents ds → ds ≠ [] → Dedents es → t.leaves = xs ++ ds →
    ∃ t', AtEnd [] ws (t :: es.map token) (t' :: es.map token) ∧ t'.leaves = xs ++ (ws ++ ds) ∧
      t'.bare = t.bare ∧ t'.Trim ∧ t'.isTrivia = false

/-- Trivia can stand in front of the marks that some trees end with, if they can in each of the trees. -/
theorem exists_atEnd_of_yields (hws : ∀ w ∈ ws, w.kind.isTrivia = true) {ts : List Tree}
    (hts : ∀ t ∈ ts, t.Formed) (htrim : ∀ t ∈ ts, t.Trim) (hyields : ∀ t ∈ ts, t.Yields ws)
    {xs ds es : List Token} (hds : Dedents ds) (hes : Dedents es) (h : leavesOf ts = xs ++ ds) :
    ∃ us, AtEnd [] ws (ts ++ es.map token) (us ++ es.map token) ∧ leavesOf us = xs ++ (ws ++ ds) ∧
      bareOf us = bareOf ts ∧ ∀ u ∈ us, u.Trim := by
  by_cases hne : ds = []
  · subst hne
    refine ⟨ts ++ ws.map token, ?_, ?_, ?_, fun u hu => ?_⟩
    · have hhere : AtEnd [] ws (([] ++ es).map token) ((ws ++ es).map token) := .here hes.textOf
      have hend := hhere.append_left ts
      rwa [List.nil_append, List.map_append, ← List.append_assoc] at hend
    · rw [leavesOf_append, leavesOf_map_token, h]
      simp
    · rw [bareOf_append, bareOf_map_token, Token.significant_of_trivia hws, List.map_nil,
        List.append_nil]
    · rcases List.mem_append.1 hu with hu | hu
      · exact htrim u hu
      · obtain ⟨w, -, rfl⟩ := List.mem_map.1 hu
        exact .token w
  · obtain ⟨us, t, ys, rfl, rfl, ht⟩ := exists_last_of_dedents hts htrim hds hne h
    obtain ⟨t', hend, hleaves, hbare, htrim', -⟩ :=
      hyields t (by simp) ys ds es hds hne hes ht
    refine ⟨us ++ [t'], ?_, ?_, ?_, fun u hu => ?_⟩
    · simpa using hend.append_left us
    · simp [hleaves]
    · rw [bareOf_append, bareOf_append, bareOf_singleton_congr hbare]
    · rcases List.mem_append.1 hu with hu | hu
      · exact htrim u (List.mem_append_left _ hu)
      · rwa [List.mem_singleton.1 hu]

/-- Trivia can stand in front of the marks that the tree of a source without problems ends with. -/
theorem Formed.yields {t : Tree} (h : t.Formed) (htrim : t.Trim)
    (hws : ∀ w ∈ ws, w.kind.isTrivia = true) : t.Yields ws := by
  induction h with
  | @token t hmark =>
    intro xs ds es hds hne _ hleaves
    have hmem : t ∈ ds := by
      obtain ⟨us, d, rfl⟩ := (List.eq_nil_or_concat' ds).resolve_left hne
      rw [leaves_token, ← List.append_assoc] at hleaves
      obtain ⟨-, hd⟩ := List.append_inj' (show [] ++ [t] = _ from hleaves) rfl
      simp [List.singleton_inj.1 hd]
    rw [hds t hmem] at hmark
    cases hmark
  | @node k cs _ _ hne _ hpower hcs ih =>
    intro xs ds es hds hne' hes hleaves
    rw [leaves_node] at hleaves
    obtain ⟨us, c, ys, rfl, rfl, hc⟩ := exists_last_of_dedents hcs htrim.children hds hne' hleaves
    have hmem : c ∈ us ++ [c] := by simp
    obtain ⟨c', hend, hleaves', hbare, htrim', htoken⟩ :=
      ih c hmem (htrim.children c hmem) ys ds [] hds hne' (List.forall_mem_nil _) hc
    -- An expression with trailers holds no marks.
    have hk : k ≠ .powerExpr := by
      intro hk
      obtain ⟨d, es, rfl⟩ := List.exists_cons_of_ne_nil hne'
      have hmark := hpower hk d (by rw [hleaves]; simp)
      rw [hds d List.mem_cons_self] at hmark
      cases hmark
    refine ⟨.node k (us ++ [c']), .inside hk hes.textOf (hend.append_left us), ?_, ?_, ?_, rfl⟩
    · simp [hleaves']
    · rw [bare_node, bare_node, bareOf_append, bareOf_append, bareOf_singleton_congr hbare]
    · cases htrim with
      | node _ hclear _ hchildren =>
      refine .node (by simp) ?_ (closed_concat us htoken) fun u hu => ?_
      · cases us with
        | nil =>
          intro w hw
          rw [Option.some.inj hw] at htoken
          exact htoken
        | cons u us => exact hclear.of_append (List.cons_ne_nil u us) [c']
      · rcases List.mem_append.1 hu with hu | hu
        · exact hchildren u (List.mem_append_left _ hu)
        · rwa [List.mem_singleton.1 hu]
  | @suite vs vs' newline indent dedent cs _ _ _ hindent hcs hdedent ih =>
    intro xs ds es hds hne hes hleaves
    -- The block is closed by the last of the marks. The others are those of the statements in it.
    obtain ⟨ds, d, rfl⟩ := (List.eq_nil_or_concat' ds).resolve_left hne
    have hds' : Dedents ds := fun e he => hds e (List.mem_append_left _ he)
    rw [leaves_node, leavesOf_append, leavesOf_map_token, leavesOf_append, leavesOf_cons,
      leaves_token, leavesOf_nil, List.append_nil, ← List.append_assoc, ← List.append_assoc] at hleaves
    obtain ⟨hinner, hlast⟩ := List.append_inj' hleaves rfl
    obtain rfl : dedent = d := List.singleton_inj.1 hlast
    obtain ⟨ys, rfl, hys⟩ : ∃ ys, xs = vs ++ newline :: (vs' ++ [indent]) ++ ys ∧
        leavesOf cs = ys ++ ds := by
      rcases List.append_eq_append_iff.1 hinner with ⟨ys, hxs, hys⟩ | ⟨zs, hzs, hds''⟩
      · exact ⟨ys, hxs, hys⟩
      · obtain rfl : zs = [] := by
          by_contra hne
          obtain ⟨zs, z, rfl⟩ := (List.eq_nil_or_concat' zs).resolve_left hne
          rw [← List.append_assoc, ← List.cons_append, ← List.append_assoc] at hzs
          obtain ⟨-, hz⟩ := List.append_inj' hzs rfl
          obtain rfl : indent = z := List.singleton_inj.1 hz
          rw [hds' indent (by rw [hds'']; simp)] at hindent
          cases hindent
        exact ⟨[], by rw [hzs]; simp, by rw [hds'']; rfl⟩
    have hchildren := htrim.children
    have hmark : Dedents [dedent] := fun e he => by
      rw [List.mem_singleton.1 he]
      exact hds _ (by simp)
    have hyields : ∀ c ∈ cs, c.Yields ws := fun c hc => ih c hc (hchildren c (by simp [hc]))
    obtain ⟨us, hend, hleaves', hbare, htrim'⟩ := exists_atEnd_of_yields hws hcs
      (fun c hc => hchildren c (by simp [hc])) hyields hds' hmark hys
    refine ⟨.node .suite ((vs ++ newline :: (vs' ++ [indent])).map Tree.token ++
      (us ++ [Tree.token dedent])), .inside Kind.noConfusion hes.textOf (hend.append_left _),
      ?_, ?_, ?_, rfl⟩
    · simp [hleaves']
    · rw [bare_node, bare_node, bareOf_append, bareOf_append, bareOf_append, bareOf_append, hbare]
    · cases htrim with
      | node _ hclear =>
      refine .node (by simp) (hclear.of_append (by simp) _) ?_ fun c hc => ?_
      · rw [← List.append_assoc]
        exact closed_concat _ (by rw [isTrivia_token, hdedent]; rfl)
      · rcases List.mem_append.1 hc with hc | hc
        · exact hchildren c (List.mem_append_left _ hc)
        · rcases List.mem_append.1 hc with hc | hc
          · exact htrim' c hc
          · rw [List.mem_singleton.1 hc]
            exact .token _

/-- Trivia can stand in front of the marks that the trees of a source without problems end with. -/
theorem exists_atEnd {ts : List Tree} (hts : ∀ t ∈ ts, t.Formed) (htrim : ∀ t ∈ ts, t.Trim)
    (hws : ∀ w ∈ ws, w.kind.isTrivia = true) {xs ds : List Token} (hds : Dedents ds)
    (h : leavesOf ts = xs ++ ds) : ∃ us, AtEnd [] ws ts us ∧ leavesOf us = xs ++ (ws ++ ds) ∧
      bareOf us = bareOf ts ∧ ∀ u ∈ us, u.Trim := by
  have hyields : ∀ t ∈ ts, t.Yields ws := fun t ht => (hts t ht).yields (htrim t ht) hws
  obtain ⟨us, hend, hus⟩ :=
    exists_atEnd_of_yields hws hts htrim hyields hds (List.forall_mem_nil _) h
  rw [List.map_nil, List.append_nil, List.append_nil] at hend
  exact ⟨us, hend, hus⟩

end

end Tree

end Renumber
