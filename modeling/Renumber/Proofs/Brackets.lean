import Renumber.Proofs.Grammar.Brackets
import Renumber.Proofs.Lossless
import Renumber.Proofs.Tree.Splice

/-!
# Brackets of a source without problems

In a source without problems the brackets are well nested, and the two of a pair stand in one node of its tree
(`brackets_parse`). The scan, which counts brackets and does not ask for their kinds, never finds one closed that
is not open, and what it counts are the pairs around a token; so no line ends and no block opens or closes inside
a pair.

The tree is what ties the two together: the brackets among the children of each node are nested
(`bracketed_parse`), so an opening bracket finds its closing one among its siblings
(`Tree.Bracketed.exists_closer`), and no other bracket closes it.
-/

namespace Renumber

namespace Tree

/-! ## Where a leaf stands -/

mutual

/-- Every leaf of a tree is an element of it. -/
theorem exists_leaf : (t : Tree) → {as bs : List Token} → {o : Token} → t.leaves = as ++ o :: bs →
    ∃ p, at? p t = some (token o) ∧ leavesBefore p t = as
  | token t, as, bs, o, h => by
    rw [leaves_token] at h
    cases as with
    | nil =>
      obtain ⟨rfl, -⟩ := List.cons.inj h
      exact ⟨[], rfl, rfl⟩
    | cons a as => simpa using (List.cons.inj h).2
  | node k cs, as, bs, o, h => by
    rw [leaves_node] at h
    obtain ⟨us, c, vs, p, rfl, hp, rfl⟩ := exists_leafOf cs h
    exact ⟨us.length :: p, by rw [at?_append_cons, hp], leavesBefore_append_cons k us vs c p⟩

/-- Every leaf of some trees is an element of one of them. -/
theorem exists_leafOf : (ts : List Tree) → {as bs : List Token} → {o : Token} →
    leavesOf ts = as ++ o :: bs →
    ∃ us c vs p, ts = us ++ c :: vs ∧ at? p c = some (token o) ∧ leavesOf us ++ leavesBefore p c = as
  | [], as, bs, o, h => by simp at h
  | t :: ts, as, bs, o, h => by
    rw [leavesOf_cons] at h
    rcases List.append_eq_append_iff.1 h with ⟨cs, rfl, hcs⟩ | ⟨cs, hcs, hrest⟩
    · obtain ⟨us, c, vs, p, rfl, hp, rfl⟩ := exists_leafOf ts hcs
      exact ⟨t :: us, c, vs, p, rfl, hp, by rw [leavesOf_cons, List.append_assoc]⟩
    · cases cs with
      | nil =>
        have hts : leavesOf ts = [] ++ o :: bs := hrest.symm
        obtain ⟨us, c, vs, p, rfl, hp, hbefore⟩ := exists_leafOf ts hts
        refine ⟨t :: us, c, vs, p, rfl, hp, ?_⟩
        rw [leavesOf_cons, List.append_assoc, hbefore, hcs, List.append_nil, List.append_nil]
      | cons c cs =>
        obtain ⟨rfl, -⟩ := List.cons.inj hrest
        obtain ⟨p, hp, hbefore⟩ := exists_leaf t hcs
        exact ⟨[], t, ts, p, rfl, hp, by rw [leavesOf_nil, List.nil_append, hbefore]⟩

end

/-! ## Siblings -/

/-- The tokens at two places of a tree, counted among its leaves, are children of one of its nodes. -/
def Siblings (t : Tree) (i j : Nat) : Prop :=
  ∃ q k us o vs c ws, at? q t = some (node k (us ++ token o :: (vs ++ token c :: ws))) ∧
    i = (leavesBefore (q ++ [us.length]) t).length ∧
    j = (leavesBefore (q ++ [(us ++ token o :: vs).length]) t).length

theorem exists_own {ts : List Tree} {as bs : List Token} {c : Token} (h : own ts = as ++ c :: bs) :
    ∃ us vs, ts = us ++ token c :: vs ∧ own us = as := by
  obtain ⟨us, ws, rfl, hus, hws⟩ := List.filterMap_eq_append_iff.1 h
  obtain ⟨ns, u, vs, rfl, hns, hu, -⟩ := List.filterMap_eq_cons_iff.1 hws
  cases u with
  | node => cases hu
  | token u =>
    obtain rfl := Option.some.inj hu
    have hnone : own ns = [] := List.filterMap_eq_nil_iff.2 hns
    exact ⟨us ++ ns, vs, (List.append_assoc ..).symm, by rw [own_append, hnone, List.append_nil, ← hus]; rfl⟩

/-- An opening bracket has its closing one among its siblings. -/
theorem Bracketed.exists_closer {k j : Kind} {us ws : List Tree} {o : Token}
    (h : (Tree.node k (us ++ Tree.token o :: ws)).Bracketed) (ho : o.kind.closing? = some j) :
    ∃ vs c xs, ws = vs ++ Tree.token c :: xs ∧ c.kind = j ∧ Token.Nested (leavesOf vs) := by
  cases h with
  | node hown hcs =>
    rw [own_append, own_cons_token] at hown
    obtain ⟨st, -, hst⟩ := hown.exists_awaited
    rw [Token.awaited, Kind.awaited_of_closing ho, Option.bind_some] at hst
    obtain ⟨ys, c, zs, hws, hys, hc, -⟩ := Token.exists_closer hst
    obtain ⟨vs, xs, rfl, rfl⟩ := exists_own hws
    refine ⟨vs, c, xs, rfl, hc, nested_leavesOf (fun t ht => hcs t ?_) hys⟩
    simp [ht]

/-- The brackets of a pair are siblings. -/
theorem Bracketed.siblings {t : Tree} (h : t.Bracketed) (ht : t.isNode = true) {i j : Nat}
    (hpair : Token.Paired t.leaves i j) : t.Siblings i j := by
  obtain ⟨as, o, us, c, bs, hleaves, hc, hus, rfl, rfl⟩ := hpair
  obtain ⟨p, hp, rfl⟩ := exists_leaf t hleaves
  have hne : p ≠ [] := by
    rintro rfl
    obtain rfl := Option.some.inj hp
    cases ht
  obtain ⟨q, k, xs, ys, rfl, hq⟩ := exists_parent hp hne
  obtain ⟨vs, c', ws, rfl, hc', hvs⟩ := (h.of_at? hq).exists_closer hc
  have hbefore (zs : List Tree) (z : Tree) (zs' : List Tree)
      (hz : xs ++ Tree.token o :: (vs ++ Tree.token c' :: ws) = zs ++ z :: zs') :
      leavesBefore (q ++ [zs.length]) t = leavesBefore q t ++ leavesOf zs := by
    rw [leavesBefore_append hq, hz, leavesBefore_append_cons, leavesBefore, List.append_nil]
  have ho := hbefore xs (Tree.token o) _ rfl
  -- The bracket that closes this one among its siblings is the one of the pair.
  obtain ⟨zs, hzs⟩ := exists_leaves_eq hq
  have hrest : leavesOf vs ++ c' :: (leavesOf ws ++ zs) = us ++ c :: bs := by
    have heq := hzs.symm.trans hleaves
    rw [ho] at heq
    simpa using heq
  obtain ⟨rfl, -⟩ := hvs.unique_closer hus (hc' ▸ Kind.mem_closers_of_closing hc)
    (Kind.mem_closers_of_closing hc) hrest
  refine ⟨q, k, xs, o, vs, c', ws, hq, rfl, ?_⟩
  rw [hbefore (xs ++ Tree.token o :: vs) (Tree.token c') ws (by simp), ho, leavesOf_append, leavesOf_cons,
    leaves_token]
  simp

end Tree

/-- No pair of brackets is around the end of a line or the mark of a block. -/
theorem Token.Nested.not_paired_around {source : String} {as bs : List Token} {t : Token}
    (hnested : Nested (as ++ t :: bs)) (h : tokensOf source = as ++ t :: bs) (ht : t.kind.isLayout = true)
    {i j : Nat} (hpair : Paired (as ++ t :: bs) i j) : ¬(i < as.length ∧ as.length < j) := by
  rintro ⟨hi, hj⟩
  obtain ⟨ls, ms, hlex, rfl, hms⟩ := List.map_eq_append_iff.1 h
  obtain ⟨l, ns, rfl, rfl, rfl⟩ := List.map_eq_cons_iff.1 hms
  obtain ⟨-, hzero⟩ | ⟨-, n, rfl⟩ := Layout.layout_given (s := .start source) hlex ht
  · -- Outside brackets no pair is open.
    obtain ⟨st, has, -⟩ := hnested.exists_awaited
    have hcard := hnested.ncard_openAt has
    have hempty : st.length = 0 := (Layout.depthPast_of_awaited has).symm.trans hzero
    rw [hempty, Set.ncard_eq_zero (finite_openAt _ _)] at hcard
    have hmem : (i, j) ∈ openAt _ _ := ⟨hpair, hi, hj.le⟩
    rw [hcard] at hmem
    exact hmem
  · -- Nothing but closed blocks comes behind, so no bracket does.
    obtain ⟨_, c, _, hc, hclosing⟩ := hpair.getElem?
    have hmem : c ∈ (List.replicate n (Lexeme.mark .dedent none)).map Lexeme.token := by
      rw [List.getElem?_append_right hj.le, List.getElem?_cons] at hc
      rw [if_neg (by omega)] at hc
      exact List.mem_of_getElem? hc
    have hclose := Kind.mem_closers_of_closing hclosing
    rw [List.map_replicate] at hmem
    rw [(List.mem_replicate.1 hmem).2] at hclose
    revert hclose
    decide

/-- A source without problems: its brackets are well nested, each closed by one of its kind, and the two of a
pair are children of one node. The scan never closes a bracket that is not open. It counts its brackets from token
to token, and at a token that is no bracket it has counted the pairs around it; around the ends of lines and the
marks of blocks there are none. -/
theorem brackets_parse {source : String} (h : (parse source).errors = []) :
    Token.Nested (tokensOf source) ∧
    (∀ i j, Token.Paired (tokensOf source) i j → (parse source).tree.Siblings i j) ∧
    (∀ ls s, Layout.Reached (.start source) ls s →
      s.mode.depth = Layout.depthPast 0 (ls.map Lexeme.token)) ∧
    ∀ as t bs, tokensOf source = as ++ t :: bs →
      (t.kind ∈ Kind.closers → 0 < Layout.depthPast 0 as) ∧
      (t.kind ∉ Kind.openers → t.kind ∉ Kind.closers → Layout.depthPast 0 as =
        {p : Nat × Nat | Token.Paired (tokensOf source) p.1 p.2 ∧
          p.1 < as.length ∧ as.length < p.2}.ncard) ∧
      (t.kind.isLayout = true → ∀ i j, Token.Paired (tokensOf source) i j →
        ¬(i < as.length ∧ as.length < j)) := by
  have htree := bracketed_parse h
  have hleaves := leaves_parse source
  have hnested : Token.Nested (tokensOf source) :=
    hleaves ▸ Token.nested_iff.2 (htree.awaited rfl [])
  refine ⟨hnested, fun i j hpair => htree.siblings rfl (hleaves.symm ▸ hpair),
    fun ls s hs => hs.depth_eq.symm, fun as t bs hts => ?_⟩
  rw [hts] at hnested
  obtain ⟨st, has, hbs⟩ := hnested.exists_awaited
  have hdepth : Layout.depthPast 0 as = st.length := Layout.depthPast_of_awaited has
  have hcard := hnested.ncard_openAt has
  rw [hts, hdepth]
  refine ⟨fun hclose => ?_, fun hopen hclose => ?_, fun hlayout i j =>
    hnested.not_paired_around hts hlayout⟩
  · rw [Token.awaited, Option.bind_eq_some_iff] at hbs
    obtain ⟨e, he, -⟩ := hbs
    rw [(Kind.awaited_closer_eq_some_iff hclose).1 he]
    exact Nat.succ_pos _
  · rw [← hcard]
    congr 1
    ext ⟨i, j⟩
    refine and_congr_right fun hpair => and_congr_right fun _ => ?_
    obtain ⟨_, c, _, hc, hclosing⟩ := hpair.getElem?
    refine ⟨fun hle => lt_of_le_of_ne hle ?_, Nat.le_of_lt⟩
    rintro rfl
    obtain rfl : t = c := by simpa using hc
    exact hclose (Kind.mem_closers_of_closing hclosing)

set_option maxRecDepth 4000 in
/-- A subscript inside a call: two pairs are around the number. -/
theorem brackets_parse_subscript :
    let source := "f(a[0])\n"
    let as : List Token := [⟨.ident, "f"⟩, ⟨.lParen, "("⟩, ⟨.ident, "a"⟩, ⟨.lBracket, "["⟩]
    let bs : List Token := [⟨.rBracket, "]"⟩, ⟨.rParen, ")"⟩, ⟨.newline, "\n"⟩]
    (parse source).errors = [] ∧
    (Token.Paired (tokensOf source) 3 5 ∧ (parse source).tree.Siblings 3 5) ∧
    (Layout.Reached (.start source) [] (.start source) ∧ (Layout.State.start source).mode.depth = 0) ∧
    tokensOf source = as ++ ⟨.number, "0"⟩ :: bs ∧ Layout.depthPast 0 as = 2 ∧
      {p : Nat × Nat | Token.Paired (tokensOf source) p.1 p.2 ∧ p.1 < 4 ∧ 4 < p.2}.ncard = 2 := by
  have hlex : lex "f(a[0])\n" = Lexeme.sound [⟨.ident, "f"⟩, ⟨.lParen, "("⟩, ⟨.ident, "a"⟩,
      ⟨.lBracket, "["⟩, ⟨.number, "0"⟩, ⟨.rBracket, "]"⟩, ⟨.rParen, ")"⟩, ⟨.newline, "\n"⟩] := by cbv
  intro source as bs
  have herrors := errors_parse_of_lex hlex (by decide +kernel)
  have htokens : tokensOf source = as ++ ⟨.number, "0"⟩ :: bs := tokensOf_of_lex hlex
  have hpair : Token.Paired (tokensOf source) 3 5 :=
    ⟨as.take 3, ⟨.lBracket, "["⟩, [⟨.number, "0"⟩], ⟨.rBracket, "]"⟩, bs.drop 1, htokens, rfl,
      .plain (by decide) (by decide) .nil, rfl, rfl⟩
  obtain ⟨-, hsiblings, hstates, hdepth⟩ := brackets_parse herrors
  have hinside := (hdepth _ _ _ htokens).2.1 (by decide) (by decide)
  exact ⟨herrors, ⟨hpair, hsiblings _ _ hpair⟩, ⟨.start, hstates _ _ .start⟩, htokens, rfl, hinside.symm⟩

end Renumber
