import Renumber.Proofs.Grammar.Formed
import Renumber.Proofs.Grammar.Leading
import Renumber.Proofs.Lossless
import Renumber.Proofs.Numbering.Reread
import Renumber.Proofs.Sound

/-!
# Trees are well formed

What holds of every element of the tree of a source (`wellFormed_parse`): no node below the root starts with
trivia; and if nothing is wrong with the source, the tree holds no error, no node that holds nothing and none
that ends in trivia, and the marks of blocks stand in suites, two in each (`Tree.Block`). What is known of a tree
is carried to its elements along their paths.
-/

namespace Renumber

theorem Kind.isMark_of_isNode {k : Kind} (h : k.isNode = true) : k.isMark = false := by
  revert h
  cases k <;> decide

namespace Tree

/-! ## Elements -/

theorem mem_elementsFrom {i : Nat} {ts : List Tree} {p : List Nat} {u : Tree} :
    (p, u) ∈ elementsFrom i ts ↔
      ∃ j c q, ts[j]? = some c ∧ p = (i + j) :: q ∧ (q, u) ∈ c.elements := by
  induction ts generalizing i with
  | nil => simp [elementsFrom]
  | cons t ts ih =>
    rw [elementsFrom, List.mem_append, ih]
    constructor
    · rintro (h | ⟨j, c, q, hc, rfl, hu⟩)
      · obtain ⟨⟨q, v⟩, hv, heq⟩ := List.mem_map.1 h
        obtain ⟨rfl, rfl⟩ := Prod.mk.inj heq
        exact ⟨0, t, q, rfl, rfl, hv⟩
      · exact ⟨j + 1, c, q, hc, by rw [Nat.add_assoc, Nat.add_comm 1], hu⟩
    · rintro ⟨j, c, q, hc, rfl, hu⟩
      cases j with
      | zero =>
        obtain rfl : t = c := Option.some.inj hc
        exact .inl (List.mem_map.2 ⟨(q, u), hu, rfl⟩)
      | succ j => exact .inr ⟨j, c, q, hc, by rw [Nat.add_assoc, Nat.add_comm 1], hu⟩

theorem mem_elements_self (t : Tree) : ([], t) ∈ t.elements := by
  cases t <;> simp [elements]

/-- An element of a node is the node or an element of one of its children. -/
theorem mem_elements_node {k : Kind} {cs : List Tree} {p : List Nat} {u : Tree} :
    (p, u) ∈ (node k cs).elements ↔ p = [] ∧ u = node k cs ∨
      ∃ j c q, cs[j]? = some c ∧ p = j :: q ∧ (q, u) ∈ c.elements := by
  rw [elements, List.mem_cons, Prod.mk.injEq, mem_elementsFrom]
  simp only [Nat.zero_add]

theorem mem_elements_token {t : Token} {p : List Nat} {u : Tree} :
    (p, u) ∈ (token t).elements ↔ p = [] ∧ u = token t := by
  rw [elements, List.mem_singleton, Prod.mk.injEq]

/-- What a path leads to is an element of the tree. -/
theorem mem_elements_of_at? {p : List Nat} {t u : Tree} (h : at? p t = some u) : (p, u) ∈ t.elements := by
  induction p generalizing t with
  | nil =>
    obtain rfl : t = u := Option.some.inj h
    exact mem_elements_self t
  | cons i p ih =>
    obtain ⟨c, hc, hu⟩ := Option.bind_eq_some_iff.1 h
    cases t with
    | token t => cases hc
    | node k cs => exact mem_elements_node.2 (.inr ⟨i, c, p, hc, rfl, ih hu⟩)

theorem mem_leavesOf {ts : List Tree} {t : Tree} (ht : t ∈ ts) {u : Token} (hu : u ∈ t.leaves) :
    u ∈ leavesOf ts := by
  induction ts with
  | nil => cases ht
  | cons s ts ih =>
    rw [leavesOf_cons, List.mem_append]
    rcases List.mem_cons.1 ht with rfl | ht
    · exact .inl hu
    · exact .inr (ih ht)

/-- The tokens among the elements of a tree are its leaves. -/
theorem mem_leaves_of_mem_elements {t : Tree} {p : List Nat} {u : Token}
    (h : (p, token u) ∈ t.elements) : u ∈ t.leaves := by
  induction p generalizing t with
  | nil =>
    cases t with
    | token t =>
      obtain ⟨-, htoken⟩ := mem_elements_token.1 h
      rw [← htoken, leaves_token]
      exact List.mem_singleton.2 rfl
    | node k cs =>
      rcases mem_elements_node.1 h with ⟨-, h⟩ | ⟨_, _, _, _, h, _⟩ <;> cases h
  | cons j q ih =>
    cases t with
    | token t => cases (mem_elements_token.1 h).1
    | node k cs =>
      rcases mem_elements_node.1 h with ⟨h, -⟩ | ⟨_, c, _, hc, hp, hu⟩
      · cases h
      · cases hp
        rw [leaves_node]
        exact mem_leavesOf (List.mem_of_getElem? hc) (ih hu)

/-- The elements of a led tree are led. -/
theorem Led.of_mem_elements {t : Tree} (h : t.Led) {p : List Nat} {u : Tree}
    (hu : (p, u) ∈ t.elements) : u.Led := by
  induction h generalizing p with
  | token t =>
    obtain ⟨-, rfl⟩ := mem_elements_token.1 hu
    exact .token t
  | node hhead hcs ih =>
    rcases mem_elements_node.1 hu with ⟨-, rfl⟩ | ⟨j, c, q, hc, -, hu⟩
    · exact .node hhead hcs
    · exact ih c (List.mem_of_getElem? hc) hu

/-! ## Blocks -/

/-- The children of a suite that opens a block: one mark opens it, and it is the second child that is not
trivia; one mark closes it, and it is the last child. -/
structure Block (cs : List Tree) : Prop where
  indents : cs.countP (fun c => c.kind == .indent) = 1
  indent : ((node .suite cs).significant.map Prod.snd)[1]?.map kind = some .indent
  dedents : cs.countP (fun c => c.kind == .dedent) = 1
  dedent : cs.getLast?.map kind = some .dedent

/-- The element of a tree is the mark of a block and stands in its suite. -/
def Marked (t : Tree) (p : List Nat) (u : Tree) : Prop :=
  u.isNode = false ∧ ∃ q i cs, p = q ++ [i] ∧ (q, node .suite cs) ∈ t.elements ∧ cs[i]? = some u ∧
    Block cs

/-- The mark of a block below a child of a node is one below the node. -/
theorem Marked.cons {t u : Tree} {q : List Nat} (h : t.Marked q u) {k : Kind} {cs : List Tree} {i : Nat}
    (hi : cs[i]? = some t) : (node k cs).Marked (i :: q) u := by
  obtain ⟨hu, q, j, ds, rfl, hds, hj, hblock⟩ := h
  exact ⟨hu, i :: q, j, ds, rfl, mem_elements_node.2 (.inr ⟨i, t, q, hi, rfl, hds⟩), hj, hblock⟩

theorem Formed.isMark {t : Tree} (h : t.Formed) : t.kind.isMark = false := by
  cases h with
  | token h => exact h
  | node hnode => exact Kind.isMark_of_isNode hnode
  | suite => rfl

/-- What a suite holds that opens a block. -/
theorem block_of_formed {ws ws' : List Token} {newline indent dedent : Token} {cs : List Tree}
    (hws : ∀ w ∈ ws, w.kind.isTrivia = true) (hnewline : newline.kind = .newline)
    (hws' : ∀ w ∈ ws', w.kind.isTrivia = true) (hindent : indent.kind = .indent)
    (hcs : ∀ c ∈ cs, c.Formed) (hdedent : dedent.kind = .dedent) :
    Block ((ws ++ newline :: (ws' ++ [indent])).map token ++ (cs ++ [.token dedent])) := by
  have hall : (ws ++ newline :: (ws' ++ [indent])).map token ++ (cs ++ [.token dedent]) =
      ws.map token ++ token newline :: (ws'.map token ++ token indent :: (cs ++ [.token dedent])) := by
    simp
  -- No other child is the mark of a block.
  have hzero {k : Kind} (hk : k.isMark = true) {ts : List Tree} (h : ∀ t ∈ ts, t.kind.isMark = false) :
      ts.countP (fun c => c.kind == k) = 0 := by
    rw [List.countP_eq_zero]
    intro t ht heq
    rw [← beq_iff_eq.1 heq, h t ht] at hk
    cases hk
  have htrivia {ws : List Token} (h : ∀ w ∈ ws, w.kind.isTrivia = true) :
      ∀ t ∈ ws.map token, t.kind.isMark = false := by
    intro t ht
    obtain ⟨w, hw, rfl⟩ := List.mem_map.1 ht
    exact Kind.isMark_of_isTrivia (h w hw)
  have hcount {k : Kind} (hk : k.isMark = true) :
      (ws.map token ++ token newline :: (ws'.map token ++ token indent :: (cs ++ [.token dedent]))).countP
        (fun c => c.kind == k) = [token indent, token dedent].countP fun c => c.kind == k := by
    have hne : ((token newline).kind == k) = false := by
      rw [kind, hnewline, beq_eq_false_iff_ne]
      rintro rfl
      cases hk
    rw [List.countP_append, hzero hk (htrivia hws), List.countP_cons, hne, List.countP_append,
      hzero hk (htrivia hws'), List.countP_cons, List.countP_append,
      hzero hk fun c hc => (hcs c hc).isMark, List.countP_cons (l := [token dedent])]
    simp
  rw [hall]
  constructor
  · exact (hcount rfl).trans (by simp [kind, hindent, hdedent])
  · rw [significant_eq, children, solidFrom_append_cons (Grammar.solid_map_token hws) (by rw [kind, hnewline]; rfl),
      solidFrom_append_cons (Grammar.solid_map_token hws') (by rw [kind, hindent]; rfl)]
    exact congrArg some hindent
  · exact (hcount rfl).trans (by simp [kind, hindent, hdedent])
  · rw [← hall, ← List.append_assoc, List.getLast?_concat]
    exact congrArg some hdedent

/-- An element of a formed tree is formed or the mark of a block. -/
theorem Formed.of_mem_elements {t : Tree} (h : t.Formed) {p : List Nat} {u : Tree}
    (hu : (p, u) ∈ t.elements) : u.Formed ∨ t.Marked p u := by
  induction h generalizing p with
  | token ht =>
    obtain ⟨-, rfl⟩ := mem_elements_token.1 hu
    exact .inl (.token ht)
  | node hnode herror hne hclosed hpower hcs ih =>
    rcases mem_elements_node.1 hu with ⟨-, rfl⟩ | ⟨i, c, q, hc, rfl, hq⟩
    · exact .inl (.node hnode herror hne hclosed hpower hcs)
    · exact (ih c (List.mem_of_getElem? hc) hq).imp_right (Marked.cons · hc)
  | @suite ws ws' newline indent dedent cs hws hnewline hws' hindent hcs hdedent ih =>
    have hblock := block_of_formed hws hnewline hws' hindent hcs hdedent
    rcases mem_elements_node.1 hu with ⟨-, rfl⟩ | ⟨i, c, q, hc, rfl, hq⟩
    · exact .inl (.suite hws hnewline hws' hindent hcs hdedent)
    rcases List.mem_append.1 (List.mem_of_getElem? hc) with h | h
    · obtain ⟨t, -, rfl⟩ := List.mem_map.1 h
      obtain ⟨rfl, rfl⟩ := mem_elements_token.1 hq
      exact .inr ⟨rfl, [], i, _, rfl, mem_elements_self _, hc, hblock⟩
    rcases List.mem_append.1 h with h | h
    · exact (ih c h hq).imp_right (Marked.cons · hc)
    · obtain rfl := List.mem_singleton.1 h
      obtain ⟨rfl, rfl⟩ := mem_elements_token.1 hq
      exact .inr ⟨rfl, [], i, _, rfl, mem_elements_self _, hc, hblock⟩

theorem Formed.kind_ne_error {t : Tree} (h : t.Formed) (ht : t.isNode = true) :
    t.kind ≠ .error ∧ t.kind ≠ .errorToken := by
  cases h with
  | token => cases ht
  | node hnode herror =>
    refine ⟨herror, ?_⟩
    rintro rfl
    cases hnode
  | suite => exact ⟨Kind.noConfusion, Kind.noConfusion⟩

theorem Formed.children_ne_nil {t : Tree} (h : t.Formed) (ht : t.isNode = true) : t.children ≠ [] := by
  cases h with
  | token => cases ht
  | node _ _ hne => exact hne
  | suite => simp [children]

theorem Formed.closed {t : Tree} (h : t.Formed) : Closed t.children := by
  cases h with
  | token => exact closed_nil
  | node _ _ _ hclosed => exact hclosed
  | suite _ _ _ _ _ hdedent =>
    rw [children, ← List.append_assoc]
    exact closed_concat _ (by rw [isTrivia_token, hdedent]; rfl)

theorem Led.clear {t : Tree} (h : t.Led) : Clear t.children := by
  cases h with
  | token => intro w hw; cases hw
  | node hhead => exact hhead

end Tree

/-- No token of a source without problems looks like an error. -/
theorem kind_ne_error_of_mem_tokensOf {source : String} (h : (parse source).errors = []) {t : Token}
    (ht : t ∈ tokensOf source) : t.kind ≠ .error ∧ t.kind ≠ .errorToken := by
  have hsound : ∀ l ∈ lex source, l.problem? = none := by
    intro l hl
    rw [(errors_parse_eq_nil_iff.1 h).1] at hl
    exact problem?_of_mem_sound hl
  obtain ⟨l, hl, rfl⟩ := List.mem_map.1 ht
  refine ⟨fun hk => ?_, Layout.ne_errorToken_of_lexFrom hsound hl⟩
  have hlexed := Layout.isLexed_of_mem_lexFrom hl
  rw [hk] at hlexed
  cases hlexed

/-- No node below the root of the tree of a source starts with trivia. If nothing is wrong with the source, then
the tree holds no error, no node that holds nothing but the root of a source without tokens, and below the root
no node that ends in trivia; and every mark of a block is a child of a suite that it opens or closes. -/
theorem wellFormed_parse (source : String) :
    (∀ p u, (p, u) ∈ (parse source).tree.elements → p ≠ [] →
      ∀ w, u.children.head? = some (.token w) → w.kind.isTrivia = false) ∧
    ((parse source).errors = [] → ∀ p u, (p, u) ∈ (parse source).tree.elements →
      (u.kind ≠ .error ∧ u.kind ≠ .errorToken) ∧
      (u.isNode = true → u.children = [] → p = [] ∧ u.kind = .module ∧ tokensOf source = []) ∧
      (p ≠ [] → ∀ w, u.children.getLast? = some (.token w) → w.kind.isTrivia = false) ∧
      (u.kind = .indent ∨ u.kind = .dedent → ∃ q i cs, p = q ++ [i] ∧
        (q, .node .suite cs) ∈ (parse source).tree.elements ∧ cs[i]? = some u ∧ Tree.Block cs)) := by
  have htree : (parse source).tree = .node .module (parse source).tree.children := rfl
  refine ⟨fun p u hu hp => ?_, fun herrors p u hu => ?_⟩
  · rw [htree] at hu
    rcases Tree.mem_elements_node.1 hu with ⟨h, -⟩ | ⟨i, c, q, hc, -, hq⟩
    · exact absurd h hp
    · exact ((led_parse source c (List.mem_of_getElem? hc)).of_mem_elements hq).clear
  · have htoken {t : Token} (ht : u = .token t) := kind_ne_error_of_mem_tokensOf herrors
      (leaves_parse source ▸ Tree.mem_leaves_of_mem_elements (ht ▸ hu))
    rw [htree] at hu
    rcases Tree.mem_elements_node.1 hu with ⟨rfl, rfl⟩ | ⟨i, c, q, hc, rfl, hq⟩
    · refine ⟨⟨Kind.noConfusion, Kind.noConfusion⟩, fun _ hnil => ⟨rfl, rfl, ?_⟩, (absurd rfl ·), ?_⟩
      · rw [Tree.children] at hnil
        rw [← leaves_parse, htree, Tree.leaves_node, hnil, Tree.leavesOf_nil]
      · rintro (h | h) <;> cases h
    · have hformed := (formed_parse herrors c (List.mem_of_getElem? hc)).of_mem_elements hq
      cases u with
      | token t =>
        refine ⟨htoken rfl, fun h => (Bool.false_ne_true h).elim, by rintro - w ⟨⟩, fun hmark => ?_⟩
        rcases hformed with hformed | hmarked
        · have := hformed.isMark
          rcases hmark with h | h <;> rw [h] at this <;> cases this
        · obtain ⟨-, hmarked⟩ := hmarked.cons hc
          rwa [htree]
      | node k cs =>
        rcases hformed with hformed | hmarked
        · refine ⟨hformed.kind_ne_error rfl, fun _ h => absurd h (hformed.children_ne_nil rfl),
            fun _ => hformed.closed, fun hmark => ?_⟩
          have := hformed.isMark
          rcases hmark with h | h <;> rw [h] at this <;> cases this
        · cases hmarked.1

set_option maxRecDepth 4000 in
/-- A block with a comment behind it: the mark that closes the block is in the suite. -/
theorem wellFormed_parse_block :
    (parse "if a:\n b\n# c\n").errors = [] ∧ ∃ q i cs, [0, 4, 6] = q ++ [i] ∧
      (q, .node .suite cs) ∈ (parse "if a:\n b\n# c\n").tree.elements ∧
      cs[i]? = some (.token ⟨.dedent, ""⟩) ∧ Tree.Block cs := by
  have hlex : lex "if a:\n b\n# c\n" = Lexeme.sound [⟨.ifKw, "if"⟩, ⟨.whitespace, " "⟩, ⟨.ident, "a"⟩,
      ⟨.colon, ":"⟩, ⟨.newline, "\n"⟩, ⟨.whitespace, " "⟩, ⟨.indent, ""⟩, ⟨.ident, "b"⟩, ⟨.newline, "\n"⟩,
      ⟨.comment, "# c"⟩, ⟨.nl, "\n"⟩, ⟨.dedent, ""⟩] := by cbv
  have herrors := errors_parse_of_lex hlex (by decide +kernel)
  have hdedent : Tree.at? [0, 4, 6] (parse "if a:\n b\n# c\n").tree = some (.token ⟨.dedent, ""⟩) := by
    rw [tree_parse_of_lex hlex]
    rfl
  exact ⟨herrors, ((wellFormed_parse _).2 herrors _ _ (Tree.mem_elements_of_at? hdedent)).2.2.2 (.inr rfl)⟩

end Renumber
