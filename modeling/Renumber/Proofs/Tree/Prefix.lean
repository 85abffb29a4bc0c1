import Renumber.Proofs.Grammar.Fixed
import Renumber.Proofs.Numbering.Site
import Renumber.Proofs.Tree.Splice

/-!
# Trivia in front of an element

In the tree of a source without problems every node holds something and neither starts nor ends with trivia.
So the trivia in front of an element stand side by side among the children of one node (`Front`): the way back
from the element goes up past first children, over these trivia, and stops at the last token of the sibling in
front of them. They can be read and taken away there, and blanks put directly in front of the element are
then all that is in front of it (`leading_setLeading`).
-/

namespace Renumber.Tree

open Token (textOf)

/-! ## The tokens at the ends of an element -/

theorem Trim.exists_firstToken {t : Tree} (h : t.Trim) : ∃ q, t.firstToken? = some q := by
  induction h with
  | token t => exact ⟨[], rfl⟩
  | @node k cs hne _ _ _ ih =>
    obtain ⟨c, cs, rfl⟩ := List.exists_cons_of_ne_nil hne
    obtain ⟨q, hq⟩ := ih c List.mem_cons_self
    exact ⟨0 :: q, by rw [firstToken?, hq, Option.map_some]⟩

theorem lastTokenFrom_concat (i : Nat) (us : List Tree) (c : Tree) :
    lastTokenFrom i (us ++ [c]) = (lastToken? c).map ((i + us.length) :: ·) := by
  induction us generalizing i with
  | nil => rw [List.nil_append, lastTokenFrom, List.length_nil, Nat.add_zero]
  | cons u us ih =>
    obtain ⟨v, vs, hvs⟩ := List.exists_cons_of_ne_nil
      (List.append_ne_nil_of_right_ne_nil us (List.cons_ne_nil c []))
    rw [List.cons_append, hvs, lastTokenFrom, ← hvs, ih, List.length_cons, Nat.add_right_comm,
      Nat.add_assoc]

/-- What is no trivia ends with a token that is none, found through last children. -/
theorem Trim.exists_lastToken {t : Tree} (h : t.Trim) (ht : t.isTrivia = false) :
    ∃ q w, t.lastToken? = some q ∧ at? q t = some (.token w) ∧ w.kind.isTrivia = false := by
  induction h with
  | token t => exact ⟨[], t, by rw [lastToken?], rfl, ht⟩
  | @node k cs hne _ hclosed _ ih =>
    obtain ⟨us, c, rfl⟩ := (List.eq_nil_or_concat' cs).resolve_left hne
    have hc : c.isTrivia = false := by
      cases c with
      | token t => exact hclosed t (List.getLast?_concat ..)
      | node => rfl
    obtain ⟨q, w, hq, hw, htrivia⟩ := ih c (by simp) hc
    refine ⟨us.length :: q, w, ?_, ?_, htrivia⟩
    · rw [lastToken?, lastTokenFrom_concat, hq, Nat.zero_add, Option.map_some]
    · rw [at?_append_cons, hw]

theorem trim_of_at? {root e : Tree} {p : List Nat} (hroot : ∀ c ∈ root.children, c.Trim)
    (h : at? p root = some e) (hp : p ≠ []) : e.Trim := by
  induction p generalizing root with
  | nil => exact absurd rfl hp
  | cons i p ih =>
    obtain ⟨k, us, c, vs, rfl, rfl, hc⟩ := at?_cons_eq_some_iff.1 h
    have hc' : c.Trim := hroot c (List.mem_append_right _ List.mem_cons_self)
    cases p with
    | nil =>
      obtain rfl := Option.some.inj hc
      exact hc'
    | cons j p =>
      obtain ⟨k', us', d, vs', rfl, rfl, hd⟩ := at?_cons_eq_some_iff.1 hc
      exact @ih (node k' (us' ++ d :: vs')) hc'.children hc (List.cons_ne_nil _ _)

/-! ## The way back -/

/-- Behind some children of the node at the end of a path there is no trivia: the last of them is none, or
there are none of them and the node is the root. -/
def Edge (q : List Nat) (us : List Tree) : Prop :=
  q = [] ∧ us = [] ∨ ∃ vs u, us = vs ++ [u] ∧ u.Trim ∧ u.isTrivia = false

theorem Edge.triviaBefore_eq_nil {q : List Nat} {us : List Tree} (h : Edge q us) {root : Tree}
    {k : Kind} {vs : List Tree} (hq : at? q root = some (node k (us ++ vs))) {zs : List Nat}
    (hzs : ∀ i ∈ zs, i = 0) (n : Nat) : triviaBefore root n (q ++ us.length :: zs) = [] := by
  cases n with
  | zero => rfl
  | succ n =>
    rcases h with ⟨rfl, rfl⟩ | ⟨xs, u, rfl, hu, htrivia⟩
    · have hzeros : ∀ i ∈ 0 :: zs, i = 0 := List.forall_mem_cons.2 ⟨rfl, hzs⟩
      rw [triviaBefore, tokenBefore?, List.nil_append, List.length_nil, siblingBefore?_zeros hzeros]
      rfl
    · obtain ⟨r, w, hr, hw, hword⟩ := hu.exists_lastToken htrivia
      have hlast : at? (q ++ [xs.length]) root = some u := by
        rw [at?_append, hq, List.append_assoc, Option.bind_some, List.singleton_append,
          at?_append_cons, at?]
      have htoken : tokenBefore? root (q ++ (xs ++ [u]).length :: zs) =
          some (q ++ [xs.length] ++ r) := by
        rw [tokenBefore?, List.length_append, List.length_singleton, siblingBefore?_append hzs]
        simp [hlast, hr]
      have hat : at? (q ++ [xs.length] ++ r) root = some (token w) := by
        rw [at?_append, hlast, Option.bind_some, hw]
      rw [triviaBefore, htoken]
      simp only [hat, hword, Bool.false_eq_true, if_false]

/-- The way back goes on over a sibling that is a trivia token. -/
theorem triviaBefore_succ {root : Tree} {q zs : List Nat} {i : Nat} {w : Token}
    (hat : at? (q ++ [i]) root = some (token w)) (hw : w.kind.isTrivia = true)
    (hzs : ∀ i ∈ zs, i = 0) (n : Nat) : triviaBefore root (n + 1) (q ++ (i + 1) :: zs) =
      (q ++ [i], w) :: triviaBefore root n (q ++ [i]) := by
  have htoken : tokenBefore? root (q ++ (i + 1) :: zs) = some (q ++ [i]) := by
    rw [tokenBefore?, siblingBefore?_append hzs]
    simp [hat, lastToken?]
  rw [triviaBefore, htoken]
  simp only [hat, hw, if_true]

/-- The way back from an element starts at its first token, which is down first children from it. -/
theorem Trim.exists_leading {root e : Tree} {p : List Nat} (he : e.Trim)
    (h : at? p root = some e) : ∃ q, (∀ i ∈ q, i = 0) ∧
      root.leading p = (triviaBefore root root.leaves.length (p ++ q)).reverse := by
  obtain ⟨q, hq⟩ := he.exists_firstToken
  refine ⟨q, eq_zero_of_firstToken? hq, ?_⟩
  rw [leading, h, Option.bind_some, hq]

/-- Tokens side by side among the children of the node at the end of a path, from an index on, each with
its path. -/
def tokensAt (q : List Nat) (i : Nat) (ws : List Token) : List (List Nat × Token) :=
  (ws.zipIdx i).map fun (w, j) => (q ++ [j], w)

theorem tokensAt_concat (q : List Nat) (i : Nat) (ws : List Token) (w : Token) :
    tokensAt q i (ws ++ [w]) = tokensAt q i ws ++ [(q ++ [i + ws.length], w)] := by
  simp [tokensAt, List.zipIdx_append]

theorem map_snd_tokensAt (q : List Nat) (i : Nat) (ws : List Token) :
    (tokensAt q i ws).map Prod.snd = ws := by
  rw [tokensAt, List.map_map]
  exact List.zipIdx_map_fst i ws

theorem triviaBefore_eq {root : Tree} {q : List Nat} {k : Kind} {us vs : List Tree} {ws : List Token}
    (hq : at? q root = some (node k (us ++ (ws.map token ++ vs)))) (hedge : Edge q us)
    (hws : ∀ w ∈ ws, w.kind.isTrivia = true) {zs : List Nat} (hzs : ∀ i ∈ zs, i = 0) {n : Nat}
    (hn : ws.length ≤ n) : (triviaBefore root n (q ++ (us.length + ws.length) :: zs)).reverse =
      tokensAt q us.length ws := by
  induction ws using List.reverseRecOn generalizing vs zs n with
  | nil =>
    rw [List.length_nil, Nat.add_zero, hedge.triviaBefore_eq_nil hq hzs]
    rfl
  | append_singleton ws w ih =>
    rw [List.length_append, List.length_singleton] at hn ⊢
    obtain ⟨m, rfl⟩ : ∃ m, n = m + 1 := ⟨n - 1, by omega⟩
    have hq' : at? q root = some (node k (us ++ (ws.map token ++ token w :: vs))) := by
      rw [hq, List.map_append, List.append_assoc]
      rfl
    have hat : at? (q ++ [us.length + ws.length]) root = some (token w) := by
      have := at?_append_cons k (us ++ ws.map token) vs (token w) []
      rw [at?_append, hq', Option.bind_some]
      rwa [List.length_append, List.length_map, List.append_assoc] at this
    rw [← Nat.add_assoc, triviaBefore_succ hat (hws w (by simp)) hzs, List.reverse_cons,
      tokensAt_concat, ih hq' (fun v hv => hws v (List.mem_append_left _ hv))
        (List.forall_mem_nil _) (by omega)]

/-! ## Where the trivia stand -/

theorem exists_trailing {ts : List Tree} (hts : ∀ t ∈ ts, t.Trim) :
    ∃ (us : List Tree) (ws : List Token), ts = us ++ ws.map token ∧ (∀ w ∈ ws, w.kind.isTrivia = true) ∧
      (us = [] ∨ ∃ vs u, us = vs ++ [u] ∧ u.Trim ∧ u.isTrivia = false) := by
  induction ts using List.reverseRecOn with
  | nil => exact ⟨[], [], rfl, List.forall_mem_nil _, .inl rfl⟩
  | append_singleton ts t ih =>
    have ht : t.Trim := hts t (by simp)
    cases htrivia : t.isTrivia with
    | false => exact ⟨ts ++ [t], [], by simp, List.forall_mem_nil _, .inr ⟨ts, t, rfl, ht, htrivia⟩⟩
    | true =>
      cases t with
      | node => cases htrivia
      | token w =>
        obtain ⟨us, ws, rfl, hws, hus⟩ := ih fun u hu => hts u (List.mem_append_left _ hu)
        refine ⟨us, ws ++ [w], by simp, fun v hv => ?_, hus⟩
        rcases List.mem_append.1 hv with hv | hv
        · exact hws v hv
        · rw [List.mem_singleton.1 hv]
          exact htrivia

/-- Where the trivia in front of an element stand: among the children of the node at the end of the path
`up`, directly in front of a child that the element is, or that it is found in by going `down` first
children. -/
structure Front (root e : Tree) where
  up : List Nat
  kind : Kind
  before : List Tree
  trivia : List Token
  first : Tree
  after : List Tree
  down : List Nat
  at_up : at? up root = some (node kind (before ++ (trivia.map token ++ first :: after)))
  at_down : at? down first = some e
  zeros : ∀ i ∈ down, i = 0
  isTrivia : ∀ w ∈ trivia, w.kind.isTrivia = true
  edge : Edge up before

/-- The path to the element. -/
def Front.path {root e : Tree} (F : Front root e) : List Nat :=
  F.up ++ (F.before.length + F.trivia.length) :: F.down

theorem exists_front_child {k : Kind} {us vs : List Tree} {c e : Tree} {zs : List Nat}
    (hus : ∀ u ∈ us, u.Trim) (hzs : ∀ i ∈ zs, i = 0) (he : at? zs c = some e) :
    ∃ F : Front (node k (us ++ c :: vs)) e, F.path = us.length :: zs := by
  obtain ⟨xs, ws, rfl, hws, hxs⟩ := exists_trailing hus
  refine ⟨{
    up := []
    kind := k
    before := xs
    trivia := ws
    first := c
    after := vs
    down := zs
    at_up := by rw [at?, List.append_assoc]
    at_down := he
    zeros := hzs
    isTrivia := hws
    edge := hxs.imp_left fun h => ⟨rfl, h⟩ }, ?_⟩
  rw [Front.path, List.nil_append, List.length_append, List.length_map]

/-- The induction is on the path. A child that the trivia would be the first thing in has none there, so
they are in front of the child. -/
theorem exists_front {root e : Tree} {p : List Nat} (hroot : ∀ c ∈ root.children, c.Trim)
    (h : at? p root = some e) (hp : p ≠ []) : ∃ F : Front root e, F.path = p := by
  induction p generalizing root with
  | nil => exact absurd rfl hp
  | cons i p ih =>
    obtain ⟨k, us, c, vs, rfl, rfl, hc⟩ := at?_cons_eq_some_iff.1 h
    have hus : ∀ u ∈ us, u.Trim := fun u hu => hroot u (List.mem_append_left _ hu)
    have htrim : c.Trim := hroot c (List.mem_append_right _ List.mem_cons_self)
    cases p with
    | nil => exact exists_front_child hus (List.forall_mem_nil _) hc
    | cons j p =>
      obtain ⟨k', us', d, vs', rfl, rfl, hd⟩ := at?_cons_eq_some_iff.1 hc
      obtain ⟨F, hpath⟩ :=
        @ih (node k' (us' ++ d :: vs')) htrim.children hc (List.cons_ne_nil _ _)
      rcases F.edge with ⟨hup, hbefore⟩ | hedge
      · have hat := F.at_up
        rw [hup, hbefore, at?, List.nil_append] at hat
        rw [Front.path, hup, hbefore, List.nil_append, List.length_nil, Nat.zero_add] at hpath
        have htrivia : F.trivia = [] := by
          by_contra hne
          obtain ⟨w, ws, hws⟩ := List.exists_cons_of_ne_nil hne
          rw [hws] at hat
          cases htrim with
          | node _ hclear _ _ =>
            have hw := hclear w (by rw [(node.inj (Option.some.inj hat)).2]; rfl)
            rw [F.isTrivia w (hws ▸ List.mem_cons_self)] at hw
            cases hw
        rw [htrivia] at hpath
        refine exists_front_child hus ?_ hc
        rw [← hpath]
        exact List.forall_mem_cons.2 ⟨rfl, F.zeros⟩
      · exact ⟨{
          up := us.length :: F.up
          kind := F.kind
          before := F.before
          trivia := F.trivia
          first := F.first
          after := F.after
          down := F.down
          at_up := by rw [at?_append_cons, F.at_up]
          at_down := F.at_down
          zeros := F.zeros
          isTrivia := F.isTrivia
          edge := .inr hedge }, congrArg (us.length :: ·) hpath⟩

/-! ## Taking the trivia away -/

theorem remove_eq {root e : Tree} {q : List Nat} {k : Kind} {us vs : List Tree}
    (h : at? q root = some (node k (us ++ e :: vs))) :
    Swapped (node k (us ++ e :: vs)) (node k (us ++ vs)) q root (root.remove (q ++ [us.length])) := by
  obtain ⟨t, ht, hswap⟩ := exists_edit h fun _ => []
  rw [remove, ht]
  exact hswap

/-- Tokens side by side are taken out from the last to the first. -/
theorem removeAll_tokensAt {root : Tree} {q : List Nat} {k : Kind} {us vs : List Tree}
    {ws : List Token} (h : at? q root = some (node k (us ++ (ws.map token ++ vs)))) :
    Swapped (node k (us ++ (ws.map token ++ vs))) (node k (us ++ vs)) q root
      (root.removeAll ((tokensAt q us.length ws).map Prod.fst)) := by
  induction ws using List.reverseRecOn generalizing root with
  | nil => exact .refl h
  | append_singleton ws w ih =>
    have hcs : us ++ ((ws ++ [w]).map token ++ vs) = (us ++ ws.map token) ++ token w :: vs := by simp
    rw [hcs] at h ⊢
    have hswap := remove_eq h
    have hlength : (us ++ ws.map token).length = us.length + ws.length := by simp
    rw [List.append_assoc us (ws.map token) vs, hlength] at hswap
    have hrest := ih hswap.at?_right
    rw [tokensAt_concat, List.map_append, removeAll, List.foldr_append]
    exact hswap.trans hrest

/-! ## Blanks in front of an element -/

theorem leavesBefore_zeros {zs : List Nat} (hzs : ∀ i ∈ zs, i = 0) (t : Tree) :
    leavesBefore zs t = [] := by
  induction zs generalizing t with
  | nil => rfl
  | cons i zs ih =>
    obtain ⟨rfl, hzs'⟩ := List.forall_mem_cons.1 hzs
    rw [leavesBefore, List.take_zero, leavesOf_nil, List.nil_append]
    cases t.children[0]? with
    | none => rfl
    | some c => exact ih hzs' c

section
variable {b : Token} {c e : Tree} {zs : List Nat}

theorem leavesOf_blank (he : at? zs c = some e) (hzs : ∀ i ∈ zs, i = 0) :
    leavesOf (substitute (fun t => [token b, t]) zs c) = b :: c.leaves := by
  induction zs generalizing c with
  | nil => simp [substitute]
  | cons i zs ih =>
    obtain ⟨k, us, d, vs, rfl, rfl, hd⟩ := at?_cons_eq_some_iff.1 he
    obtain ⟨hus, hzs'⟩ := List.forall_mem_cons.1 hzs
    obtain rfl := List.eq_nil_of_length_eq_zero hus
    rw [substitute_append_cons]
    simp [ih hd hzs']

theorem bareOf_blank (he : at? zs c = some e) (hb : b.kind.isTrivia = true) :
    bareOf (substitute (fun t => [token b, t]) zs c) = bareOf [c] := by
  induction zs generalizing c with
  | nil => rw [substitute, bareOf_cons_of_trivia (by exact hb)]
  | cons i zs ih =>
    obtain ⟨k, us, d, vs, rfl, rfl, hd⟩ := at?_cons_eq_some_iff.1 he
    rw [substitute_append_cons, bareOf_node_cons, bareOf_node_cons, bareOf_append, bareOf_append, ih hd,
      ← bareOf_append, ← bareOf_append, List.append_assoc, List.singleton_append]

/-- The blanks are where the element was, and the element is the next sibling. -/
theorem at?_blank (he : at? zs c = some e) (k : Kind) (us vs : List Tree) :
    at? (us.length :: zs) (node k (us ++ (substitute (fun t => [token b, t]) zs c ++ vs))) =
        some (token b) ∧
      at? (alongside 1 (us.length :: zs))
        (node k (us ++ (substitute (fun t => [token b, t]) zs c ++ vs))) = some e := by
  induction zs generalizing c k us vs with
  | nil =>
    obtain rfl := Option.some.inj he
    refine ⟨at?_append_cons k us (c :: vs) (token b) [], ?_⟩
    have := at?_append_cons k (us ++ [token b]) vs c []
    rwa [List.length_append, List.append_assoc] at this
  | cons i zs ih =>
    obtain ⟨k', us', d, vs', rfl, rfl, hd⟩ := at?_cons_eq_some_iff.1 he
    rw [substitute_append_cons, List.singleton_append, List.append_assoc, at?_append_cons, alongside,
      at?_append_cons]
    · exact ih hd k' us' vs'
    · exact List.cons_ne_nil _ _

theorem leavesBefore_blank (he : at? zs c = some e) (hzs : ∀ i ∈ zs, i = 0) (k : Kind)
    (us vs : List Tree) : leavesBefore (alongside 1 (us.length :: zs))
      (node k (us ++ (substitute (fun t => [token b, t]) zs c ++ vs))) = leavesOf us ++ [b] := by
  induction zs generalizing c k us vs with
  | nil =>
    have := leavesBefore_append_cons k (us ++ [token b]) vs c []
    rw [List.length_append, List.append_assoc, leavesOf_append] at this
    exact this.trans (by simp [leavesBefore])
  | cons i zs ih =>
    obtain ⟨k', us', d, vs', rfl, rfl, hd⟩ := at?_cons_eq_some_iff.1 he
    obtain ⟨hus, hzs'⟩ := List.forall_mem_cons.1 hzs
    obtain rfl := List.eq_nil_of_length_eq_zero hus
    rw [substitute_append_cons, List.singleton_append, List.append_assoc, alongside,
      leavesBefore_append_cons, ih hd hzs']
    · rw [leavesOf_nil, List.nil_append]
    · exact List.cons_ne_nil _ _

end

theorem Swapped.bare_eq {e e' root root' : Tree} {p : List Nat} (h : Swapped e e' p root root')
    (hbare : e'.bare = e.bare) : root'.bare = root.bare := by
  induction h with
  | here => exact hbare
  | @child p c c' k us vs _ ih =>
    have hc : bareOf [c'] = bareOf [c] := bareOf_singleton_congr ih
    rw [bare_node, bare_node, bareOf_append, bareOf_append, ← List.singleton_append, bareOf_append, hc,
      ← bareOf_append, List.singleton_append]

/-- The tokens that a text of blanks is. -/
def blankTokens (text : String) : List Token := if text = "" then [] else [⟨.whitespace, text⟩]

theorem textOf_blankTokens (text : String) : textOf (blankTokens text) = text := by
  unfold blankTokens
  split
  · rename_i h
    rw [h, Token.textOf_nil]
  · simp

namespace Front

variable {root e : Tree} (F : Front root e)

theorem at_path : at? F.path root = some e := by
  have h := at?_append_cons F.kind (F.before ++ F.trivia.map token) F.after F.first F.down
  rw [List.length_append, List.length_map, List.append_assoc] at h
  rw [path, at?_append, F.at_up, Option.bind_some, h, F.at_down]

/-- The tokens before the element, and the trivia in front of it. -/
theorem leavesBefore_path :
    leavesBefore F.path root = leavesBefore F.up root ++ leavesOf F.before ++ F.trivia := by
  have h := leavesBefore_append_cons F.kind (F.before ++ F.trivia.map token) F.after F.first F.down
  rw [List.length_append, List.length_map, List.append_assoc, leavesBefore_zeros F.zeros,
    List.append_nil, leavesOf_append, leavesOf_map_token] at h
  rw [path, leavesBefore_append F.at_up, h, List.append_assoc]

theorem leading_eq (he : e.Trim) :
    root.leading F.path = tokensAt F.up F.before.length F.trivia := by
  obtain ⟨q, hq, hleading⟩ := he.exists_leading F.at_path
  have hzeros : ∀ i ∈ F.down ++ q, i = 0 := fun i hi =>
    (List.mem_append.1 hi).elim (F.zeros i) (hq i)
  have hlength : F.trivia.length ≤ root.leaves.length := by
    obtain ⟨ws, hws⟩ := exists_leaves_eq F.at_path
    rw [hws, F.leavesBefore_path]
    simp only [List.length_append]
    omega
  rw [hleading, path, List.append_assoc, List.cons_append,
    triviaBefore_eq F.at_up F.edge F.isTrivia hzeros hlength]

/-- The child in front of which the trivia stand, with blanks put directly in front of the element. -/
def blanked (text : String) : List Tree :=
  if text = "" then [F.first] else substitute (fun t => [blanks text, t]) F.down F.first

theorem leavesOf_blanked (text : String) :
    leavesOf (F.blanked text) = blankTokens text ++ F.first.leaves := by
  unfold blanked blankTokens
  split
  · simp
  · rw [blanks, leavesOf_blank F.at_down F.zeros, List.singleton_append]

theorem bareOf_blanked (text : String) : bareOf (F.blanked text) = bareOf [F.first] := by
  unfold blanked
  split
  · rfl
  · exact bareOf_blank F.at_down rfl

/-- The tree with blanks directly in front of the element, and no trivia where they stood. -/
def Blanked (text : String) (t : Tree) : Prop :=
  Swapped (node F.kind (F.before ++ (F.trivia.map token ++ F.first :: F.after)))
    (node F.kind (F.before ++ (F.blanked text ++ F.after))) F.up root t

/-- Blanks take the place of the trivia. -/
theorem exists_setLeading (he : e.Trim) {text : String}
    (htext : text.toList.all isHorizontal = true) :
    ∃ t, root.setLeading F.path text = (t, .ok ()) ∧ F.Blanked text t := by
  unfold setLeading
  rw [F.leading_eq he]
  by_cases hempty : text = ""
  · have hblanked : F.blanked text = [F.first] := if_pos hempty
    rw [hempty, beq_self_eq_true, if_pos rfl, ← hempty]
    refine ⟨_, rfl, ?_⟩
    rw [Blanked, hblanked]
    exact removeAll_tokensAt F.at_up
  · obtain ⟨t, ht⟩ := exists_swapped F.at_up
      (node F.kind (F.before ++ (F.trivia.map token ++ (F.blanked text ++ F.after))))
    have hsubst := substitute_append_cons (fun t => [blanks text, t]) F.down F.kind
      (F.before ++ F.trivia.map token) F.after F.first
    have hblanked : F.blanked text = substitute (fun t => [blanks text, t]) F.down F.first :=
      if_neg hempty
    rw [← hblanked, List.length_append, List.length_map, List.append_assoc, List.append_assoc,
      List.append_assoc] at hsubst
    have hinsert : root.insertBefore F.path [blanks text] = .ok t :=
      edit_eq_ok (List.append_ne_nil_of_right_ne_nil _ (List.cons_ne_nil _ _))
        (ht.substitute_eq hsubst)
    rw [beq_eq_false_iff_ne.2 hempty, htext, hinsert]
    exact ⟨_, rfl, ht.trans (removeAll_tokensAt ht.at?_right)⟩

/-- The tokens of the tree, and of the tree with blanks. -/
theorem exists_leaves : ∃ ws,
    root.leaves = leavesBefore F.up root ++ leavesOf F.before ++ F.trivia ++ e.leaves ++ ws ∧
    ∀ text t, F.Blanked text t → t.leaves =
      leavesBefore F.up root ++ leavesOf F.before ++ blankTokens text ++ e.leaves ++ ws := by
  obtain ⟨xs, hxs⟩ := exists_leaves_eq F.at_down
  obtain ⟨ys, hys⟩ := exists_leaves_eq F.at_up
  rw [leavesBefore_zeros F.zeros, List.nil_append] at hxs
  refine ⟨xs ++ leavesOf F.after ++ ys, ?_, fun text t h => ?_⟩
  · rw [hys]
    simp [hxs]
  · obtain ⟨zs, hroot, ht⟩ := h.leaves_eq
    obtain rfl := List.append_cancel_left (hroot.symm.trans hys)
    rw [ht]
    simp [hxs, F.leavesOf_blanked]

namespace Blanked

variable {F} {text : String} {t : Tree}

/-- Without trivia, the tree is the same. -/
theorem bare_eq (h : F.Blanked text t) : t.bare = root.bare := by
  refine Swapped.bare_eq h ?_
  rw [bare_node, bare_node, bareOf_append, bareOf_append, bareOf_append, bareOf_append,
    bareOf_blanked, bareOf_map_token, Token.significant_of_trivia F.isTrivia, List.map_nil,
    List.nil_append, ← bareOf_append, List.singleton_append]

/-- With no blanks, the way back from the element stops where the trivia were. -/
theorem exists_path_of_empty (h : F.Blanked "" t) (he : e.Trim) : ∃ p, at? p t = some e ∧
    leavesBefore p t = leavesBefore F.up root ++ leavesOf F.before ∧ t.leadingText p = "" := by
  have hup : at? F.up t = some (node F.kind (F.before ++ F.first :: F.after)) := h.at?_right
  have hat : at? (F.up ++ F.before.length :: F.down) t = some e := by
    rw [at?_append, hup, Option.bind_some, at?_append_cons, F.at_down]
  refine ⟨F.up ++ F.before.length :: F.down, hat, ?_, ?_⟩
  · rw [leavesBefore_append hup, leavesBefore_append_cons, leavesBefore_zeros F.zeros,
      h.leavesBefore_eq, List.append_nil]
  · obtain ⟨q, hq, hleading⟩ := he.exists_leading hat
    have hzeros : ∀ i ∈ F.down ++ q, i = 0 := fun i hi =>
      (List.mem_append.1 hi).elim (F.zeros i) (hq i)
    rw [leadingText, hleading, List.append_assoc, List.cons_append,
      F.edge.triviaBefore_eq_nil hup hzeros]
    rfl

/-- With blanks, it goes over them first. -/
theorem exists_path_of_ne_empty (h : F.Blanked text t) (he : e.Trim) (hne : text ≠ "") :
    ∃ p, at? p t = some e ∧
      leavesBefore p t = leavesBefore F.up root ++ leavesOf F.before ++ [⟨.whitespace, text⟩] ∧
      t.leadingText p = text := by
  have hup := h.at?_right
  rw [blanked, if_neg hne, blanks] at hup
  obtain ⟨hblank, hat⟩ := at?_blank (b := ⟨.whitespace, text⟩) F.at_down F.kind F.before F.after
  obtain ⟨s, i, hs⟩ := (F.up ++ F.before.length :: F.down).eq_nil_or_concat'.resolve_left
    (List.append_ne_nil_of_right_ne_nil _ (List.cons_ne_nil _ _))
  have hnext : F.up ++ alongside 1 (F.before.length :: F.down) = s ++ [i + 1] := by
    rw [← alongside_append _ _ (List.cons_ne_nil _ _), hs,
      alongside_append _ _ (List.cons_ne_nil _ _), alongside]
  have hafter : at? (s ++ [i + 1]) t = some e := by
    rw [← hnext, at?_append, hup, Option.bind_some, hat]
  have hbefore : at? (s ++ [i]) t = some (token ⟨.whitespace, text⟩) := by
    rw [← hs, at?_append, hup, Option.bind_some, hblank]
  refine ⟨s ++ [i + 1], hafter, ?_, ?_⟩
  · rw [← hnext, leavesBefore_append hup, leavesBefore_blank F.at_down F.zeros, h.leavesBefore_eq,
      List.append_assoc]
  · obtain ⟨q, hq, hleading⟩ := he.exists_leading hafter
    obtain ⟨ws, hws⟩ := exists_leaves_eq hbefore
    obtain ⟨n, hn⟩ : ∃ n, t.leaves.length = n + 1 := by
      rw [hws, List.length_append, List.length_append, leaves_token, List.length_singleton,
        Nat.add_right_comm]
      exact ⟨_, rfl⟩
    rw [leadingText, hleading, hn, List.append_assoc, List.singleton_append,
      triviaBefore_succ hbefore rfl hq, ← hs, F.edge.triviaBefore_eq_nil hup F.zeros]
    simp

/-- The element behind the blanks, which are all that is in front of it. -/
theorem exists_path (h : F.Blanked text t) (he : e.Trim) : ∃ p, at? p t = some e ∧
    leavesBefore p t = leavesBefore F.up root ++ leavesOf F.before ++ blankTokens text ∧
    t.leadingText p = text := by
  by_cases hempty : text = ""
  · subst hempty
    obtain ⟨p, hp, hbefore, hread⟩ := h.exists_path_of_empty he
    exact ⟨p, hp, hbefore.trans (List.append_nil _).symm, hread⟩
  · obtain ⟨p, hp, hbefore, hread⟩ := h.exists_path_of_ne_empty he hempty
    refine ⟨p, hp, ?_, hread⟩
    rw [hbefore, blankTokens, if_neg hempty]

end Blanked

/-- The tokens in front of the trivia end with one that is none. -/
theorem leavesBefore_edge : leavesBefore F.up root ++ leavesOf F.before = [] ∨
    ∃ xs x, leavesBefore F.up root ++ leavesOf F.before = xs ++ [x] ∧ x.kind.isTrivia = false := by
  rcases F.edge with ⟨hup, hbefore⟩ | ⟨vs, u, hbefore, hu, htrivia⟩
  · rw [hup, hbefore]
    exact .inl rfl
  · obtain ⟨xs, x, hx, hword⟩ := hu.exists_last htrivia
    refine .inr ⟨leavesBefore F.up root ++ leavesOf vs ++ xs, x, ?_, hword⟩
    rw [hbefore]
    simp [hx]

end Front

/-- The trivia in front of an element can be read and set. Take an element other than the root in the tree
of a source without problems, with the tokens `us` up to the last one in front of it that is no trivia.
What is read as the trivia in front of it is the text between these tokens and the element. Every text of
blanks can be put in their place, the empty one too: the element then stands behind the same tokens `us`
and these blanks, which are read as what is in front of it, and nothing else changes: neither the other
tokens nor, trivia left out, the tree. -/
theorem leading_setLeading {source : String} (hclean : (parse source).errors = []) {p : List Nat}
    {e : Tree} (h : at? p (parse source).tree = some e) (hp : p ≠ []) :
    ∃ us ws vs, tokensOf source = us ++ ws ++ e.leaves ++ vs ∧
      leavesBefore p (parse source).tree = us ++ ws ∧
      (us = [] ∨ ∃ xs x, us = xs ++ [x] ∧ x.kind.isTrivia = false) ∧
      (∀ w ∈ ws, w.kind.isTrivia = true) ∧
      (parse source).tree.leadingText p = textOf ws ∧
      source = textOf us ++ (parse source).tree.leadingText p ++ e.text ++ textOf vs ∧
      ∀ text, text.toList.all isHorizontal = true → ∃ t q,
        (parse source).tree.setLeading p text = (t, .ok ()) ∧ at? q t = some e ∧
        leavesBefore q t = us ++ blankTokens text ∧ t.leadingText q = text ∧
        t.leaves = us ++ blankTokens text ++ e.leaves ++ vs ∧
        t.text = textOf us ++ text ++ e.text ++ textOf vs ∧
        t.bare = (parse source).tree.bare := by
  obtain ⟨F, rfl⟩ := exists_front (trim_parse hclean) h hp
  have htrim := trim_of_at? (trim_parse hclean) h hp
  obtain ⟨vs, hvs, hset⟩ := F.exists_leaves
  have hleading : (parse source).tree.leadingText F.path = textOf F.trivia := by
    rw [leadingText, F.leading_eq htrim, map_snd_tokensAt]
  refine ⟨_, F.trivia, vs, (leaves_parse source).symm.trans hvs, F.leavesBefore_path,
    F.leavesBefore_edge, F.isTrivia, hleading, ?_, fun text htext => ?_⟩
  · have htext := congrArg textOf hvs
    rw [leaves_parse, textOf_tokensOf] at htext
    rw [hleading, Tree.text, ← Token.textOf_append, ← Token.textOf_append, ← Token.textOf_append]
    exact htext
  · obtain ⟨t, ht, hblanked⟩ := F.exists_setLeading htrim htext
    obtain ⟨q, hq, hbefore, hread⟩ := hblanked.exists_path htrim
    have hleaves := hset text t hblanked
    refine ⟨t, q, ht, hq, hbefore, hread, hleaves, ?_, hblanked.bare_eq⟩
    rw [Tree.text, hleaves]
    simp only [Token.textOf_append, textOf_blankTokens, Tree.text]

set_option maxRecDepth 4000 in
/-- The line feed and the blanks in front of a name stand in front of the list of arguments that it
starts. -/
theorem leading_setLeading_argument :
    (parse "f(\n    a)\n").errors = [] ∧
      at? [0, 0, 0, 1, 3, 0] (parse "f(\n    a)\n").tree =
        some (node .name [token ⟨.ident, "a"⟩]) ∧
      ∃ t q, (parse "f(\n    a)\n").tree.setLeading [0, 0, 0, 1, 3, 0] " " = (t, .ok ()) ∧
        at? q t = some (node .name [token ⟨.ident, "a"⟩]) ∧ t.leadingText q = " " := by
  have hlex : lex "f(\n    a)\n" = Lexeme.sound [⟨.ident, "f"⟩, ⟨.lParen, "("⟩, ⟨.nl, "\n"⟩,
      ⟨.whitespace, "    "⟩, ⟨.ident, "a"⟩, ⟨.rParen, ")"⟩, ⟨.newline, "\n"⟩] := by cbv
  have herrors := errors_parse_of_lex hlex (by decide +kernel)
  have hat : at? [0, 0, 0, 1, 3, 0] (parse "f(\n    a)\n").tree =
      some (node .name [token ⟨.ident, "a"⟩]) := by
    rw [tree_parse_of_lex hlex]
    rfl
  obtain ⟨us, ws, vs, -, -, -, -, -, -, hset⟩ :=
    leading_setLeading herrors hat (List.cons_ne_nil _ _)
  obtain ⟨t, q, ht, hq, -, hread, -⟩ := hset " " (by decide)
  exact ⟨herrors, hat, t, q, ht, hq, hread⟩

end Renumber.Tree
