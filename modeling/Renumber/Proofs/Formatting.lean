import Renumber.Proofs.Numbering.Exhaust
import Renumber.Proofs.Numbering.Twin
import Renumber.Proofs.Positions

/-!
# Formatting is ignored

Two sources that differ in trivia only, which are blanks, comments and line breaks that end no logical line,
are the same program (`formatting_ignored`): they are parsed as trees that are equal without trivia, the same
problems are found in front of the same tokens, the matcher finds the same calls in them, and numbering gives
these calls the same codes and leaves two texts that again differ in trivia only.

The walk over two trees that are equal without trivia is followed by induction on one of them
(`Tree.coded_of_bareOf`).
-/

namespace Renumber

open Token (significant)

/-- Two lists of which the elements are told alike by two functions. -/
theorem forall₂_of_map_eq {α β γ : Type} {f : α → γ} {g : β → γ} {R : α → β → Prop} {l : List α}
    {m : List β} (h : l.map f = m.map g) (hR : ∀ x ∈ l, ∀ y ∈ m, f x = g y → R x y) :
    List.Forall₂ R l m := by
  induction l generalizing m with
  | nil =>
    obtain rfl := List.map_eq_nil_iff.1 h.symm
    exact .nil
  | cons x l ih =>
    obtain ⟨y, m, rfl, hy, hm⟩ := List.map_eq_cons_iff.1 h.symm
    exact .cons (hR x List.mem_cons_self y List.mem_cons_self hy.symm)
      (ih hm.symm fun x hx y hy => hR x (List.mem_cons_of_mem _ hx) y (List.mem_cons_of_mem _ hy))

/-! ## Trees -/

/-- The trees of two lists of tokens with the same tokens that are not trivia. -/
theorem readFile_bare_congr {ts us : List Token} (h : significant ts = significant us) :
    (Grammar.readFile ts).bare = (Grammar.readFile us).bare := by
  rw [← Grammar.readFile_significant, h, Grammar.readFile_significant]

theorem bare_parse_congr {a b : String} (h : significant (tokensOf a) = significant (tokensOf b)) :
    (parse a).tree.bare = (parse b).tree.bare := by
  show (Tree.node .module (Grammar.readFile (tokensOf a)).trees).bare =
    (Tree.node .module (Grammar.readFile (tokensOf b)).trees).bare
  rw [Tree.bare_node, Tree.bare_node]
  exact congrArg (Tree.node .module) (congrArg Grammar.Reading.trees (readFile_bare_congr h))

theorem orderly_parse (source : String) : (parse source).tree.Orderly :=
  ⟨regular_parse source, tidy_parse source⟩

/-! ## Errors -/

/-- The spans of the tokens that are not trivia, and that of the end, for tokens that follow each other
from an offset on. -/
def Token.solidSpans (start : Nat) : List Token → List Span
  | [] => [⟨start, start⟩]
  | t :: ts =>
    if t.kind.isTrivia then solidSpans (start + t.size) ts
    else ⟨start, start + t.size⟩ :: solidSpans (start + t.size) ts

/-- The span of the next token after some others, or that of the end. -/
theorem Token.getElem?_solidSpans (start : Nat) (us : List Token) {vs : List Token}
    (h : Grammar.upcoming vs = vs) : (solidSpans start (us ++ vs))[(significant us).length]? =
      some ⟨start + sizeOf us, start + sizeOf us + (vs.head?.map size).getD 0⟩ := by
  induction us generalizing start with
  | nil =>
    cases vs with
    | nil => rfl
    | cons v vs => simp [solidSpans, Grammar.not_trivia_of_upcoming h, sizeOf]
  | cons u us ih =>
    rw [List.cons_append, solidSpans]
    cases hu : u.kind.isTrivia with
    | true =>
      rw [if_pos rfl, significant_cons_of_trivia hu, ih]
      simp only [sizeOf, Nat.add_assoc]
    | false =>
      rw [if_neg (by decide), significant_cons_of_not_trivia hu, List.length_cons,
        List.getElem?_cons_succ, ih]
      simp only [sizeOf, Nat.add_assoc]

/-- Errors in two sources: the same problem, with the same of the tokens that are not trivia or with the
end of both. -/
def SameError (a b : String) (e f : ParseError) : Prop :=
  e.problem = f.problem ∧ ∃ i : Nat, (Token.solidSpans 0 (tokensOf a))[i]? = some e.span ∧
    (Token.solidSpans 0 (tokensOf b))[i]? = some f.span

/-- Where the error of a fault stands among the tokens that are not trivia. -/
theorem getElem?_solidSpans_of_fault {ts : List Token} {f : Fault} (hf : f.rest <:+ ts)
    (hhead : Grammar.upcoming f.rest = f.rest) :
    (Token.solidSpans 0 ts)[(significant ts).length - (significant f.rest).length]? =
      some (f.error (Token.sizeOf ts)).span := by
  obtain ⟨us, hus⟩ := hf
  have hlength : (significant ts).length - (significant f.rest).length =
      (significant us).length := by
    rw [← hus, Token.significant_append, List.length_append, Nat.add_sub_cancel]
  have hsize : Token.sizeOf ts - Token.sizeOf f.rest = 0 + Token.sizeOf us := by
    rw [← hus, Token.sizeOf_append]
    omega
  rw [hlength, Fault.error, hsize, ← Token.getElem?_solidSpans 0 us hhead, hus]

theorem errors_parse_congr {a b : String} (ha : lexicalErrors (lex a) = [])
    (hb : lexicalErrors (lex b) = []) (h : significant (tokensOf a) = significant (tokensOf b)) :
    List.Forall₂ (SameError a b) (parse a).errors (parse b).errors := by
  rw [errors_parse ha, errors_parse hb, syntacticErrors, syntacticErrors, List.forall₂_map_left_iff,
    List.forall₂_map_right_iff]
  have hfaults := congrArg Grammar.Reading.faults (readFile_bare_congr h)
  have hin (s : String) (f : Fault) (hf : f ∈ (Grammar.readFile (tokensOf s)).faults) :=
    getElem?_solidSpans_of_fault
      (((Grammar.inOrder_readFile (tokensOf s)).within f hf).trans (Grammar.upcoming_suffix _))
      ((Grammar.inOrder_readFile (tokensOf s)).head f hf)
  refine forall₂_of_map_eq hfaults fun f hf f' hf' hbare => ⟨?_, _, hin a f hf, ?_⟩
  · exact congrArg (fun f => Problem.syntactic f.problem) hbare
  · rw [h, show significant f.rest = significant f'.rest from congrArg Fault.rest hbare]
    exact hin b f' hf'

/-! ## Nodes -/

namespace Tree

/-- The nodes of a tree, each before those below it. -/
def nodes (t : Tree) : List Tree := (t.elements.map Prod.snd).filter isNode

theorem nodes_token (t : Token) : (token t).nodes = [] := by
  rw [nodes, elements]
  rfl

theorem nodes_node (k : Kind) (cs : List Tree) :
    (node k cs).nodes = node k cs :: cs.flatMap nodes := by
  have h (i : Nat) (ts : List Tree) :
      ((elementsFrom i ts).map Prod.snd).filter isNode = ts.flatMap nodes := by
    induction ts generalizing i with
    | nil => rw [elementsFrom]; rfl
    | cons t ts ih =>
      rw [elementsFrom, List.map_append, List.filter_append, ih, List.flatMap_cons, List.map_map]
      rfl
  rw [nodes, elements, List.map_cons, List.filter_cons_of_pos (isNode_node k cs), h]

mutual

/-- Trivia tokens are no nodes. -/
theorem nodes_bare : (t : Tree) → t.bare.nodes = t.nodes.map bare
  | token t => by rw [bare_token, nodes_token, List.map_nil]
  | node k cs => by
    rw [bare_node, nodes_node, nodes_node, List.map_cons, bare_node, flatMap_nodes_bareOf cs]

theorem flatMap_nodes_bareOf :
    (ts : List Tree) → (bareOf ts).flatMap nodes = (ts.flatMap nodes).map bare
  | [] => by rw [bareOf_nil]; rfl
  | t :: ts => by
    rw [List.flatMap_cons, List.map_append, ← flatMap_nodes_bareOf ts]
    cases ht : t.isTrivia with
    | true =>
      cases t with
      | node => cases ht
      | token => rw [bareOf_cons_of_trivia ht, nodes_token, List.map_nil, List.nil_append]
    | false => rw [bareOf_cons_of_not_trivia ht, List.flatMap_cons, nodes_bare t]

end

mutual

theorem inside_of_mem_nodes {u : Tree} : (t : Tree) → u ∈ t.nodes → Inside t u
  | token t, h => by rw [nodes_token] at h; cases h
  | node k cs, h => by
    rw [nodes_node] at h
    rcases List.mem_cons.1 h with rfl | h
    · exact .self _
    · obtain ⟨c, hc, p, hp⟩ := exists_inside_of_mem_nodes cs h
      exact ((Inside.self (node k cs)).of_mem hc).at hp

theorem exists_inside_of_mem_nodes {u : Tree} :
    (ts : List Tree) → u ∈ ts.flatMap nodes → ∃ c ∈ ts, Inside c u
  | [], h => by cases h
  | t :: ts, h => by
    rw [List.flatMap_cons] at h
    rcases List.mem_append.1 h with h | h
    · exact ⟨t, List.mem_cons_self, inside_of_mem_nodes t h⟩
    · obtain ⟨c, hc, hu⟩ := exists_inside_of_mem_nodes ts h
      exact ⟨c, List.mem_cons_of_mem _ hc, hu⟩

end

/-- The matcher finds the same in the nodes of trees that are equal but for trivia, node by node. -/
theorem map_nodes_congr {t u : Tree} (ht : t.Orderly) (hu : u.Orderly) (hbare : t.bare = u.bare) :
    t.nodes.map (fun v => (v.bare, v.matched)) = u.nodes.map fun v => (v.bare, v.matched) := by
  have hnodes : t.nodes.map bare = u.nodes.map bare := by
    rw [← nodes_bare, hbare, nodes_bare]
  have hmatched := forall₂_of_map_eq (R := fun v w => (v.bare, v.matched) = (w.bare, w.matched))
    hnodes fun v hv w hw h => by
      rw [h, matched_congr ((inside_of_mem_nodes u hw).orderly hu)
        ((inside_of_mem_nodes t hv).orderly ht) h]
  rwa [← List.forall₂_eq_eq_eq, List.forall₂_map_left_iff, List.forall₂_map_right_iff]

end Tree

/-! ## The walk -/

/-- A code came into a call of a text as into a call of another one. Texts that codes have replaced are
those of elements of the trees of the two texts, and these are equal but for trivia. -/
inductive FixKind.Alike (root root' : Tree) : FixKind → FixKind → Prop
  | inserted : Alike root root' .inserted .inserted
  | replaced {t u : Tree} (ht : root.Inside t) (hu : root'.Inside u) (hbare : u.bare = t.bare) :
      Alike root root' (.replaced t.text) (.replaced u.text)

/-- Numbering tells the same about calls of two texts. -/
structure FactsAlike (root root' : Tree) (f g : UInt64 × FixKind × Shape) : Prop where
  code : f.1 = g.1
  kind : FixKind.Alike root root' f.2.1 g.2.1
  shape : f.2.2 = g.2.2

namespace Tree

theorem powersOf_of_bareOf_eq_nil {ts : List Tree} (h : bareOf ts = []) : powersOf ts = 0 := by
  induction ts with
  | nil => simp
  | cons t ts ih =>
    cases ht : t.isTrivia with
    | false => rw [bareOf_cons_of_not_trivia ht] at h; cases h
    | true =>
      cases t with
      | node => cases ht
      | token => rw [bareOf_cons_of_trivia ht] at h; simp [ih h]

/-- Trees of which one is left without trivia. -/
theorem exists_one_of_bareOf {us : List Tree} {x : Tree} (h : bareOf us = [x]) :
    ∃ ws u zs, us = ws ++ u :: zs ∧ bareOf ws = [] ∧ u.isTrivia = false ∧ u.bare = x ∧
      bareOf zs = [] := by
  rw [← List.nil_append [x]] at h
  exact exists_among_of_bareOf h

theorem bareOf_among {ws zs : List Tree} {u : Tree} (hws : bareOf ws = []) (hu : u.isTrivia = false)
    (hzs : bareOf zs = []) : bareOf (ws ++ u :: zs) = [u.bare] := by
  rw [bareOf_append, bareOf_cons_of_not_trivia hu, hws, hzs, List.nil_append]

/-- The walk over one tree among trivia. -/
theorem Coded.among {ws zs : List Tree} {u u' : Tree} {s s' : UInt64}
    {gs : List (UInt64 × FixKind × Shape)} (hws : bareOf ws = []) (hzs : bareOf zs = [])
    (h : Coded s [u] [u'] gs s') : Coded s (ws ++ u :: zs) (ws ++ u' :: zs) gs s' := by
  have := (coded_self (powersOf_of_bareOf_eq_nil hws) s).append
    (h.append (coded_self (powersOf_of_bareOf_eq_nil hzs) s'))
  simpa using this

/-- A code comes into two calls in the same way if their arguments are equal but for trivia. -/
theorem Paired.fixKind_alike {root root' : Tree} {callee us trailing callee' us' trailing' : List Tree}
    {a b : Arguments} {f g : UInt64 → List Tree} (h : Paired us a f us' b g) (shape : Shape)
    (hin : root.Inside (node .powerExpr (callee ++ node .callTrailer us :: trailing)))
    (hin' : root'.Inside (node .powerExpr (callee' ++ node .callTrailer us' :: trailing'))) :
    FixKind.Alike root root'
      (Call.fixKind ⟨shape, callee.length, a.below callee.length⟩
        (node .powerExpr (callee ++ node .callTrailer us :: trailing)))
      (Call.fixKind ⟨shape, callee'.length, b.below callee'.length⟩
        (node .powerExpr (callee' ++ node .callTrailer us' :: trailing'))) := by
  cases h with
  | empty => exact .inserted
  | one => exact .inserted
  | @two F G o o' _ _ mid mid' _ ho =>
    have hold (H : Frame) (callee trailing ts : List Tree) (o : Tree) :
        at? (callee.length :: H.path 0)
          (node .powerExpr (callee ++ node .callTrailer (H.fill (o :: ts)) :: trailing)) = some o := by
      rw [at?_append_cons, H.at?_fill _ rfl]
    simp only [Call.fixKind, Arguments.below, hold, Option.map_some, Option.getD_some]
    exact .replaced (hin.at (hold F callee trailing _ o)) (hin'.at (hold G callee' trailing' _ o')) ho

/-- A walk over trees is followed by one over trees that are equal but for trivia: it draws the same
codes for calls of the same shapes, and what it makes of the trees is again equal but for trivia. -/
theorem coded_of_bareOf {root root' : Tree} (hroot : root.Orderly) (hroot' : root'.Orderly)
    {ts us ts' : List Tree} {s s' : UInt64} {fs : List (UInt64 × FixKind × Shape)}
    (hts : ∀ t ∈ ts, root.Inside t) (hus : ∀ u ∈ us, root'.Inside u) (hbare : bareOf us = bareOf ts)
    (h : Coded s ts ts' fs s') : ∃ us' gs, Coded s us us' gs s' ∧ bareOf us' = bareOf ts' ∧
      List.Forall₂ (FactsAlike root root') fs gs := by
  induction ts using forest_induction generalizing us ts' s s' fs with
  | nil =>
    obtain ⟨rfl, rfl, rfl⟩ := coded_nil_iff.1 h
    rw [bareOf_nil] at hbare
    exact ⟨us, [], coded_self (powersOf_of_bareOf_eq_nil hbare) _, by rw [hbare, bareOf_nil], .nil⟩
  | token t =>
    obtain ⟨rfl, rfl, rfl⟩ := (coded_quiet_iff (by simp)).1 h
    have hquiet : powersOf us = 0 := by
      cases ht : t.kind.isTrivia with
      | true =>
        rw [bareOf_cons_of_trivia (by exact ht), bareOf_nil] at hbare
        exact powersOf_of_bareOf_eq_nil hbare
      | false =>
        rw [bareOf_cons_of_not_trivia (by exact ht), bareOf_nil, bare_token] at hbare
        obtain ⟨ws, u, zs, rfl, hws, -, hu, hzs⟩ := exists_one_of_bareOf hbare
        cases u with
        | node => rw [bare_node] at hu; cases hu
        | token => simp [powersOf_of_bareOf_eq_nil hws, powersOf_of_bareOf_eq_nil hzs]
    exact ⟨us, [], coded_self hquiet _, hbare, .nil⟩
  | append ts₁ ts₂ ih₁ ih₂ =>
    obtain ⟨ts₁', ts₂', f₁, f₂, s₁, rfl, rfl, h₁, h₂⟩ := coded_append_iff.1 h
    rw [bareOf_append] at hbare
    obtain ⟨us₁, us₂, rfl, hbare₁, hbare₂⟩ := exists_append_of_bareOf hbare
    obtain ⟨us₁', g₁, hg₁, hb₁, ha₁⟩ := ih₁ (fun t ht => hts t (List.mem_append_left _ ht))
      (fun u hu => hus u (List.mem_append_left _ hu)) hbare₁ h₁
    obtain ⟨us₂', g₂, hg₂, hb₂, ha₂⟩ := ih₂ (fun t ht => hts t (List.mem_append_right _ ht))
      (fun u hu => hus u (List.mem_append_right _ hu)) hbare₂ h₂
    refine ⟨us₁' ++ us₂', g₁ ++ g₂, hg₁.append hg₂, ?_, List.rel_append ha₁ ha₂⟩
    rw [bareOf_append, bareOf_append, hb₁, hb₂]
  | plain k cs hcall ih =>
    obtain ⟨cs', _, f₁, _, _, rfl, rfl, hcs, hnil⟩ := (coded_plain_iff hcall).1 h
    obtain ⟨rfl, rfl, rfl⟩ := coded_nil_iff.1 hnil
    rw [bareOf_node_cons, bareOf_nil] at hbare
    obtain ⟨ws, u, zs, rfl, hws, -, hu, hzs⟩ := exists_one_of_bareOf hbare
    obtain ⟨ds, rfl, hds⟩ := exists_node_of_bare hu
    have hin := hts _ List.mem_cons_self
    have hin' := hus _ (List.mem_append_right _ List.mem_cons_self)
    have hcall' : (node k ds).call? = none := by
      have hmatched := matched_congr (hin.orderly hroot) (hin'.orderly hroot')
        (by rw [bare_node, bare_node, hds])
      rwa [matched, matched, hcall, Option.map_none, Option.map_eq_none_iff] at hmatched
    obtain ⟨ds', gs, hgs, hbs, halike⟩ := ih (fun c hc => hin.of_mem hc)
      (fun c hc => hin'.of_mem hc) hds hcs
    refine ⟨ws ++ node k ds' :: zs, gs, .among hws hzs ?_, ?_, by rwa [List.append_nil]⟩
    · rw [← List.append_nil gs]
      exact .plain hcall' hgs .nil
    · rw [bareOf_among hws rfl hzs, bare_node, hbs, bareOf_node_cons, bareOf_nil]
  | call shape callee cs trailing a f hcallee htrailing hargs _ ih _ =>
    have hin := hts _ List.mem_cons_self
    rw [bareOf_node_cons, bareOf_nil] at hbare
    obtain ⟨ws, u, zs, rfl, hws, -, hu, hzs⟩ := exists_one_of_bareOf hbare
    obtain ⟨ds, rfl, hds⟩ := exists_node_of_bare hu
    have hin' := hus _ (List.mem_append_right _ List.mem_cons_self)
    obtain ⟨callee', cs', trailing', b, g, rfl, hcallee', htrailing', hargs', hlength, hcode, hbefore,
      hcs'⟩ := exists_twin hcallee htrailing hargs (fun _ => (hin.orderly hroot).of_mem)
        (fun _ => (hin'.orderly hroot').of_mem) hds
    obtain ⟨hquiet, hcsr, hquiet'⟩ := quiet_of_call (hin.regular hroot) hcallee htrailing
    obtain ⟨hquiet₁, hcsr', hquiet₁'⟩ := quiet_of_call (hin'.regular hroot') hcallee' htrailing'
    have hpair := paired_of_args hargs hargs' hcsr hcsr' hlength hcs'
    obtain ⟨hs, cs₁, fs₁, rfl, rfl, hwalk⟩ :=
      (coded_call_quiet_iff hcallee htrailing hargs hquiet hquiet').1 h
    have hfix := hpair.fixKind_alike shape hin hin'
    -- It is enough to follow the walk through the parentheses.
    suffices hinside : ∃ ds₁ gs₁, Coded (s + 1) (g (s + 1)) ds₁ gs₁ s' ∧ bareOf ds₁ = bareOf cs₁ ∧
        List.Forall₂ (FactsAlike root root') fs₁ gs₁ by
      obtain ⟨ds₁, gs₁, hwalk', hbare₁, halike⟩ := hinside
      refine ⟨ws ++ node .powerExpr (callee' ++ node .callTrailer ds₁ :: trailing') :: zs, _,
        .among hws hzs ((coded_call_quiet_iff hcallee' htrailing' hargs' hquiet₁ hquiet₁').2
          ⟨hs, ds₁, gs₁, rfl, rfl, hwalk'⟩), ?_, .cons ⟨rfl, hfix, rfl⟩ halike⟩
      have hafter : bareOf trailing' = bareOf trailing := by
        rw [bareOf_append, bareOf_append, bareOf_node_cons, bareOf_node_cons, hbefore, hcs'] at hds
        simpa using hds
      rw [bareOf_among hws rfl hzs, bare_node, bareOf_node_cons, bareOf_nil, bareOf_append,
        bareOf_append, bareOf_node_cons, bareOf_node_cons, hbefore, hbare₁, hafter]
    have hmessage {F G : Frame} {mid mid' : List Tree} {m m' : Tree} (hlike : F.Like G)
        (hmid : bareOf mid' = bareOf mid) (hm : m'.bare = m.bare) (hmid0 : powersOf mid = 0)
        (hmid0' : powersOf mid' = 0) (hsize : sizeOf [m] < sizeOf cs) (hm₁ : root.Inside m)
        (hm₁' : root'.Inside m')
        (hwalk : Coded (s + 1) (F.fill (numberLiteral (s + 1) :: (mid ++ [m]))) cs₁ fs₁ s') :
        ∃ ds₁ gs₁, Coded (s + 1) (G.fill (numberLiteral (s + 1) :: (mid' ++ [m']))) ds₁ gs₁ s' ∧
          bareOf ds₁ = bareOf cs₁ ∧ List.Forall₂ (FactsAlike root root') fs₁ gs₁ := by
      obtain ⟨ms, rfl, hms⟩ := (F.coded_message_iff hmid0).1 hwalk
      obtain ⟨ms', gs, hms', hb, halike⟩ := ih [m] hsize (List.forall_mem_singleton.2 hm₁)
        (List.forall_mem_singleton.2 hm₁') (bareOf_singleton_congr hm) hms
      refine ⟨_, gs, (G.coded_message_iff hmid0').2 ⟨ms', rfl, hms'⟩, hlike _ _ ?_, halike⟩
      rw [numberLiteral, bareOf_node_cons, bareOf_node_cons, bareOf_append, bareOf_append, hmid, hb]
    have hargs₁ : ∀ t ∈ cs, root.Inside t := fun t ht =>
      (hin.of_mem (List.mem_append_right _ List.mem_cons_self)).of_mem ht
    have hargs₁' : ∀ t ∈ cs', root'.Inside t := fun t ht =>
      (hin'.of_mem (List.mem_append_right _ List.mem_cons_self)).of_mem ht
    cases hpair with
    | empty hf hf' =>
      obtain ⟨rfl, rfl, rfl⟩ := (coded_quiet_iff (hf _)).1 hwalk
      exact ⟨_, [], coded_self (hf' _) _, hcode _, .nil⟩
    | @one F G m m' hlike hm =>
      have hcomma : powersOf [comma, blanks " "] = 0 := by simp [comma, blanks]
      have hfill := F.forall_mem_of_fill (fun h hc => h.of_mem hc) hargs₁
      have hfill' := G.forall_mem_of_fill (fun h hc => h.of_mem hc) hargs₁'
      exact hmessage hlike rfl hm hcomma hcomma (F.sizeOf_lt_fill [m]) (hfill m (by simp))
        (hfill' m' (by simp)) hwalk
    | @two F G o o' m m' mid mid' hlike _ hmid hm hmid0 hmid0' =>
      have hfill := F.forall_mem_of_fill (fun h hc => h.of_mem hc) hargs₁
      have hfill' := G.forall_mem_of_fill (fun h hc => h.of_mem hc) hargs₁'
      exact hmessage hlike hmid hm hmid0 hmid0' (F.sizeOf_last_lt_fill o mid m)
        (hfill m (by simp)) (hfill' m' (by simp)) hwalk

end Tree

/-! ## Numbering -/

/-- What numbering gives for two texts with these trees: the same codes in the same ways for calls of the
same shapes, and numbered texts that differ in trivia only; or the same failure. The series is then the
same, too. -/
inductive SameResult (root root' : Tree) :
    Except Failure Outcome × Series → Except Failure Outcome × Series → Prop
  | numbered {o o' : Outcome} {s : Series}
      (hfixes : List.Forall₂ (fun f f' => FactsAlike root root' f.facts f'.facts) o.fixes o'.fixes)
      (htokens : significant (tokensOf o.output) = significant (tokensOf o'.output)) :
      SameResult root root' (.ok o, s) (.ok o', s)
  | refused {message : String} {line line' column column' : Nat} {s : Series} :
      SameResult root root' (.error (.parse Failure.inMemory message line column), s)
        (.error (.parse Failure.inMemory message line' column'), s)
  | exhausted {last : UInt64} {s : Series} :
      SameResult root root' (.error (.seriesExhausted last), s) (.error (.seriesExhausted last), s)

/-- The tokens of a numbered text are those of its tree. -/
theorem tokensOf_output {dedent : Bool} {source : String} {s s' : Series} {o : Outcome}
    (h : fixText dedent source s = (.ok o, s')) : tokensOf o.output = o.tree.leaves := by
  rw [← leaves_parse, fixText_reparses h]

section
variable {a b : String}

/-- What is numbered in one text is numbered in another one that differs in trivia only. -/
theorem fixText_of_bare {s s' : Series} {o : Outcome} (hb : (parse b).errors = [])
    (hbare : (parse b).tree.bare = (parse a).tree.bare) (h : fixText false a s = (.ok o, s')) :
    ∃ o', fixText false b s = (.ok o', s') ∧
      List.Forall₂ (fun f f' => FactsAlike (parse a).tree (parse b).tree f.facts f'.facts)
        o.fixes o'.fixes ∧
      significant (tokensOf o.output) = significant (tokensOf o'.output) := by
  obtain ⟨-, hcoded⟩ := Tree.coded_of_fixText h
  obtain ⟨us, gs, hwalk, htrees, halike⟩ := Tree.coded_of_bareOf (orderly_parse a) (orderly_parse b)
    (List.forall_mem_singleton.2 (Tree.Inside.self _))
    (List.forall_mem_singleton.2 (Tree.Inside.self _)) (Tree.bareOf_singleton_congr hbare) hcoded
  have htext : (parse (numberedText false b)).errors = [] := hb
  obtain ⟨o', hfix, rfl, rfl⟩ := Tree.fixText_of_coded htext hwalk
  refine ⟨o', hfix, ?_, ?_⟩
  · rwa [List.forall₂_map_left_iff, List.forall₂_map_right_iff] at halike
  · have hleaves := congrArg Tree.leavesOf htrees
    rw [Tree.leavesOf_bareOf, Tree.leavesOf_bareOf] at hleaves
    rw [tokensOf_output h, tokensOf_output hfix]
    simpa using hleaves.symm

/-- Two texts with the same problems and equal trees but for trivia are numbered in the same way, without
dedenting. -/
theorem sameResult_of_bare (hbare : (parse a).tree.bare = (parse b).tree.bare)
    (herrors : List.Forall₂ (SameError a b) (parse a).errors (parse b).errors) (s : Series) :
    SameResult (parse a).tree (parse b).tree (fixText false a s) (fixText false b s) := by
  cases hea : (parse a).errors with
  | cons e es =>
    -- The first errors of both texts have the same wording.
    rw [hea] at herrors
    obtain ⟨e', es', hsame, -, heb⟩ := List.forall₂_cons_left_iff.1 herrors
    have htexta : (parse (numberedText false a)).errors = e :: es := hea
    have htextb : (parse (numberedText false b)).errors = e' :: es' := heb
    rw [fixText_of_cons_errors htexta, fixText_of_cons_errors htextb, ParseError.failure,
      ParseError.failure, hsame.1]
    exact .refused
  | nil =>
    rw [hea, List.forall₂_nil_left_iff] at herrors
    have htexta : (parse (numberedText false a)).errors = [] := hea
    have htextb : (parse (numberedText false b)).errors = [] := herrors
    cases hfa : fixText false a s with
    | mk result s' =>
      cases result with
      | ok o =>
        obtain ⟨o', hfb, hfixes, htokens⟩ := fixText_of_bare herrors hbare.symm hfa
        rw [hfb]
        exact .numbered hfixes htokens
      | error f =>
        obtain ⟨rfl, hs'⟩ := exhausted_of_fixText htexta hfa
        cases hfb : fixText false b s with
        | mk result t' =>
          cases result with
          | ok o =>
            obtain ⟨o', hfa', -⟩ := fixText_of_bare hea hbare hfb
            rw [hfa] at hfa'
            cases hfa'
          | error g =>
            obtain ⟨rfl, ht'⟩ := exhausted_of_fixText htextb hfb
            obtain rfl : s' = t' := by
              cases s'
              cases t'
              exact congrArg Series.mk (hs'.trans ht'.symm)
            exact .exhausted

/-- Formatting is ignored. Of two sources without lexical problems that have the same tokens, in kind and
text, but for trivia: the trees are equal without trivia; there are the same syntax errors, in the same order
and with the same tokens; the matcher finds the same in the nodes of both, one after another; and numbering
without dedenting gives the same. -/
theorem formatting_ignored (ha : lexicalErrors (lex a) = []) (hb : lexicalErrors (lex b) = [])
    (h : significant (tokensOf a) = significant (tokensOf b)) :
    (parse a).tree.bare = (parse b).tree.bare ∧
    List.Forall₂ (SameError a b) (parse a).errors (parse b).errors ∧
    (parse a).tree.nodes.map (fun t => (t.bare, t.matched)) =
      (parse b).tree.nodes.map (fun t => (t.bare, t.matched)) ∧
    ∀ s, SameResult (parse a).tree (parse b).tree (fixText false a s) (fixText false b s) := by
  have hbare := bare_parse_congr h
  have herrors := errors_parse_congr ha hb h
  exact ⟨hbare, herrors, Tree.map_nodes_congr (orderly_parse a) (orderly_parse b) hbare,
    sameResult_of_bare hbare herrors⟩

end

/-- A call on one line and the same call on several lines, with a comment in it. -/
theorem formatting_ignored_lines :
    let a := "result.error(a+b, c)\n"
    let b := "result . error(\n  a + b, # old\n  c)\n"
    (lexicalErrors (lex a) = [] ∧ lexicalErrors (lex b) = [] ∧
      significant (tokensOf a) = significant (tokensOf b)) ∧
    (parse a).tree.bare = (parse b).tree.bare ∧
    List.Forall₂ (SameError a b) (parse a).errors (parse b).errors ∧
    (parse a).tree.nodes.map (fun t => (t.bare, t.matched)) =
      (parse b).tree.nodes.map (fun t => (t.bare, t.matched)) ∧
    ∀ s, SameResult (parse a).tree (parse b).tree (fixText false a s) (fixText false b s) := by
  have hlexa : lex "result.error(a+b, c)\n" = Lexeme.sound [⟨.ident, "result"⟩, ⟨.dot, "."⟩,
      ⟨.ident, "error"⟩, ⟨.lParen, "("⟩, ⟨.ident, "a"⟩, ⟨.plus, "+"⟩, ⟨.ident, "b"⟩, ⟨.comma, ","⟩,
      ⟨.whitespace, " "⟩, ⟨.ident, "c"⟩, ⟨.rParen, ")"⟩, ⟨.newline, "\n"⟩] := by cbv
  have hlexb : lex "result . error(\n  a + b, # old\n  c)\n" = Lexeme.sound [⟨.ident, "result"⟩,
      ⟨.whitespace, " "⟩, ⟨.dot, "."⟩, ⟨.whitespace, " "⟩, ⟨.ident, "error"⟩, ⟨.lParen, "("⟩, ⟨.nl, "\n"⟩,
      ⟨.whitespace, "  "⟩, ⟨.ident, "a"⟩, ⟨.whitespace, " "⟩, ⟨.plus, "+"⟩, ⟨.whitespace, " "⟩,
      ⟨.ident, "b"⟩, ⟨.comma, ","⟩, ⟨.whitespace, " "⟩, ⟨.comment, "# old"⟩, ⟨.nl, "\n"⟩,
      ⟨.whitespace, "  "⟩, ⟨.ident, "c"⟩, ⟨.rParen, ")"⟩, ⟨.newline, "\n"⟩] := by cbv
  have ha := lexicalErrors_of_lex hlexa
  have hb := lexicalErrors_of_lex hlexb
  have h : significant (tokensOf "result.error(a+b, c)\n") =
      significant (tokensOf "result . error(\n  a + b, # old\n  c)\n") := by
    rw [tokensOf_of_lex hlexa, tokensOf_of_lex hlexb]
    rfl
  exact ⟨⟨ha, hb, h⟩, formatting_ignored ha hb h⟩

end Renumber
