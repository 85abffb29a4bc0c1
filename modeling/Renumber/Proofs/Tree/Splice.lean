import Renumber.Proofs.Lossless
import Renumber.Proofs.Sound
import Renumber.Proofs.Tree.Path

/-!
# Edits are splices

An edit is addressed by the path to one element, but what it does it does to the list of children of the
element's parent. `Swapped` is the frame around such a change: two trees that are the same but for the
element at the end of one path. With the parent for that element it says what an edit leaves alone, and
the law of the three edits (`edits_splice`) is read off it.
-/

namespace Renumber.Tree

open Token (textOf)

/-! ## Trees that differ in one element -/

/-- Two trees with the same nodes along a path and the same elements beside it; at its end one has an
element and the other one another. -/
inductive Swapped (e e' : Tree) : List Nat → Tree → Tree → Prop
  | here : Swapped e e' [] e e'
  | child {p : List Nat} {t t' : Tree} (k : Kind) (us vs : List Tree) (h : Swapped e e' p t t') :
      Swapped e e' (us.length :: p) (node k (us ++ t :: vs)) (node k (us ++ t' :: vs))

theorem exists_swapped {root e : Tree} {p : List Nat} (h : at? p root = some e) (e' : Tree) :
    ∃ root', Swapped e e' p root root' := by
  induction p generalizing root with
  | nil =>
    obtain rfl := Option.some.inj h
    exact ⟨e', .here⟩
  | cons i p ih =>
    obtain ⟨k, us, c, vs, rfl, rfl, hc⟩ := at?_cons_eq_some_iff.1 h
    obtain ⟨c', hc'⟩ := ih hc
    exact ⟨_, .child k us vs hc'⟩

theorem swapped_append_cons_iff {e e' c t : Tree} {p : List Nat} {k : Kind} {us vs : List Tree} :
    Swapped e e' (us.length :: p) (node k (us ++ c :: vs)) t ↔
      ∃ c', t = node k (us ++ c' :: vs) ∧ Swapped e e' p c c' := by
  constructor
  · intro h
    generalize hr : us.length :: p = r at h
    generalize hs : node k (us ++ c :: vs) = s at h
    cases h with
    | here => cases hr
    | child j xs ys h =>
      obtain ⟨hlength, rfl⟩ := List.cons.inj hr
      obtain ⟨rfl, hcs⟩ := node.inj hs
      obtain ⟨rfl, hrest⟩ := List.append_inj hcs hlength
      obtain ⟨rfl, rfl⟩ := List.cons.inj hrest
      exact ⟨_, rfl, h⟩
  · rintro ⟨c', rfl, h⟩
    exact .child k us vs h

namespace Swapped

variable {e e' e'' c c' root root' root'' : Tree} {p q r : List Nat}

theorem symm (h : Swapped e e' p root root') : Swapped e' e p root' root := by
  induction h with
  | here => exact .here
  | child k us vs _ ih => exact .child k us vs ih

theorem at?_left (h : Swapped e e' p root root') : at? p root = some e := by
  induction h with
  | here => rfl
  | child k us vs _ ih => rw [at?_append_cons, ih]

theorem at?_right (h : Swapped e e' p root root') : at? p root' = some e' := h.symm.at?_left

theorem refl (h : at? p root = some e) : Swapped e e p root root := by
  induction p generalizing root with
  | nil =>
    obtain rfl := Option.some.inj h
    exact .here
  | cons i p ih =>
    obtain ⟨k, us, c, vs, rfl, rfl, hc⟩ := at?_cons_eq_some_iff.1 h
    exact .child k us vs (ih hc)

theorem trans (h : Swapped e e' p root root') (h' : Swapped e' e'' p root' root'') :
    Swapped e e'' p root root'' := by
  induction h generalizing root'' with
  | here =>
    cases h' with
    | here => exact .here
  | child k us vs _ ih =>
    obtain ⟨c, rfl, hc⟩ := swapped_append_cons_iff.1 h'
    exact .child k us vs (ih hc)

/-- What changes at the end of a path changes the elements on the way there. -/
theorem of_append (h : Swapped e e' (q ++ r) root root') :
    ∃ c c', Swapped c c' q root root' ∧ Swapped e e' r c c' := by
  induction q generalizing root root' with
  | nil => exact ⟨root, root', .here, h⟩
  | cons i q ih =>
    cases h with
    | child k us vs h =>
      obtain ⟨c, c', hq, hr⟩ := ih h
      exact ⟨c, c', .child k us vs hq, hr⟩

/-- The nodes on the way to a change keep their kind, and their children but for one. -/
theorem around {i : Nat} (h : Swapped e e' (q ++ i :: r) root root') :
    ∃ k us c c' vs, us.length = i ∧ at? q root = some (node k (us ++ c :: vs)) ∧
      at? q root' = some (node k (us ++ c' :: vs)) := by
  obtain ⟨_, _, hq, hr⟩ := h.of_append
  cases hr with
  | @child _ c c' k us vs hr => exact ⟨k, us, c, c', vs, rfl, hq.at?_left, hq.at?_right⟩

/-- An element that neither holds the change nor is inside it stays where it is. -/
theorem apart (h : Swapped e e' p root root') (hpq : ¬ p <+: q) (hqp : ¬ q <+: p) :
    at? q root' = at? q root := by
  induction h generalizing q with
  | here => exact absurd List.nil_prefix hpq
  | @child p t t' k us vs _ ih =>
    cases q with
    | nil => exact absurd List.nil_prefix hqp
    | cons j q =>
      by_cases hj : j = us.length
      · subst hj
        rw [List.cons_prefix_cons, not_and] at hpq hqp
        rw [at?_append_cons, at?_append_cons]
        exact ih (hpq rfl) (hqp rfl)
      · have hset : us ++ t' :: vs = (us ++ t :: vs).set us.length t' := by simp
        rw [at?, at?, children, children, hset, List.getElem?_set_ne (Ne.symm hj)]

/-- The tokens before and behind the change are the same. -/
theorem leaves_eq (h : Swapped e e' p root root') :
    ∃ ws, root.leaves = leavesBefore p root ++ e.leaves ++ ws ∧
      root'.leaves = leavesBefore p root ++ e'.leaves ++ ws := by
  induction h with
  | here => exact ⟨[], by simp [leavesBefore], by simp [leavesBefore]⟩
  | child k us vs _ ih =>
    obtain ⟨ws, hleft, hright⟩ := ih
    refine ⟨ws ++ leavesOf vs, ?_, ?_⟩
    · rw [leavesBefore_append_cons, leaves_node, leavesOf_append, leavesOf_cons, hleft]
      simp only [List.append_assoc]
    · rw [leavesBefore_append_cons, leaves_node, leavesOf_append, leavesOf_cons, hright]
      simp only [List.append_assoc]

theorem leavesBefore_eq (h : Swapped e e' p root root') :
    leavesBefore p root' = leavesBefore p root := by
  induction h with
  | here => rfl
  | child k us vs _ ih => rw [leavesBefore_append_cons, leavesBefore_append_cons, ih]

/-- A substitution inside an element goes on outwards as a swap of that element. -/
theorem substitute_eq {f : Tree → List Tree} (h : Swapped c c' q root root')
    (hf : substitute f r c = [c']) : substitute f (q ++ r) root = [root'] := by
  induction h with
  | here => exact hf
  | child k us vs _ ih => rw [List.cons_append, substitute_append_cons, ih]; simp

end Swapped

theorem exists_leaves_eq {root e : Tree} {p : List Nat} (h : at? p root = some e) :
    ∃ ws, root.leaves = leavesBefore p root ++ e.leaves ++ ws := by
  obtain ⟨ws, hws, -⟩ := (Swapped.refl h).leaves_eq
  exact ⟨ws, hws⟩

/-! ## Edits -/

theorem edit_eq_ok {f : Tree → List Tree} {root t : Tree} {p : List Nat} (hp : p ≠ [])
    (h : substitute f p root = [t]) : root.edit p f = .ok t := by
  cases p with
  | nil => exact absurd rfl hp
  | cons i p => simp only [edit, h]

/-- An edit of an element that has a parent goes through, and changes the parent's children only. -/
theorem exists_edit {root e : Tree} {q : List Nat} {k : Kind} {us vs : List Tree}
    (h : at? q root = some (node k (us ++ e :: vs))) (f : Tree → List Tree) :
    ∃ t, root.edit (q ++ [us.length]) f = .ok t ∧
      Swapped (node k (us ++ e :: vs)) (node k (us ++ (f e ++ vs))) q root t := by
  obtain ⟨t, ht⟩ := exists_swapped h (node k (us ++ (f e ++ vs)))
  refine ⟨t, edit_eq_ok (List.append_ne_nil_of_right_ne_nil _ (List.cons_ne_nil _ _)) ?_, ht⟩
  refine ht.substitute_eq ?_
  rw [substitute_append_cons, substitute, List.append_assoc]

/-- A tree that comes from another by putting some elements in the place of one child of a node. The
node at the end of the path has the new list of children; the nodes around it keep their kinds and all
other children, and whatever is beside them is the same; and the text in front of the child and the text
behind it stay. -/
structure Spliced (root : Tree) (q : List Nat) (k : Kind) (us : List Tree) (e : Tree)
    (vs new : List Tree) (t : Tree) : Prop where
  children : at? q t = some (node k (us ++ (new ++ vs)))
  around : ∀ r i s, q = r ++ i :: s → ∃ k' xs c c' ys, xs.length = i ∧
    at? r root = some (node k' (xs ++ c :: ys)) ∧ at? r t = some (node k' (xs ++ c' :: ys))
  apart : ∀ r, ¬ q <+: r → ¬ r <+: q → at? r t = at? r root
  text : ∃ after,
    root.text = textOf (leavesBefore (q ++ [us.length]) root) ++ e.text ++ after ∧
    t.text = textOf (leavesBefore (q ++ [us.length]) root) ++ textOf (leavesOf new) ++ after

theorem Swapped.spliced {root e t : Tree} {q : List Nat} {k : Kind} {us vs new : List Tree}
    (h : Swapped (node k (us ++ e :: vs)) (node k (us ++ (new ++ vs))) q root t) :
    Spliced root q k us e vs new t where
  children := h.at?_right
  around r i s hq := by
    subst hq
    exact h.around
  apart r hqr hrq := h.apart hqr hrq
  text := by
    obtain ⟨ws, hroot, ht⟩ := h.leaves_eq
    have hbefore : leavesBefore (q ++ [us.length]) root = leavesBefore q root ++ leavesOf us := by
      rw [leavesBefore_append h.at?_left, leavesBefore_append_cons, leavesBefore, List.append_nil]
    refine ⟨textOf (leavesOf vs ++ ws), ?_, ?_⟩
    · rw [text, hroot, hbefore, text]
      simp [String.append_assoc]
    · rw [text, ht, hbefore]
      simp [String.append_assoc]

/-- The splice law: an edit of an element that has a parent succeeds, and only the list of children of the
parent changes. The new elements are directly in front of the element, directly behind it, or in its place. -/
theorem edits_splice {root e : Tree} {p : List Nat} (h : at? p root = some e) (hp : p ≠ [])
    (new : List Tree) (u : Tree) : ∃ q k us vs, p = q ++ [us.length] ∧
      at? q root = some (node k (us ++ e :: vs)) ∧
      (∃ t, root.insertBefore p new = .ok t ∧ Spliced root q k us e vs (new ++ [e]) t) ∧
      (∃ t, root.insertAfter p new = .ok t ∧ Spliced root q k us e vs (e :: new) t) ∧
      ∃ t, root.replace p u = .ok t ∧ Spliced root q k us e vs [u] t := by
  obtain ⟨q, k, us, vs, rfl, hq⟩ := exists_parent h hp
  refine ⟨q, k, us, vs, rfl, hq, ?_, ?_, ?_⟩
  · obtain ⟨t, ht, hswap⟩ := exists_edit hq fun t => new ++ [t]
    exact ⟨t, ht, hswap.spliced⟩
  · obtain ⟨t, ht, hswap⟩ := exists_edit hq fun t => t :: new
    exact ⟨t, ht, hswap.spliced⟩
  · obtain ⟨t, ht, hswap⟩ := exists_edit hq fun _ => [u]
    exact ⟨t, ht, hswap.spliced⟩

/-- The name that an import without one is read with is an empty node: its place in the text is also where
the line feed starts. -/
theorem edits_splice_empty :
    at? [0, 0, 2, 0] (parse "import \n").tree = some (node .dottedName []) ∧
      ∃ t, (parse "import \n").tree.insertBefore [0, 0, 2, 0] [comma] = .ok t ∧
        t.text = "import ,\n" := by
  have hlex : lex "import \n" =
      Lexeme.sound [⟨.importKw, "import"⟩, ⟨.whitespace, " "⟩, ⟨.newline, "\n"⟩] := by cbv
  have htree := tree_parse_of_lex hlex
  have hat : at? [0, 0, 2, 0] (parse "import \n").tree = some (node .dottedName []) := by
    rw [htree]
    rfl
  obtain ⟨q, k, us, vs, hq, -, ⟨t, ht, hsplice⟩, -, -⟩ :=
    edits_splice hat (by decide) [comma] comma
  obtain ⟨after, hroot, htext⟩ := hsplice.text
  have hbefore : textOf (leavesBefore [0, 0, 2, 0] (parse "import \n").tree) = "import " := by
    rw [htree]
    decide +kernel
  have hempty : (node .dottedName []).text = "" := rfl
  rw [← hq, hbefore] at hroot htext
  rw [text_parse, hempty] at hroot
  have hafter : after = "\n" := by
    apply String.toList_injective
    simpa using (congrArg String.toList hroot).symm
  refine ⟨hat, t, ht, ?_⟩
  rw [htext, hafter]
  decide

/-! ## Edits that fail

An edit fails if there is no parent to edit, and that is looked up before anything is changed. But the text
that is to stand in front of an element is looked at only when the old trivia are gone. -/

/-- The edits of an element. -/
inductive Operation where
  | insertBefore (new : List Tree)
  | insertAfter (new : List Tree)
  | replace (new : Tree)
  | setLeading (text : String)

/-- The tree after an edit that gives one, or the tree from before it. -/
def settled (root : Tree) : Except Failure Tree → Tree × Except Failure Unit
  | .ok t => (t, .ok ())
  | .error e => (root, .error e)

/-- The tree that there is after an edit, and whether the edit has failed. -/
def Operation.run (root : Tree) (p : List Nat) : Operation → Tree × Except Failure Unit
  | .insertBefore new => settled root (root.insertBefore p new)
  | .insertAfter new => settled root (root.insertAfter p new)
  | .replace new => settled root (root.replace p new)
  | .setLeading text => root.setLeading p text

theorem fst_settled_of_error {root t : Tree} {result : Except Failure Tree} {e : Failure}
    (h : settled root result = (t, .error e)) : t = root := by
  cases result with
  | ok => cases (Prod.mk.inj h).2
  | error => exact (Prod.mk.inj h).1.symm

theorem eq_nil_of_edit_eq_error {f : Tree → List Tree} {root : Tree} {p : List Nat} {e : Failure}
    (h : root.edit p f = .error e) : p = [] := by
  cases p with
  | nil => rfl
  | cons i p =>
    simp only [edit] at h
    split at h <;> cases h

/-- There is nothing in front of the root. -/
theorem leading_root (root : Tree) : root.leading [] = [] := by
  unfold leading
  split
  · rfl
  · rename_i q hfirst
    obtain ⟨u, -, hu⟩ := Option.bind_eq_some_iff.1 hfirst
    have htoken : tokenBefore? root ([] ++ q) = none := by
      rw [tokenBefore?, List.nil_append, siblingBefore?_zeros (eq_zero_of_firstToken? hu)]
      rfl
    cases root.leaves.length with
    | zero => rfl
    | succ n =>
      rw [triviaBefore, htoken]
      rfl

/-- What there is after an edit that fails: the tree from before it, or, if a text that is not blank was to
be put in front of an element, the tree without the trivia that were there. -/
theorem run_of_error {op : Operation} {root t : Tree} {p : List Nat} {e : Failure}
    (h : op.run root p = (t, .error e)) : t = root ∨
      ∃ text, op = .setLeading text ∧ text.toList.all isHorizontal = false ∧
        t = root.removeAll ((root.leading p).map Prod.fst) := by
  cases op with
  | insertBefore new => exact .inl (fst_settled_of_error h)
  | insertAfter new => exact .inl (fst_settled_of_error h)
  | replace new => exact .inl (fst_settled_of_error h)
  | setLeading text =>
    simp only [Operation.run, setLeading] at h
    split at h
    · cases (Prod.mk.inj h).2
    · split at h
      · split at h
        · cases (Prod.mk.inj h).2
        · rename_i hinsert
          obtain rfl := eq_nil_of_edit_eq_error hinsert
          rw [leading_root] at h
          exact .inl (Prod.mk.inj h).1.symm
      · rename_i hblank
        exact .inr ⟨text, rfl, Bool.eq_false_iff.2 hblank, (Prod.mk.inj h).1.symm⟩

theorem run_of_error_root : ∃ e,
    (Operation.replace comma).run (parse "x\n").tree [] = ((parse "x\n").tree, .error e) ∧
      (parse "x\n").tree.text = "x\n" := by
  obtain ⟨t, e, h⟩ : ∃ t e, (Operation.replace comma).run (parse "x\n").tree [] = (t, .error e) :=
    ⟨_, _, rfl⟩
  obtain rfl | ⟨text, hop, -⟩ := run_of_error h
  · exact ⟨e, h, text_parse _⟩
  · cases hop

set_option maxRecDepth 4000 in
/-- A line feed is refused in front of an argument, but the blank in front of it is gone. -/
theorem setLeading_refused : ∃ t e,
    (Operation.setLeading "\n").run (parse "f( a)\n").tree [0, 0, 0, 1, 2, 0] = (t, .error e) ∧
      t.text = "f(a)\n" ∧ t ≠ (parse "f( a)\n").tree := by
  have hlex : lex "f( a)\n" = Lexeme.sound [⟨.ident, "f"⟩, ⟨.lParen, "("⟩, ⟨.whitespace, " "⟩,
      ⟨.ident, "a"⟩, ⟨.rParen, ")"⟩, ⟨.newline, "\n"⟩] := by cbv
  have htext : ((parse "f( a)\n").tree.setLeading [0, 0, 0, 1, 2, 0] "\n").1.text = "f(a)\n" := by
    rw [tree_parse_of_lex hlex]
    decide +kernel
  have herror : ((parse "f( a)\n").tree.setLeading [0, 0, 0, 1, 2, 0] "\n").2.isOk = false := by
    rw [tree_parse_of_lex hlex]
    decide +kernel
  cases hset : (parse "f( a)\n").tree.setLeading [0, 0, 0, 1, 2, 0] "\n" with
  | mk t result =>
    rw [hset] at htext herror
    cases result with
    | ok => cases herror
    | error e =>
      refine ⟨t, e, hset, htext, fun h => ?_⟩
      rw [h, text_parse] at htext
      exact absurd htext (by decide)

end Renumber.Tree
