import Mathlib
import Renumber.Tree.Edit

/-!
# Steps along a path

A path of child indices is followed one node at a time. The child that a step goes to stands between
those in front of it, whose number is the index, and those behind it: the lemmas here give a node by these
three parts, so that what a path means is read off its first step.
-/

namespace Renumber.Tree

/-! ## One step -/

theorem at?_append_cons (k : Kind) (us vs : List Tree) (t : Tree) (q : List Nat) :
    at? (us.length :: q) (node k (us ++ t :: vs)) = at? q t := by
  simp [at?, children]

theorem leavesBefore_append_cons (k : Kind) (us vs : List Tree) (t : Tree) (q : List Nat) :
    leavesBefore (us.length :: q) (node k (us ++ t :: vs)) = leavesOf us ++ leavesBefore q t := by
  simp [leavesBefore, children]

theorem substitute_append_cons (f : Tree → List Tree) (p : List Nat) (k : Kind)
    (us vs : List Tree) (t : Tree) : substitute f (us.length :: p) (node k (us ++ t :: vs)) =
      [node k (us ++ substitute f p t ++ vs)] := by
  simp [substitute]

/-- A path that leads somewhere starts at a node, with the index of one of its children. -/
theorem at?_cons_eq_some_iff {i : Nat} {p : List Nat} {t e : Tree} : at? (i :: p) t = some e ↔
    ∃ k us c vs, t = node k (us ++ c :: vs) ∧ i = us.length ∧ at? p c = some e := by
  constructor
  · intro h
    rw [at?, Option.bind_eq_some_iff] at h
    obtain ⟨c, hc, he⟩ := h
    cases t with
    | token => cases hc
    | node k cs =>
      obtain ⟨hi, rfl⟩ := List.getElem?_eq_some_iff.1 (show cs[i]? = some c from hc)
      refine ⟨k, cs.take i, cs[i], cs.drop (i + 1), ?_, (List.length_take_of_le hi.le).symm, he⟩
      rw [← List.drop_eq_getElem_cons hi, List.take_append_drop]
  · rintro ⟨k, us, c, vs, rfl, rfl, he⟩
    rw [at?_append_cons, he]

/-! ## Several steps -/

theorem at?_append (p q : List Nat) (t : Tree) : at? (p ++ q) t = (at? p t).bind (at? q) := by
  induction p generalizing t with
  | nil => rfl
  | cons i p ih =>
    rw [List.cons_append, at?, at?]
    cases t.children[i]? with
    | none => rfl
    | some c => exact ih c

/-- The tokens before an element are those before an element around it and then, inside that one, those
before it. -/
theorem leavesBefore_append {p : List Nat} {t c : Tree} (h : at? p t = some c) (q : List Nat) :
    leavesBefore (p ++ q) t = leavesBefore p t ++ leavesBefore q c := by
  induction p generalizing t with
  | nil =>
    obtain rfl := Option.some.inj h
    rfl
  | cons i p ih =>
    obtain ⟨k, us, d, vs, rfl, rfl, hd⟩ := at?_cons_eq_some_iff.1 h
    rw [List.cons_append, leavesBefore_append_cons, leavesBefore_append_cons, ih hd,
      List.append_assoc]

/-- An element other than the root is one of the children of a node. -/
theorem exists_parent {root e : Tree} {p : List Nat} (h : at? p root = some e) (hp : p ≠ []) :
    ∃ q k us vs, p = q ++ [us.length] ∧ at? q root = some (node k (us ++ e :: vs)) := by
  obtain rfl | ⟨q, i, rfl⟩ := p.eq_nil_or_concat'
  · exact absurd rfl hp
  · rw [at?_append, Option.bind_eq_some_iff] at h
    obtain ⟨t, ht, he⟩ := h
    obtain ⟨k, us, c, vs, rfl, rfl, hc⟩ := at?_cons_eq_some_iff.1 he
    obtain rfl := Option.some.inj hc
    exact ⟨q, k, us, vs, rfl, ht⟩

theorem alongside_append (n : Nat) (q : List Nat) {r : List Nat} (hr : r ≠ []) :
    alongside n (q ++ r) = q ++ alongside n r := by
  induction q with
  | nil => rfl
  | cons i q ih =>
    rw [List.cons_append, alongside, ih, List.cons_append]
    exact List.append_ne_nil_of_right_ne_nil q hr

/-! ## Back to the sibling before

First children have no sibling before them, so the way back goes up past them. -/

/-- The first token of an element is sought through first children only. -/
theorem eq_zero_of_firstToken? {t : Tree} {q : List Nat} (h : t.firstToken? = some q) :
    ∀ i ∈ q, i = 0 := by
  induction q generalizing t with
  | nil => exact List.forall_mem_nil _
  | cons i q ih =>
    cases t with
    | token t => cases h
    | node k cs =>
      cases cs with
      | nil => cases h
      | cons c cs =>
        rw [firstToken?, Option.map_eq_some_iff] at h
        obtain ⟨r, hr, heq⟩ := h
        obtain ⟨rfl, rfl⟩ := List.cons.inj heq
        exact List.forall_mem_cons.2 ⟨rfl, ih hr⟩

theorem siblingBefore?_append {zs : List Nat} (hzs : ∀ i ∈ zs, i = 0) (q : List Nat) (i : Nat) :
    siblingBefore? (q ++ (i + 1) :: zs) = some (q ++ [i]) := by
  have hzeros : ∀ j ∈ zs.reverse, (j == 0) = true := by
    intro j hj
    rw [hzs j (List.mem_reverse.1 hj), beq_self_eq_true]
  rw [siblingBefore?, List.reverse_append, List.reverse_cons, List.append_assoc,
    List.dropWhile_append_of_pos hzeros]
  simp

theorem siblingBefore?_zeros {zs : List Nat} (hzs : ∀ i ∈ zs, i = 0) :
    siblingBefore? zs = none := by
  have hnil : zs.reverse.dropWhile (· == 0) = [] := by
    rw [List.dropWhile_eq_nil_iff]
    intro j hj
    rw [hzs j (List.mem_reverse.1 hj), beq_self_eq_true]
  rw [siblingBefore?, hnil]

end Renumber.Tree
