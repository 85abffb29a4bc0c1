import Renumber.Proofs.Numbering.Walk

/-!
# The calls that get a code

Of the error calls of a tree, outer ones first, those are dropped that lie in the first argument of a call
with two that is itself kept (`kept`). The calls of a tree are gone through by the places that they have
in it: `callsFrom` lists those of some children of a node, and what is kept of several children is what is
kept of each (`kept_callsFrom_append`).
-/

namespace Renumber.Tree

/-- A call with the node that it is and the path to that node. -/
abbrev Entry := List Nat × Tree × Call

/-- The path leads into the first argument of a call with two. -/
def covers (m : Entry) (p : List Nat) : Bool :=
  match m.2.2.arguments with
  | .two code _ => (m.1 ++ code).isPrefixOf p
  | _ => false

/-- The calls that do not lie in the first argument of a call with two. -/
def spared (m : Entry) (ms : List Entry) : List Entry := ms.filter fun n => !covers m n.1

/-- The calls that are left after each call with two arguments, unless it is dropped itself, has dropped
those in its first argument. -/
def kept : List Entry → List Entry
  | [] => []
  | m :: ms => m :: kept (spared m ms)
termination_by ms => ms.length
decreasing_by
  simp only [List.length_cons]
  exact Nat.lt_succ_of_le (List.length_filter_le _ _)

@[simp] theorem kept_nil : kept [] = [] := by rw [kept]

theorem kept_cons (m : Entry) (ms : List Entry) : kept (m :: ms) = m :: kept (spared m ms) := by
  rw [kept]

theorem mem_spared {m n : Entry} {ms : List Entry} :
    n ∈ spared m ms ↔ n ∈ ms ∧ covers m n.1 = false := by
  rw [spared, List.mem_filter, Bool.not_eq_true']

theorem spared_append (m : Entry) (ms ns : List Entry) :
    spared m (ms ++ ns) = spared m ms ++ spared m ns :=
  List.filter_append ..

theorem spared_eq_self {m : Entry} {ms : List Entry} (h : ∀ n ∈ ms, covers m n.1 = false) :
    spared m ms = ms :=
  List.filter_eq_self.2 fun n hn => by rw [h n hn]; rfl

/-- Every call is kept or lies in the first argument of a call that is. -/
theorem mem_kept_or_covered {m : Entry} {ms : List Entry} (h : m ∈ ms) :
    m ∈ kept ms ∨ ∃ n ∈ kept ms, covers n m.1 = true := by
  fun_induction kept ms with
  | case1 => cases h
  | case2 n ms ih =>
    rcases List.mem_cons.1 h with rfl | h
    · exact .inl List.mem_cons_self
    · cases hn : covers n m.1 with
      | true => exact .inr ⟨n, List.mem_cons_self, hn⟩
      | false =>
        rcases ih (mem_spared.2 ⟨h, hn⟩) with h | ⟨n', hn', hc⟩
        · exact .inl (List.mem_cons_of_mem _ h)
        · exact .inr ⟨n', List.mem_cons_of_mem _ hn', hc⟩

theorem kept_sublist (ms : List Entry) : (kept ms).Sublist ms := by
  fun_induction kept ms with
  | case1 => exact .slnil
  | case2 n ms ih => exact (ih.trans List.filter_sublist).cons_cons n

/-- No call that is kept lies in the first argument of an earlier one. -/
theorem pairwise_kept (ms : List Entry) :
    (kept ms).Pairwise fun m n => covers m n.1 = false := by
  fun_induction kept ms with
  | case1 => exact .nil
  | case2 m ms ih =>
    exact .cons (fun n hn => (mem_spared.1 ((kept_sublist _).subset hn)).2) ih

/-- Lists of calls are sieved by themselves if none of the first covers one of the second. -/
theorem kept_append {ms ns : List Entry} (h : ∀ m ∈ ms, ∀ n ∈ ns, covers m n.1 = false) :
    kept (ms ++ ns) = kept ms ++ kept ns := by
  fun_induction kept ms with
  | case1 => rfl
  | case2 m ms ih =>
    rw [List.cons_append, kept_cons, spared_append, spared_eq_self (h m List.mem_cons_self), ih,
      List.cons_append]
    intro n hn
    exact h n (List.mem_cons_of_mem _ (mem_spared.1 hn).1)

/-! ## Places -/

/-- The calls of some children of the node at the end of a path; the first child has an index. -/
def callsFrom (p : List Nat) (i : Nat) (ts : List Tree) : List Entry :=
  (elementsFrom i ts).filterMap fun (q, u) => u.call?.map fun c => (p ++ q, u, c)

@[simp] theorem callsFrom_nil (p : List Nat) (i : Nat) : callsFrom p i [] = [] := by
  rw [callsFrom, elementsFrom]
  rfl

/-- The calls of an element at the end of a path. -/
def callsAt (p : List Nat) (t : Tree) : List Entry :=
  t.elements.filterMap fun (q, u) => u.call?.map fun c => (p ++ q, u, c)

theorem callsAt_nil (t : Tree) : callsAt [] t = t.calls := rfl

theorem callsFrom_cons (p : List Nat) (i : Nat) (t : Tree) (ts : List Tree) :
    callsFrom p i (t :: ts) = callsAt (p ++ [i]) t ++ callsFrom p (i + 1) ts := by
  rw [callsFrom, elementsFrom, List.filterMap_append, List.filterMap_map]
  congr 1
  simp only [callsAt, List.append_assoc, List.cons_append, List.nil_append]
  rfl

theorem callsFrom_append (p : List Nat) (i : Nat) (ts us : List Tree) :
    callsFrom p i (ts ++ us) = callsFrom p i ts ++ callsFrom p (i + ts.length) us := by
  induction ts generalizing i with
  | nil => simp
  | cons t ts ih =>
    rw [List.cons_append, callsFrom_cons, callsFrom_cons, ih, List.append_assoc, List.length_cons,
      Nat.add_right_comm, Nat.add_assoc]

theorem callsAt_token (p : List Nat) (t : Token) : callsAt p (token t) = [] := by
  simp [callsAt, elements, call?]

theorem callsAt_plain (p : List Nat) {k : Kind} {cs : List Tree} (h : (node k cs).call? = none) :
    callsAt p (node k cs) = callsFrom p 0 cs := by
  simp [callsAt, callsFrom, elements, h]

theorem callsAt_call (p : List Nat) {k : Kind} {cs : List Tree} {c : Call}
    (h : (node k cs).call? = some c) :
    callsAt p (node k cs) = (p, node k cs, c) :: callsFrom p 0 cs := by
  simp [callsAt, callsFrom, elements, h]

/-- The calls of a whole text are those of the children of its tree. -/
theorem calls_module (cs : List Tree) : (node .module cs).calls = callsFrom [] 0 cs := by
  rw [← callsAt_nil, callsAt_plain [] (call?_eq_none (by decide) cs)]

/-- A call of some children lies below one of them. -/
theorem exists_path_of_mem_callsFrom {p : List Nat} {i : Nat} {ts : List Tree} {m : Entry}
    (h : m ∈ callsFrom p i ts) : ∃ j q, j < ts.length ∧ m.1 = p ++ (i + j) :: q := by
  induction ts generalizing i with
  | nil => simp at h
  | cons t ts ih =>
    rw [callsFrom_cons, List.mem_append] at h
    rcases h with h | h
    · simp only [callsAt, List.mem_filterMap, Option.map_eq_some_iff] at h
      obtain ⟨⟨q, u⟩, -, c, -, rfl⟩ := h
      exact ⟨0, q, Nat.zero_lt_succ _, by simp⟩
    · obtain ⟨j, q, hj, hm⟩ := ih h
      exact ⟨j + 1, q, Nat.succ_lt_succ hj, by rw [hm]; congr 2; omega⟩

/-- What a call covers starts with its path. -/
theorem prefix_of_covers {m : Entry} {p : List Nat} (h : covers m p = true) : m.1 <+: p := by
  unfold covers at h
  split at h
  · exact (List.prefix_append _ _).trans (List.isPrefixOf_iff_prefix.1 h)
  · cases h

/-- What lies in the first argument of a call that lies in the first argument of another one lies in
that, too. -/
theorem covers_of_covers {m n : Entry} {p : List Nat} (h : covers m n.1 = true)
    (hn : covers n p = true) : covers m p = true := by
  unfold covers at h ⊢
  split at h
  · rw [List.isPrefixOf_iff_prefix] at h ⊢
    exact h.trans (prefix_of_covers hn)
  · cases h

theorem not_prefix_of_ne {p q r : List Nat} {i j : Nat} (h : i ≠ j) :
    ¬p ++ i :: q <+: p ++ j :: r := by
  rw [List.prefix_append_right_inj, List.cons_prefix_cons]
  exact fun h' => h h'.1

/-- What is kept of several children is what is kept of each. -/
theorem kept_callsFrom_append (p : List Nat) (i : Nat) (ts us : List Tree) :
    kept (callsFrom p i (ts ++ us)) =
      kept (callsFrom p i ts) ++ kept (callsFrom p (i + ts.length) us) := by
  rw [callsFrom_append]
  refine kept_append fun m hm n hn => ?_
  rw [← Bool.not_eq_true]
  intro hc
  obtain ⟨j, q, hj, hmq⟩ := exists_path_of_mem_callsFrom hm
  obtain ⟨k, r, -, hnr⟩ := exists_path_of_mem_callsFrom hn
  have hprefix := prefix_of_covers hc
  rw [hmq, hnr] at hprefix
  exact not_prefix_of_ne (by omega) hprefix

/-! ## Calls -/

/-- Dropping calls before or after the sieve comes to the same: a call that is dropped lies where
everything that it would drop lies, too. -/
theorem kept_spared (m : Entry) (ms : List Entry) : kept (spared m ms) = spared m (kept ms) := by
  fun_induction kept ms with
  | case1 => simp [spared]
  | case2 n ms ih =>
    cases hn : covers m n.1 with
    | true =>
      have hall : spared m (spared n ms) = spared m ms := by
        simp only [spared, List.filter_filter]
        refine List.filter_congr fun l _ => ?_
        cases hl : covers n l.1 with
        | false => simp
        | true => simp [covers_of_covers hn hl]
      have hdrop (ls : List Entry) : spared m (n :: ls) = spared m ls := by
        simp [spared, hn]
      rw [hdrop, hdrop, ← ih, hall]
    | false =>
      have hkeep (ls : List Entry) : spared m (n :: ls) = n :: spared m ls := by
        simp [spared, hn]
      have hcomm : spared n (spared m ms) = spared m (spared n ms) := by
        simp only [spared, List.filter_filter, Bool.and_comm]
      rw [hkeep, hkeep, kept_cons, hcomm, ih]

theorem kept_callsAt_call (p : List Nat) {k : Kind} {cs : List Tree} {c : Call}
    (h : (node k cs).call? = some c) : kept (callsAt p (node k cs)) =
      (p, node k cs, c) :: spared (p, node k cs, c) (kept (callsFrom p 0 cs)) := by
  rw [callsAt_call p h, kept_cons, kept_spared]

/-- A call with no argument or with one drops no other. -/
theorem spared_of_not_two {m : Entry} (h : ∀ p q, m.2.2.arguments ≠ .two p q) (ms : List Entry) :
    spared m ms = ms := by
  refine spared_eq_self fun n _ => ?_
  unfold covers
  split
  · rename_i heq
    exact absurd heq (h _ _)
  · rfl

/-- Calls below other children are not dropped. -/
theorem spared_callsFrom_of_ne {m : Entry} {p q r : List Nat} {i j : Nat} {ts : List Tree}
    (hm : m.2.2.arguments = .two q r) (h : ∃ s, m.1 ++ q = p ++ j :: s)
    (hj : j < i ∨ i + ts.length ≤ j) : spared m (callsFrom p i ts) = callsFrom p i ts := by
  refine spared_eq_self fun n hn => ?_
  obtain ⟨s, hs⟩ := h
  obtain ⟨k, t, hk, hnt⟩ := exists_path_of_mem_callsFrom hn
  rw [← Bool.not_eq_true]
  intro hc
  simp only [covers, hm, hs, hnt, List.isPrefixOf_iff_prefix] at hc
  exact not_prefix_of_ne (by omega) hc

/-- Calls below the first argument are all dropped. -/
theorem spared_callsFrom_self {m : Entry} {p q r : List Nat} {i : Nat} {t : Tree}
    (hm : m.2.2.arguments = .two q r) (h : m.1 ++ q = p ++ [i]) :
    spared m (callsFrom p i [t]) = [] := by
  refine List.eq_nil_iff_forall_not_mem.2 fun n hn => ?_
  obtain ⟨hn, hc⟩ := mem_spared.1 hn
  obtain ⟨j, s, hj, hns⟩ := exists_path_of_mem_callsFrom hn
  obtain rfl : j = 0 := by simp only [List.length_singleton] at hj; omega
  rw [← Bool.not_eq_true] at hc
  apply hc
  simp only [covers, hm, h, hns, List.isPrefixOf_iff_prefix, Nat.add_zero]
  exact ⟨s, by simp⟩

end Renumber.Tree
