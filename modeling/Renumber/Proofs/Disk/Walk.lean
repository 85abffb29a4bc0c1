import Mathlib.Data.List.Lex
import Mathlib.Data.String.Basic
import Renumber.Discovery
import Renumber.Proofs.Paths

/-!
# The walk of a directory tree

In a directory tree as a disk has it the entries of a directory have names, and stand in the order of
these (`Node.Ordered`); it stays so when something is put into it (`Node.Ordered.put`). The walk of such
a tree finds each file once (`Node.Ordered.mem_files`, `Node.Ordered.pairwise_files`), and the order in
which it finds them, directories among files, is that of their locations: first by the first name, then
by the next one.
-/

namespace Renumber

namespace Node

/-- A directory tree whose entries have names and stand in their order. -/
inductive Ordered : Node → Prop
  | file (f : File) : Ordered (.file f)
  | directory {es : List (String × Node)} (names : ∀ e ∈ es, Path.IsName e.1)
      (ordered : es.Pairwise fun e e' => e.1 < e'.1) (below : ∀ e ∈ es, Ordered e.2) :
      Ordered (.directory es)

theorem Ordered.names {es : List (String × Node)} (h : (Node.directory es).Ordered) :
    ∀ e ∈ es, Path.IsName e.1 := by
  cases h with
  | directory names => exact names

theorem Ordered.below_directory {es : List (String × Node)} (h : (Node.directory es).Ordered) :
    ∀ e ∈ es, e.2.Ordered := by
  cases h with
  | directory _ _ below => exact below

theorem Ordered.pairwise {es : List (String × Node)} (h : (Node.directory es).Ordered) :
    es.Pairwise fun e e' => e.1 < e'.1 := by
  cases h with
  | directory _ ordered => exact ordered

theorem mem_of_find? {name : String} {x : Node} {es : List (String × Node)}
    (h : find? name es = some x) : (name, x) ∈ es := by
  induction es with
  | nil => cases h
  | cons e es ih =>
    obtain ⟨n, y⟩ := e
    rw [find?] at h
    split at h
    · rename_i hn
      obtain rfl := Option.some.inj h
      exact hn ▸ List.mem_cons_self
    · exact List.mem_cons_of_mem _ (ih h)

theorem Ordered.entries {x : Node} (h : x.Ordered) : (Node.directory x.entries).Ordered := by
  cases h with
  | file => exact .directory (by simp [Node.entries]) .nil (by simp [Node.entries])
  | directory names ordered below => exact .directory names ordered below

/-- What is in an ordered tree is ordered. -/
theorem Ordered.get? {x y : Node} {l : Location} (h : x.Ordered) (hy : x.get? l = some y) :
    y.Ordered := by
  induction l generalizing x with
  | nil => exact Option.some.inj hy ▸ h
  | cons name l ih =>
    obtain ⟨z, hz, hy⟩ := Option.bind_eq_some_iff.1 hy
    exact ih (h.entries.below_directory _ (mem_of_find? hz)) hy

/-! ## Putting something into a tree -/

theorem mem_update {name : String} {new : Node} {es : List (String × Node)} {e : String × Node}
    (h : e ∈ update name new es) : e = (name, new) ∨ e ∈ es := by
  induction es with
  | nil => exact .inl (List.mem_singleton.1 h)
  | cons e' es ih =>
    obtain ⟨n, x⟩ := e'
    rw [update] at h
    split at h
    · rcases List.mem_cons.1 h with h | h
      · exact .inl h
      · exact .inr (List.mem_cons_of_mem _ h)
    · split at h
      · exact List.mem_cons.1 h
      · rcases List.mem_cons.1 h with h | h
        · exact .inr (h ▸ List.mem_cons_self)
        · exact (ih h).imp_right (List.mem_cons_of_mem _)

theorem pairwise_update (name : String) (new : Node) {es : List (String × Node)}
    (h : es.Pairwise fun e e' => e.1 < e'.1) :
    (update name new es).Pairwise fun e e' => e.1 < e'.1 := by
  induction es with
  | nil => exact List.pairwise_singleton _ _
  | cons e es ih =>
    obtain ⟨n, x⟩ := e
    obtain ⟨hlt, htail⟩ := List.pairwise_cons.1 h
    rw [update]
    split
    · rename_i hn
      exact List.pairwise_cons.2 ⟨fun e he => hn ▸ hlt e he, htail⟩
    · rename_i hn
      split
      · rename_i hname
        refine List.pairwise_cons.2 ⟨fun e he => ?_, h⟩
        rcases List.mem_cons.1 he with rfl | he
        · exact hname
        · exact hname.trans (hlt e he)
      · rename_i hname
        refine List.pairwise_cons.2 ⟨fun e he => ?_, ih htail⟩
        rcases mem_update he with rfl | he
        · exact lt_of_le_of_ne (not_lt.1 hname) hn
        · exact hlt e he

/-- A directory stays in order when an entry gets another node or a new entry comes. -/
theorem Ordered.update {name : String} {new : Node} {es : List (String × Node)}
    (h : (Node.directory es).Ordered) (hname : Path.IsName name) (hnew : new.Ordered) :
    (Node.directory (Node.update name new es)).Ordered := by
  refine .directory (fun e he => ?_) (pairwise_update name new h.pairwise) fun e he => ?_
  · rcases mem_update he with rfl | he
    · exact hname
    · exact h.names e he
  · rcases mem_update he with rfl | he
    · exact hnew
    · exact h.below_directory e he

/-- A tree stays in order when something is put where names lead. -/
theorem Ordered.put {x new : Node} {l : Location} (h : x.Ordered) (hl : ∀ name ∈ l, Path.IsName name)
    (hnew : new.Ordered) : (x.put l new).Ordered := by
  induction l generalizing x with
  | nil => exact hnew
  | cons name l ih =>
    have hold : ((find? name x.entries).getD (.directory [])).Ordered := by
      cases hfound : find? name x.entries with
      | none => exact .directory (by simp) .nil (by simp)
      | some y => exact h.entries.below_directory _ (mem_of_find? hfound)
    exact h.entries.update (hl name List.mem_cons_self)
      (ih hold fun n hn => hl n (List.mem_cons_of_mem _ hn))

/-! ## The files of a tree -/

/-- The locations of the files below some entries, in the order of a walk. -/
def filesOf : List (String × Node) → List Location
  | [] => []
  | (name, x) :: rest => x.files.map (name :: ·) ++ filesOf rest

theorem files_file (f : File) : (file f).files = [[]] := rfl

theorem filterMap_leavesOf (es : List (String × Node)) :
    ((leavesOf es).filterMap fun (l, f?) => f?.map fun _ => l) = filesOf es := by
  induction es with
  | nil => rfl
  | cons e es ih =>
    obtain ⟨name, x⟩ := e
    rw [leavesOf, List.filterMap_append, ih, filesOf, files, List.filterMap_map, List.map_filterMap]
    refine congrArg (· ++ filesOf es) (List.filterMap_congr fun e _ => ?_)
    obtain ⟨l, f?⟩ := e
    cases f? <;> rfl

theorem files_directory (es : List (String × Node)) : (directory es).files = filesOf es := by
  cases es with
  | nil => rfl
  | cons e es => exact filterMap_leavesOf (e :: es)

theorem exists_of_mem_filesOf {es : List (String × Node)} {l : Location} (h : l ∈ filesOf es) :
    ∃ name x l', (name, x) ∈ es ∧ l' ∈ x.files ∧ l = name :: l' := by
  induction es with
  | nil => cases h
  | cons e es ih =>
    obtain ⟨name, x⟩ := e
    rw [filesOf, List.mem_append, List.mem_map] at h
    rcases h with ⟨l', hl', rfl⟩ | h
    · exact ⟨name, x, l', List.mem_cons_self, hl', rfl⟩
    · obtain ⟨other, y, l', hmem, hl', rfl⟩ := ih h
      exact ⟨other, y, l', List.mem_cons_of_mem _ hmem, hl', rfl⟩

/-- In a directory in order a name has one entry. -/
theorem mem_filesOf_iff {es : List (String × Node)} (h : es.Pairwise fun e e' => e.1 < e'.1)
    {name : String} {l : Location} :
    name :: l ∈ filesOf es ↔ ∃ x, find? name es = some x ∧ l ∈ x.files := by
  induction es with
  | nil =>
    constructor
    · intro h; cases h
    · rintro ⟨x, h, -⟩; cases h
  | cons e es ih =>
    obtain ⟨n, y⟩ := e
    obtain ⟨hlt, htail⟩ := List.pairwise_cons.1 h
    rw [filesOf, List.mem_append, List.mem_map, ih htail, find?]
    by_cases hn : n = name
    · subst hn
      rw [if_pos rfl]
      constructor
      · rintro (⟨l', hl', heq⟩ | ⟨x, hx, -⟩)
        · exact ⟨y, rfl, (List.cons.inj heq).2 ▸ hl'⟩
        · exact absurd (hlt _ (mem_of_find? hx)) (lt_irrefl _)
      · rintro ⟨x, hx, hl⟩
        exact .inl ⟨l, Option.some.inj hx ▸ hl, rfl⟩
    · rw [if_neg hn]
      constructor
      · rintro (⟨l', -, heq⟩ | hx)
        · exact absurd (List.cons.inj heq).1 hn
        · exact hx
      · exact .inr

/-- The walk of an ordered tree finds the files of the tree, wherever they are. -/
theorem Ordered.mem_files {x : Node} (h : x.Ordered) {l : Location} :
    l ∈ x.files ↔ ∃ f, x.get? l = some (.file f) := by
  induction h generalizing l with
  | file f =>
    rw [files_file, List.mem_singleton]
    constructor
    · rintro rfl
      exact ⟨f, rfl⟩
    · rintro ⟨g, hg⟩
      cases l with
      | nil => rfl
      | cons name l => rw [get?_cons_of_entries_nil rfl] at hg; cases hg
  | @directory es names ordered below ih =>
    rw [files_directory]
    cases l with
    | nil =>
      constructor
      · intro h
        obtain ⟨name, x, l', -, -, heq⟩ := exists_of_mem_filesOf h
        cases heq
      · rintro ⟨f, hf⟩
        cases hf
    | cons name l =>
      rw [mem_filesOf_iff ordered]
      constructor
      · rintro ⟨x, hx, hl⟩
        obtain ⟨f, hf⟩ := (ih _ (mem_of_find? hx)).1 hl
        exact ⟨f, by rw [Node.get?, entries_directory, hx]; exact hf⟩
      · rintro ⟨f, hf⟩
        obtain ⟨x, hx, hf⟩ := Option.bind_eq_some_iff.1 hf
        exact ⟨x, hx, (ih _ (mem_of_find? hx)).2 ⟨f, hf⟩⟩

/-- The walk of an ordered tree finds the files in the order of their locations, and none twice. -/
theorem Ordered.pairwise_files {x : Node} (h : x.Ordered) : x.files.Pairwise (· < ·) := by
  induction h with
  | file f => exact List.pairwise_singleton _ _
  | @directory es names ordered below ih =>
    rw [files_directory]
    clear names
    induction es with
    | nil => exact .nil
    | cons e es ihes =>
      obtain ⟨name, x⟩ := e
      obtain ⟨hlt, htail⟩ := List.pairwise_cons.1 ordered
      rw [filesOf, List.pairwise_append]
      refine ⟨?_, ?_, fun l hl m hm => ?_⟩
      · refine List.Pairwise.map _ (fun l m hlm => ?_) (ih _ List.mem_cons_self)
        exact List.cons_lt_cons_iff.2 (.inr ⟨rfl, hlm⟩)
      · exact ihes htail (fun e he => below e (List.mem_cons_of_mem _ he))
          fun e he => ih e (List.mem_cons_of_mem _ he)
      · obtain ⟨l', -, rfl⟩ := List.mem_map.1 hl
        obtain ⟨other, y, m', hmem, -, rfl⟩ := exists_of_mem_filesOf hm
        exact List.cons_lt_cons_iff.2 (.inl (hlt _ hmem))

/-- A file in an ordered directory is found under names. -/
theorem Ordered.isName_of_get? {x y : Node} {l : Location} (h : x.Ordered)
    (hy : x.get? l = some y) : ∀ name ∈ l, Path.IsName name := by
  induction l generalizing x with
  | nil => simp
  | cons name l ih =>
    obtain ⟨z, hz, hy⟩ := Option.bind_eq_some_iff.1 hy
    intro n hn
    rcases List.mem_cons.1 hn with rfl | hn
    · exact h.entries.names _ (mem_of_find? hz)
    · exact ih (h.entries.below_directory _ (mem_of_find? hz)) hy n hn

end Node

namespace Disk

/-- What a path of an ordered disk leads to is ordered. -/
theorem ordered_of_follow {d : Disk} (hd : d.root.Ordered) {p : Path} {x : Node}
    (h : d.follow p = .ok x) : x.Ordered := by
  obtain ⟨l, -, hx⟩ := follow_eq_ok_iff.1 h
  exact hd.get? hx

end Disk

end Renumber
