import Renumber.Disk.Write

/-!
# What a disk holds

To say what an operation does to a disk it is enough to say what each location holds afterwards: a
file, a directory or nothing (`Disk.holding?`). A file may be put where a directory is in front and
none is there, and then it is the only thing that changes (`Disk.holding?_put`); a file that is
taken out is the only thing that is missing (`Disk.holding?_erase`).
-/

namespace Renumber

/-- What a location holds, without the entries of a directory. -/
inductive Holding where
  | file (f : File)
  | directory

namespace Node

/-- A node as what its location holds. -/
def holding : Node → Holding
  | .file f => .file f
  | .directory _ => .directory

@[simp] theorem holding_file (f : File) : (file f).holding = .file f := rfl
@[simp] theorem holding_directory (es : List (String × Node)) :
    (directory es).holding = .directory := rfl

theorem exists_directory_of_holding {x : Node} (h : x.holding = .directory) :
    ∃ es, x = .directory es := by
  cases x with
  | file => cases h
  | directory es => exact ⟨es, rfl⟩

theorem entries_of_holding {x : Node} {f : File} (h : x.holding = .file f) : x.entries = [] := by
  cases x with
  | file => rfl
  | directory => cases h

theorem get?_cons_of_entries_nil {x : Node} (h : x.entries = []) (name : String) (l : Location) :
    x.get? (name :: l) = none := by
  rw [get?, h]
  rfl

theorem get?_append (x : Node) (l m : Location) : x.get? (l ++ m) = (x.get? l).bind (get? · m) := by
  induction l generalizing x with
  | nil => rfl
  | cons name l ih =>
    rw [List.cons_append, get?, get?]
    cases find? name x.entries with
    | none => rfl
    | some y => exact ih y

/-- A node at a location below is below a directory. -/
theorem holding_of_get?_cons {x y : Node} {name : String} {l : Location}
    (h : x.get? (name :: l) = some y) : x.holding = .directory := by
  cases x with
  | file => cases h
  | directory => rfl

theorem get?_dropLast {x y : Node} {l : Location} (hl : l ≠ []) (h : x.get? l = some y) :
    ∃ es, x.get? l.dropLast = some (.directory es) := by
  rw [← List.dropLast_concat_getLast hl, get?_append, Option.bind_eq_some_iff] at h
  obtain ⟨z, hz, hy⟩ := h
  obtain ⟨es, rfl⟩ := exists_directory_of_holding (holding_of_get?_cons hy)
  exact ⟨es, hz⟩

/-- The first of several names leads to a directory if all but the last do. -/
theorem exists_find?_of_dropLast {x : Node} {name other : String} {l : Location}
    (h : (x.get? (name :: other :: l).dropLast).map holding = some .directory) :
    ∃ y, find? name x.entries = some y ∧
      (y.get? (other :: l).dropLast).map holding = some .directory := by
  rw [List.dropLast_cons_of_ne_nil (List.cons_ne_nil _ _), get?] at h
  cases hy : find? name x.entries with
  | none => rw [hy] at h; cases h
  | some y => rw [hy] at h; exact ⟨y, rfl, h⟩

/-- A file or an empty directory in a directory, where no directory was, changes what its own
location holds and nothing else. -/
theorem holding_put {x new : Node} {l : Location} (hl : l ≠ [])
    (hparent : (x.get? l.dropLast).map holding = some .directory)
    (hthere : (x.get? l).map holding ≠ some .directory) (hnew : new.entries = []) (m : Location) :
    ((x.put l new).get? m).map holding =
      if m = l then some new.holding else (x.get? m).map holding := by
  induction l generalizing x m with
  | nil => exact absurd rfl hl
  | cons name l ih =>
    cases m with
    | nil =>
      have hx : x.holding = .directory := by
        cases l with
        | nil => simpa [get?] using hparent
        | cons other l =>
          obtain ⟨y, hy, -⟩ := exists_find?_of_dropLast hparent
          exact holding_of_get?_cons (l := []) (by rw [get?, hy]; rfl)
      simp [put, get?, hx]
    | cons other m =>
      rw [put, get?, entries_directory, find?_update]
      by_cases ho : other = name
      · subst ho
        rw [if_pos rfl, Option.bind_some, get?]
        cases l with
        | nil =>
          rw [put]
          cases m with
          | nil => simp [get?]
          | cons other' m =>
            rw [get?_cons_of_entries_nil hnew, if_neg (by simp)]
            rw [get?] at hthere
            cases hy : find? other x.entries with
            | none => rfl
            | some y =>
              rw [hy] at hthere
              have hfile : y.entries = [] := by
                cases y with
                | file => rfl
                | directory => exact absurd rfl hthere
              rw [Option.bind_some, get?_cons_of_entries_nil hfile]
        | cons other' l =>
          obtain ⟨y, hy, hdir⟩ := exists_find?_of_dropLast hparent
          rw [get?, hy, Option.bind_some] at hthere
          rw [hy, Option.getD_some, Option.bind_some, ih (List.cons_ne_nil _ _) hdir hthere]
          simp
      · rw [if_neg ho, if_neg (by simp [ho]), get?]

/-- Without a file, its own location holds nothing and the others what they held. -/
theorem holding_erase {x : Node} {l : Location} {f : File} (hl : l ≠ [])
    (hfile : (x.get? l).map holding = some (.file f)) (m : Location) :
    ((x.erase l).get? m).map holding = if m = l then none else (x.get? m).map holding := by
  induction l generalizing x m with
  | nil => exact absurd rfl hl
  | cons name l ih =>
    obtain ⟨z, hz, hzf⟩ := Option.map_eq_some_iff.1 hfile
    have hx := holding_of_get?_cons hz
    rw [get?] at hz
    obtain ⟨y, hy, hyz⟩ := Option.bind_eq_some_iff.1 hz
    cases l with
    | nil =>
      obtain rfl : y = z := Option.some.inj hyz
      rw [erase]
      cases m with
      | nil => simp [get?, hx]
      | cons other m =>
        rw [get?, entries_directory, find?_without]
        by_cases ho : other = name
        · subst ho
          rw [if_pos rfl, get?, hy, Option.bind_some]
          cases m with
          | nil => simp
          | cons other' m => rw [get?_cons_of_entries_nil (entries_of_holding hzf)]; simp
        · rw [if_neg ho, if_neg (by simp [ho]), get?]
    | cons other' l =>
      have herase : x.erase (name :: other' :: l) =
          .directory (update name (y.erase (other' :: l)) x.entries) := by
        rw [erase, hy]
        simp
      rw [herase]
      cases m with
      | nil => simp [get?, hx]
      | cons other m =>
        rw [get?, entries_directory, find?_update]
        by_cases ho : other = name
        · subst ho
          rw [if_pos rfl, Option.bind_some,
            ih (List.cons_ne_nil _ _) (by rw [hyz, Option.map_some, hzf]), get?, hy]
          simp
        · rw [if_neg ho, if_neg (by simp [ho]), get?]

end Node

namespace Disk

variable {d d' : Disk} {l m : Location} {f : File}

/-- What a location holds. -/
def holding? (d : Disk) (l : Location) : Option Holding := (d.get? l).map Node.holding

theorem holding?_eq_file_iff : d.holding? l = some (.file f) ↔ d.get? l = some (.file f) := by
  rw [holding?, Option.map_eq_some_iff]
  constructor
  · rintro ⟨x, hx, hf⟩
    cases x with
    | file g => cases hf; exact hx
    | directory => cases hf
  · intro h
    exact ⟨_, h, rfl⟩

theorem holding?_eq_directory_iff :
    d.holding? l = some .directory ↔ ∃ es, d.get? l = some (.directory es) := by
  rw [holding?, Option.map_eq_some_iff]
  constructor
  · rintro ⟨x, hx, hdir⟩
    obtain ⟨es, rfl⟩ := Node.exists_directory_of_holding hdir
    exact ⟨es, hx⟩
  · rintro ⟨es, h⟩
    exact ⟨_, h, rfl⟩

/-- What a location below a directory holds is in its entries. -/
theorem holding?_append_singleton {es : List (String × Node)} (h : d.get? l = some (.directory es))
    (name : String) : d.holding? (l ++ [name]) = (Node.find? name es).map Node.holding := by
  rw [get?] at h
  rw [holding?, get?, Node.get?_append, h, Option.bind_some, Node.get?, Node.entries_directory]
  cases Node.find? name es <;> rfl

/-- What is somewhere is in a directory. -/
theorem holding?_dropLast {x : Holding} (h : d.holding? l = some x) (hl : l ≠ []) :
    d.holding? l.dropLast = some .directory := by
  obtain ⟨y, hy, -⟩ := Option.map_eq_some_iff.1 h
  exact holding?_eq_directory_iff.2 (Node.get?_dropLast hl hy)

/-- The location is one where a file or a directory may be put. -/
structure Free (d : Disk) (l : Location) : Prop where
  ne_nil : l ≠ []
  parent : d.holding? l.dropLast = some .directory
  there : d.holding? l ≠ some .directory

theorem holding?_put (h : d.Free l) {new : Node} (hnew : new.entries = []) (m : Location) :
    (d.put l new).holding? m = if m = l then some new.holding else d.holding? m := by
  rw [holding?, get?, root_put h.ne_nil]
  exact Node.holding_put h.ne_nil h.parent h.there hnew m

theorem root_erase (hfile : d.holding? l = some (.file f)) : (d.erase l).root = d.root.erase l := by
  have h : d.root.get? l = some (.file f) := holding?_eq_file_iff.1 hfile
  match l, h with
  | [name], _ => rfl
  | name :: other :: l, h =>
    rw [Node.get?] at h
    obtain ⟨y, hy, -⟩ := Option.bind_eq_some_iff.1 h
    have herase : d.root.erase (name :: other :: l) =
        .directory (Node.update name (y.erase (other :: l)) d.root.entries) := by
      rw [Node.erase, hy]
      simp
    rw [root, erase, herase]
    rfl

theorem ne_nil_of_file (h : d.holding? l = some (.file f)) : l ≠ [] := by
  rintro rfl
  cases h

theorem holding?_erase (hfile : d.holding? l = some (.file f)) (m : Location) :
    (d.erase l).holding? m = if m = l then none else d.holding? m := by
  rw [holding?, get?, root_erase hfile]
  exact Node.holding_erase (ne_nil_of_file hfile) hfile m

/-- A file may be put where one is. -/
theorem Free.of_file (h : d.holding? l = some (.file f)) : d.Free l where
  ne_nil := ne_nil_of_file h
  parent := holding?_dropLast h (ne_nil_of_file h)
  there hdir := by rw [h] at hdir; cases hdir

/-- Every directory of a disk is one of another disk. -/
def DirectoriesKept (d d' : Disk) : Prop :=
  ∀ l, d.holding? l = some .directory → d'.holding? l = some .directory

/-- A disk with more directories than another one, and with the same files. -/
def Grown (d d' : Disk) : Prop :=
  ∀ l, d'.holding? l = d.holding? l ∨ (d.holding? l = none ∧ d'.holding? l = some .directory)

theorem Grown.refl (d : Disk) : d.Grown d := fun _ => .inl rfl

theorem Grown.trans {d'' : Disk} (h : d.Grown d') (h' : d'.Grown d'') : d.Grown d'' := by
  intro l
  rcases h l with hl | ⟨hl, hdir⟩ <;> rcases h' l with hl' | ⟨hl', hdir'⟩
  · exact .inl (hl'.trans hl)
  · exact .inr ⟨hl ▸ hl', hdir'⟩
  · exact .inr ⟨hl, hl'.trans hdir⟩
  · exact .inr ⟨hl, hdir'⟩

theorem Grown.directoriesKept (h : d.Grown d') : d.DirectoriesKept d' := by
  intro l hl
  rcases h l with h | ⟨h, -⟩
  · exact h.trans hl
  · rw [h] at hl; cases hl

theorem Grown.file_iff (h : d.Grown d') :
    d'.holding? l = some (.file f) ↔ d.holding? l = some (.file f) := by
  rcases h l with hl | ⟨hl, hdir⟩
  · rw [hl]
  · rw [hl, hdir]
    constructor <;> intro h <;> cases h

end Disk

end Renumber
