import Renumber.Failure

/-!
# Disks

What a run finds on disk and leaves there: a tree of directories with files as leaves, seen from the
working directory. A location is the list of names that leads to a file or a directory. The entries of
a directory stand in the order of their names, which is that of the bytes of the names, because `put`
keeps it.

Writing at a location changes what is there and nothing beside it (`Disk.get?_put_self`,
`Disk.get?_put_of_diverge`).
-/

namespace Renumber

/-- The bytes of a file and its permissions. -/
structure File where
  bytes : ByteArray
  mode : Nat

/-- A file, or a directory with its entries. -/
inductive Node where
  | file (f : File)
  | directory (entries : List (String × Node))

/-- The names that lead to a node. -/
abbrev Location := List String

namespace Node

/-- The entry of a name. -/
def find? (name : String) : List (String × Node) → Option Node
  | [] => none
  | (n, x) :: rest => if n = name then some x else find? name rest

/-- The entries with another node for a name. A new name goes to its place in the order. -/
def update (name : String) (new : Node) : List (String × Node) → List (String × Node)
  | [] => [(name, new)]
  | (n, x) :: rest =>
    if n = name then (name, new) :: rest
    else if name < n then (name, new) :: (n, x) :: rest
    else (n, x) :: update name new rest

/-- The entries without those of a name. -/
def without (name : String) (entries : List (String × Node)) : List (String × Node) :=
  entries.filter fun e => e.1 ≠ name

/-- The entries of a node; a file has none. -/
def entries : Node → List (String × Node)
  | .file _ => []
  | .directory es => es

/-- The node at a location below a node. -/
def get? : Node → Location → Option Node
  | x, [] => some x
  | x, name :: rest => (find? name x.entries).bind fun y => get? y rest

/-- The node with another one at a location. Directories that lead there are made if there are none; a
file on the way gives way to a directory. -/
def put : Node → Location → Node → Node
  | _, [], new => new
  | x, name :: rest, new =>
    let old := (find? name x.entries).getD (.directory [])
    .directory (update name (put old rest new) x.entries)

/-- The node without what is at a location. -/
def erase : Node → Location → Node
  | _, [] => .directory []
  | x, [name] => .directory (without name x.entries)
  | x, name :: rest =>
    match find? name x.entries with
    | none => x
    | some old => .directory (update name (erase old rest) x.entries)

theorem find?_update (name other : String) (new : Node) (es : List (String × Node)) :
    find? other (update name new es) = if other = name then some new else find? other es := by
  induction es with
  | nil => simp [update, find?, eq_comm]
  | cons e es ih =>
    obtain ⟨n, x⟩ := e
    by_cases h : n = name
    · subst h
      by_cases ho : other = n <;> simp [update, find?, ho, eq_comm]
    · by_cases hl : name < n
      · by_cases ho : other = name
        · subst ho; simp [update, find?, h, hl]
        · simp [update, find?, h, hl, ho, Ne.symm ho]
      · by_cases hn : n = other
        · subst hn; simp [update, find?, h, hl]
        · simp [update, find?, h, hl, hn, ih]

theorem find?_without (name other : String) (es : List (String × Node)) :
    find? other (without name es) = if other = name then none else find? other es := by
  induction es with
  | nil => simp [without, find?]
  | cons e es ih =>
    obtain ⟨n, x⟩ := e
    rw [without] at ih ⊢
    by_cases h : n = name
    · subst h
      by_cases ho : other = n
      · simpa [find?, ho] using ih
      · simpa [find?, ho, Ne.symm ho] using ih
    · by_cases hn : n = other
      · subst hn; simp [find?, h]
      · simp only [List.filter_cons, ne_eq, h, not_false_eq_true, decide_true, if_true, find?, hn,
          if_false]
        exact ih

@[simp] theorem entries_directory (es : List (String × Node)) : (directory es).entries = es := rfl

theorem get?_put_self (x : Node) (l : Location) (new : Node) : (x.put l new).get? l = some new := by
  induction l generalizing x with
  | nil => rfl
  | cons name rest ih => simp [get?, put, find?_update, ih]

/-- Two locations neither of which leads through the other. -/
def Diverge (l m : Location) : Prop := ¬ l <+: m ∧ ¬ m <+: l

theorem get?_put_of_diverge {l m : Location} (h : Diverge l m) (x new : Node) :
    (x.put l new).get? m = x.get? m := by
  induction l generalizing m x with
  | nil => exact absurd List.nil_prefix h.1
  | cons name rest ih =>
    cases m with
    | nil => exact absurd List.nil_prefix h.2
    | cons other m =>
      by_cases ho : other = name
      · subst ho
        have hd : Diverge rest m := by
          simpa [Diverge, List.cons_prefix_cons] using h
        simp only [get?, put, entries_directory, find?_update, if_true, Option.bind_some]
        rw [ih hd]
        cases hf : find? other x.entries with
        | some y => simp
        | none =>
          cases m with
          | nil => exact absurd List.nil_prefix hd.2
          | cons => simp [get?, find?]
      · simp [get?, put, find?_update, ho]

mutual

/-- The files of a node and its empty directories, each with its location, in the order of a walk. -/
def leaves : Node → List (Location × Option File)
  | .file f => [([], some f)]
  | .directory [] => [([], none)]
  | .directory (e :: es) => leavesOf (e :: es)

/-- The files and the empty directories of some entries. -/
def leavesOf : List (String × Node) → List (Location × Option File)
  | [] => []
  | (name, x) :: rest => (leaves x).map (fun (l, f) => (name :: l, f)) ++ leavesOf rest

end

end Node

/-- A disk: the entries of the working directory. -/
structure Disk where
  entries : List (String × Node)

namespace Disk

/-- The working directory. -/
def root (d : Disk) : Node := .directory d.entries

/-- An empty disk. -/
def empty : Disk := ⟨[]⟩

/-- What is at a location. -/
def get? (d : Disk) (l : Location) : Option Node := d.root.get? l

/-- The disk with another node at a location. -/
def put (d : Disk) (l : Location) (new : Node) : Disk := ⟨(d.root.put l new).entries⟩

/-- The disk without what is at a location. -/
def erase (d : Disk) (l : Location) : Disk := ⟨(d.root.erase l).entries⟩

/-- The directory at a location, made if there is none. -/
def putDirectory (d : Disk) (l : Location) : Disk :=
  match d.get? l with
  | some (.directory _) => d
  | _ => d.put l (.directory [])

/-- The files of a disk and its empty directories. -/
def leaves (d : Disk) : List (Location × Option File) := Node.leavesOf d.entries

theorem root_put {d : Disk} {l : Location} (h : l ≠ []) (new : Node) :
    (d.put l new).root = d.root.put l new := by
  cases l with
  | nil => exact absurd rfl h
  | cons => rfl

theorem get?_put_self {d : Disk} {l : Location} (h : l ≠ []) (new : Node) :
    (d.put l new).get? l = some new := by
  rw [get?, root_put h, Node.get?_put_self]

theorem get?_put_of_diverge {d : Disk} {l m : Location} (h : Node.Diverge l m) (new : Node) :
    (d.put l new).get? m = d.get? m := by
  have hl : l ≠ [] := fun e => h.1 (e ▸ List.nil_prefix)
  rw [get?, root_put hl, Node.get?_put_of_diverge h, get?]

end Disk

end Renumber
