import Renumber.Proofs.Bytes
import Renumber.Proofs.Disk.Walk

/-!
# What inputs stand for

On a disk in order, the sources found for some inputs are those of the first input, then those of the
next one, and so on (`discover_inputs`). A file stands for itself. A directory stands for the files below
it, at whatever depth, that have one of the extensions and that no pattern stands for, as seen from the
directory or with their full paths; they come in the order of the components of their paths, compared as
bytes. The first input that leads nowhere is what is told.
-/

namespace Renumber

namespace Path

/-- A component as bytes. -/
def Component.bytes : Component → List UInt8
  | .root => Text.bytesOf "/"
  | .here => Text.bytesOf "."
  | .up => Text.bytesOf ".."
  | .name s => Text.bytesOf s

/-- What paths are put in order by: their components as bytes. -/
def sortKey (p : Path) : List (List UInt8) := p.components.map Component.bytes

/-! ## The path of a location below another path -/

section
variable {l : Location} (hne : l ≠ []) (hl : ∀ name ∈ l, IsName name) (p : Path)
include hne hl

theorem descend_eq_join : p.descend l = p.join (ofParts .bare l) := by
  induction l generalizing p with
  | nil => exact absurd rfl hne
  | cons name l ih =>
    have hname := hl name List.mem_cons_self
    cases l with
    | nil => rw [ofParts, String.intercalate_singleton]; rfl
    | cons other l =>
      have hrest : ∀ n ∈ other :: l, IsName n := fun n hn => hl n (List.mem_cons_of_mem _ hn)
      rw [← join_join_names hname (List.cons_ne_nil _ _) hrest p]
      exact ih (List.cons_ne_nil _ _) hrest (p.join ⟨name⟩)

theorem bare_of_names : (ofParts .bare l).segments = l ∧
    (ofParts .bare l).parts = (.bare, (ofParts .bare l).segments) := by
  have hsegments := segments_ofParts_bare hne fun s hs => (hl s hs).no_slash
  exact ⟨hsegments, by rw [hsegments]; exact parts_names hne hl⟩

/-- The anchor of a path stays, and the names come behind its segments. -/
theorem exists_parts_descend : ∃ ss, (p.descend l).parts = (p.parts.1, ss ++ l) ∧
    p.components = p.parts.1.components ++ componentsOf ss := by
  obtain ⟨hsegments, hbare⟩ := bare_of_names hne hl
  obtain ⟨ss, ws, hws, hp, hjoin⟩ := exists_parts_join hbare p
  rw [hsegments] at hjoin
  refine ⟨ss, by rw [descend_eq_join hne hl, hjoin], ?_⟩
  rw [components, congrArg Prod.snd hp, componentsOf_append, componentsOf_fill hws, List.append_nil]

theorem components_descend : (p.descend l).components = p.components ++ l.map .name := by
  obtain ⟨hsegments, hbare⟩ := bare_of_names hne hl
  rw [descend_eq_join hne hl, components_join hbare, hsegments, componentsOf_names hl]

/-- Seen from where the walk began, a path is that of the location. -/
theorem relative_descend : (⟨p, p.descend l⟩ : Source).relative = ofParts .bare l := by
  obtain ⟨ss, hparts, hcomponents⟩ := exists_parts_descend hne hl p
  rw [Source.relative, stripBase?_of_parts hparts hcomponents hne hl]
  rfl

theorem sortKey_descend : (p.descend l).sortKey = p.sortKey ++ l.map Text.bytesOf := by
  rw [sortKey, components_descend hne hl, List.map_append, List.map_map]
  rfl

end

theorem map_bytesOf_lt {l m : Location} (h : l < m) : l.map Text.bytesOf < m.map Text.bytesOf := by
  induction l generalizing m with
  | nil =>
    cases m with
    | nil => exact absurd h (List.not_lt_nil _)
    | cons name m => exact List.nil_lt_cons _ _
  | cons name l ih =>
    cases m with
    | nil => exact absurd h (List.not_lt_nil _)
    | cons other m =>
      rcases List.cons_lt_cons_iff.1 h with hlt | ⟨rfl, hlt⟩
      · exact List.cons_lt_cons_iff.2 (.inl (Text.bytesOf_lt hlt))
      · exact List.cons_lt_cons_iff.2 (.inr ⟨rfl, ih hlt⟩)

end Path

/-! ## One input -/

namespace Discovery

variable {d : Disk} {extensions : List String} {patterns : List Glob} {input : Path}

/-- A walk of a directory wants a file for its extension, and no pattern stands for it. -/
structure Wanted (extensions : List String) (patterns : List Glob) (l : Location) (p : Path) : Prop where
  extension : ∃ e ∈ extensions, p.extension? = some e
  spared : ∀ g ∈ patterns, g.matchesPath ⟨"/".intercalate l⟩ = false ∧ g.matchesPath p = false

/-- The sources are those that an input stands for: the input, if it is a file, or the wanted ones among
the files below it, in the order of their components. -/
def Stands (d : Disk) (extensions : List String) (patterns : List Glob) (input : Path)
    (found : List Source) : Prop :=
  match d.follow input with
  | .ok (.file _) => found = [⟨input.parent?.getD ⟨""⟩, input⟩]
  | .ok (.directory es) =>
    (∀ s, s ∈ found ↔ s.root = input ∧ ∃ l f, (Node.directory es).get? l = some (.file f) ∧
      s.path = input.descend l ∧ s.path.components = input.components ++ l.map .name ∧
      Wanted extensions patterns l s.path) ∧
    found.Pairwise fun s s' => s.path.sortKey < s'.path.sortKey
  | .error _ => False

theorem hasExtension_iff {p : Path} :
    hasExtension extensions p = true ↔ ∃ e ∈ extensions, p.extension? = some e := by
  unfold hasExtension
  cases p.extension? with
  | none => simp
  | some e =>
    constructor
    · intro h
      exact ⟨e, List.contains_iff_mem.1 h, rfl⟩
    · rintro ⟨e', he', heq⟩
      exact List.contains_iff_mem.2 (Option.some.inj heq ▸ he')

/-- What keeps a file of a walk says of its location what a walk wants. -/
theorem kept_iff {l : Location} (hne : l ≠ []) (hl : ∀ name ∈ l, Path.IsName name) :
    (hasExtension extensions (input.descend l) &&
      !isExcluded patterns ⟨input, input.descend l⟩) = true ↔
      Wanted extensions patterns l (input.descend l) := by
  have hspared : isExcluded patterns ⟨input, input.descend l⟩ = false ↔
      ∀ g ∈ patterns, g.matchesPath ⟨"/".intercalate l⟩ = false ∧
        g.matchesPath (input.descend l) = false := by
    rw [isExcluded, Path.relative_descend hne hl, List.any_eq_false]
    refine forall₂_congr fun g _ => ?_
    rw [Bool.not_eq_true, Bool.or_eq_false_iff]
    rfl
  rw [Bool.and_eq_true, Bool.not_eq_true', hasExtension_iff, hspared]
  exact ⟨fun ⟨hextension, hpatterns⟩ => ⟨hextension, hpatterns⟩,
    fun h => ⟨h.extension, h.spared⟩⟩

section
variable {es : List (String × Node)} (hes : (Node.directory es).Ordered)
include hes

/-- A file below a directory is not the directory. -/
theorem ne_nil_of_mem_files {l : Location} (h : l ∈ (Node.directory es).files) : l ≠ [] := by
  rintro rfl
  obtain ⟨f, hf⟩ := hes.mem_files.1 h
  cases hf

theorem isName_of_mem_files {l : Location} (h : l ∈ (Node.directory es).files) :
    ∀ name ∈ l, Path.IsName name := by
  obtain ⟨f, hf⟩ := hes.mem_files.1 h
  exact hes.isName_of_get? hf

/-- The sources that the walk of a directory finds, before any is left out. -/
theorem pairwise_walk : ((Node.directory es).files.map fun l =>
    (⟨input, input.descend l⟩ : Source)).Pairwise fun s s' => s.path.sortKey < s'.path.sortKey := by
  rw [List.pairwise_map]
  refine hes.pairwise_files.imp_of_mem fun {l m} hl hm hlt => ?_
  rw [Path.sortKey_descend (ne_nil_of_mem_files hes hl) (isName_of_mem_files hes hl),
    Path.sortKey_descend (ne_nil_of_mem_files hes hm) (isName_of_mem_files hes hm)]
  exact List.append_left_lt (Path.map_bytesOf_lt hlt)

theorem mem_walk_iff {s : Source} :
    s ∈ (((Node.directory es).files.map fun l => (⟨input, input.descend l⟩ : Source)).filter fun s =>
        hasExtension extensions s.path && !isExcluded patterns s) ↔
      s.root = input ∧ ∃ l f, (Node.directory es).get? l = some (.file f) ∧
        s.path = input.descend l ∧ s.path.components = input.components ++ l.map .name ∧
        Wanted extensions patterns l s.path := by
  rw [List.mem_filter, List.mem_map]
  constructor
  · rintro ⟨⟨l, hl, rfl⟩, hkept⟩
    obtain ⟨f, hf⟩ := hes.mem_files.1 hl
    have hne := ne_nil_of_mem_files hes hl
    have hnames := isName_of_mem_files hes hl
    exact ⟨rfl, l, f, hf, rfl, Path.components_descend hne hnames input, (kept_iff hne hnames).1 hkept⟩
  · rintro ⟨hroot, l, f, hf, hpath, -, hwanted⟩
    have hl := hes.mem_files.2 ⟨f, hf⟩
    obtain ⟨root, path⟩ := s
    obtain rfl : root = input := hroot
    obtain rfl : path = root.descend l := hpath
    exact ⟨⟨l, hl, rfl⟩,
      (kept_iff (ne_nil_of_mem_files hes hl) (isName_of_mem_files hes hl)).2 hwanted⟩

end

/-- An input that leads somewhere has its sources. -/
theorem exists_stands (hd : d.root.Ordered) (h : d.reaches input = true) :
    ∃ found, ofInput d extensions patterns input = .ok found ∧
      Stands d extensions patterns input found := by
  unfold Disk.reaches at h
  cases hfollow : d.follow input with
  | error e =>
    rw [hfollow] at h
    cases h
  | ok x =>
    cases x with
    | file f =>
      refine ⟨[⟨input.parent?.getD ⟨""⟩, input⟩], ?_, ?_⟩
      · rw [ofInput, hfollow]
      · rw [Stands, hfollow]
    | directory es =>
      have hes := Disk.ordered_of_follow hd hfollow
      refine ⟨((Node.directory es).files.map fun l => (⟨input, input.descend l⟩ : Source)).filter
        fun s => hasExtension extensions s.path && !isExcluded patterns s, ?_, ?_⟩
      · rw [ofInput, hfollow]
      · rw [Stands, hfollow]
        exact ⟨fun s => mem_walk_iff hes, (pairwise_walk hes).filter _⟩

theorem ofInput_of_not_reaches (h : d.reaches input = false) :
    ofInput d extensions patterns input =
      .error (.input input "path does not exist or is not a file or directory") := by
  unfold Disk.reaches at h
  rw [ofInput]
  cases hfollow : d.follow input with
  | error e => rfl
  | ok x =>
    rw [hfollow] at h
    cases h

end Discovery

/-! ## Several inputs -/

theorem exists_mapM_forall₂ {ε α β : Type} {f : α → Except ε β} {r : α → β → Prop} {xs : List α}
    (h : ∀ x ∈ xs, ∃ y, f x = .ok y ∧ r x y) :
    ∃ ys, xs.mapM f = .ok ys ∧ List.Forall₂ r xs ys := by
  induction xs with
  | nil => exact ⟨[], rfl, .nil⟩
  | cons x xs ih =>
    obtain ⟨y, hy, hxy⟩ := h x List.mem_cons_self
    obtain ⟨ys, hys, hall⟩ := ih fun x hx => h x (List.mem_cons_of_mem _ hx)
    exact ⟨y :: ys, by rw [List.mapM_cons, hy, hys]; rfl, .cons hxy hall⟩

theorem exists_of_mem_mapM {ε α β : Type} {f : α → Except ε β} {xs : List α} {ys : List β} {y : β}
    (h : xs.mapM f = .ok ys) (hy : y ∈ ys) : ∃ x ∈ xs, f x = .ok y := by
  induction xs generalizing ys with
  | nil =>
    cases h
    cases hy
  | cons x xs ih =>
    rw [List.mapM_cons, Disk.bind_eq_ok_iff] at h
    obtain ⟨z, hz, h⟩ := h
    obtain ⟨zs, hzs, h⟩ := Disk.bind_eq_ok_iff.1 h
    cases h
    rcases List.mem_cons.1 hy with rfl | hy
    · exact ⟨x, List.mem_cons_self, hz⟩
    · obtain ⟨x', hx', heq⟩ := ih hzs hy
      exact ⟨x', List.mem_cons_of_mem _ hx', heq⟩

theorem mapM_eq_error {ε α β : Type} {f : α → Except ε β} {before after : List α} {x : α} {e : ε}
    (hbefore : ∀ y ∈ before, ∃ z, f y = .ok z) (hx : f x = .error e) :
    (before ++ x :: after).mapM f = .error e := by
  induction before with
  | nil => rw [List.nil_append, List.mapM_cons, hx]; rfl
  | cons y before ih =>
    obtain ⟨z, hz⟩ := hbefore y List.mem_cons_self
    rw [List.cons_append, List.mapM_cons, hz, ih fun y hy => hbefore y (List.mem_cons_of_mem _ hy)]
    rfl

/-- On a disk in order, some inputs that all lead somewhere stand for what each of them stands for,
one after the other. If there are some that lead nowhere, the first of them is told. -/
theorem discover_inputs {d : Disk} (hd : d.root.Ordered) {exclude : List String}
    {patterns : List Glob} (hpatterns : Glob.parseAll exclude = .ok patterns)
    (inputs : List Path) (extensions : List String) :
    ((∀ p ∈ inputs, d.reaches p = true) → ∃ found,
      discover d inputs extensions exclude = .ok found.flatten ∧
        List.Forall₂ (Discovery.Stands d extensions patterns) inputs found) ∧
    ∀ before p after, inputs = before ++ p :: after → (∀ q ∈ before, d.reaches q = true) →
      d.reaches p = false → discover d inputs extensions exclude =
        .error (.input p "path does not exist or is not a file or directory") := by
  refine ⟨fun hreaches => ?_, ?_⟩
  · obtain ⟨found, hfound, hstands⟩ :=
      exists_mapM_forall₂ fun p hp => Discovery.exists_stands hd (hreaches p hp)
    refine ⟨found, ?_, hstands⟩
    rw [discover, hpatterns]
    exact congrArg (Except.map List.flatten) hfound
  · rintro before p after rfl hbefore hp
    have hall (q : Path) (hq : q ∈ before) :
        ∃ found, Discovery.ofInput d extensions patterns q = .ok found := by
      obtain ⟨found, hfound, -⟩ := Discovery.exists_stands hd (hbefore q hq)
      exact ⟨found, hfound⟩
    have hmap : (before ++ p :: after).mapM (Discovery.ofInput d extensions patterns) =
        .error (.input p "path does not exist or is not a file or directory") :=
      mapM_eq_error hall (Discovery.ofInput_of_not_reaches hp)
    rw [discover, hpatterns]
    exact congrArg (Except.map List.flatten) hmap

/-- A disk on which a directory stands before a file whose name its own begins. -/
def nestedSources : Disk :=
  let file : Node := .file ⟨.empty, Disk.newMode⟩
  ⟨[("src", .directory [("a.py", file), ("b", .directory [("a.py", file), ("z.py", file)]),
    ("b.py", file), ("notes.txt", file), ("old", .directory [("c.py", file)])])]⟩

theorem ordered_nestedSources : nestedSources.root.Ordered := by
  have hfile : (Node.file ⟨.empty, Disk.newMode⟩).Ordered := .file _
  have hinner : (Node.directory [("a.py", .file ⟨.empty, Disk.newMode⟩),
      ("z.py", .file ⟨.empty, Disk.newMode⟩)]).Ordered :=
    .directory (by decide) (by decide) (by simpa using hfile)
  have hold : (Node.directory [("c.py", .file ⟨.empty, Disk.newMode⟩)]).Ordered :=
    .directory (by decide) (by decide) (by simpa using hfile)
  have hsrc : (Node.directory [("a.py", .file ⟨.empty, Disk.newMode⟩),
      ("b", .directory [("a.py", .file ⟨.empty, Disk.newMode⟩),
        ("z.py", .file ⟨.empty, Disk.newMode⟩)]),
      ("b.py", .file ⟨.empty, Disk.newMode⟩), ("notes.txt", .file ⟨.empty, Disk.newMode⟩),
      ("old", .directory [("c.py", .file ⟨.empty, Disk.newMode⟩)])]).Ordered :=
    .directory (by decide) (by decide) (by simp [hfile, hinner, hold])
  exact .directory (by decide) (by decide) (by simpa [nestedSources] using hsrc)

/-- A directory, one of its files that it would not stand for itself, and a path that leads
nowhere. -/
theorem discover_inputs_mixed :
    let patterns : List Glob :=
      [[.anyComponents, .char 'o', .char 'l', .char 'd', .char '/', .anyComponents]]
    nestedSources.root.Ordered ∧ Glob.parseAll ["**/old/**"] = .ok patterns ∧
      (∃ found, discover nestedSources [⟨"src"⟩, ⟨"src/notes.txt"⟩] ["py"] ["**/old/**"] =
          .ok found.flatten ∧
        List.Forall₂ (Discovery.Stands nestedSources ["py"] patterns) [⟨"src"⟩, ⟨"src/notes.txt"⟩]
          found ∧
        found.flatten.map (fun s => s.path.text) =
          ["src/a.py", "src/b/a.py", "src/b/z.py", "src/b.py", "src/notes.txt"]) ∧
      discover nestedSources [⟨"src"⟩, ⟨"lost"⟩, ⟨"gone"⟩] ["py"] ["**/old/**"] =
        .error (.input ⟨"lost"⟩ "path does not exist or is not a file or directory") := by
  intro patterns
  have hpatterns : Glob.parseAll ["**/old/**"] = .ok patterns := by decide +kernel
  refine ⟨ordered_nestedSources, hpatterns, ?_, ?_⟩
  · obtain ⟨found, hfound, hstands⟩ := (discover_inputs ordered_nestedSources hpatterns
      [⟨"src"⟩, ⟨"src/notes.txt"⟩] ["py"]).1 (by decide)
    refine ⟨found, hfound, hstands, ?_⟩
    have hpaths : (discover nestedSources [⟨"src"⟩, ⟨"src/notes.txt"⟩] ["py"] ["**/old/**"]).map
        (List.map fun s => s.path.text) =
        .ok ["src/a.py", "src/b/a.py", "src/b/z.py", "src/b.py", "src/notes.txt"] := by
      decide +kernel
    rw [hfound] at hpaths
    exact Except.ok.inj hpaths
  · exact (discover_inputs ordered_nestedSources hpatterns [⟨"src"⟩, ⟨"lost"⟩, ⟨"gone"⟩] ["py"]).2
      [⟨"src"⟩] ⟨"lost"⟩ [⟨"gone"⟩] rfl (by decide) (by decide)

end Renumber
