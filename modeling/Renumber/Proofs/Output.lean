import Renumber.Proofs.Discovery
import Renumber.Proofs.Run.Sources
import Renumber.Proofs.Suffix

/-!
# Where texts go

The path of a source that discovery finds ends in what leads to it from its root: names, at least one of
them (`Source.Rooted`, `rooted_of_discover`). So its text goes into the directory of its base path, and
below the directory for outputs if it is not to go over the source (`target_beside_base`), as long as the
suffix of a file name stays in the file name. No check of the settings says that it does: a suffix with a
slash makes directories of its own, and leads out of the one for outputs (`target_astray`).
-/

namespace Renumber

namespace Path

/-- Two paths that differ in nothing but the file name. -/
structure Beside (p q : Path) : Prop where
  parent : p.parent? = q.parent?
  components : ∃ dir n m, p.components = dir ++ [.name n] ∧ q.components = dir ++ [.name m]

/-- A suffix without a slash changes nothing but the file name. -/
theorem beside_suffixed {p : Path} {a : Anchor} {ss : List String} {name suffix : String}
    (h : p.EndsIn a ss name) (hsuffix : '/' ∉ suffix.toList) :
    p.Beside (p.suffixed suffix) ∧ ∃ m, IsName m ∧
      (p.suffixed suffix).components = p.components.dropLast ++ [.name m] := by
  have hm := isName_suffixedName h.fileName? h.name hsuffix
  have hcomponents := h.components_withFileName hm
  refine ⟨⟨(h.parent?_withFileName hm).symm, a.components ++ componentsOf ss, name,
    p.suffixedName suffix, h.components, ?_⟩, p.suffixedName suffix, hm, hcomponents⟩
  rw [suffixed, hcomponents, h.components, List.dropLast_concat]

end Path

/-! ## Sources -/

namespace Source

/-- The path of the source ends in the names that lead to it from its root. -/
structure Rooted (s : Source) (a : Path.Anchor) (ss ns : List String) : Prop where
  parts : s.path.parts = (a, ss ++ ns)
  names : ∀ n ∈ ns, Path.IsName n
  ne_nil : ns ≠ []
  relative : s.relative = .ofParts .bare ns

/-- A file that is asked for by its path is rooted in its directory. -/
theorem rooted_of_file {d : Disk} {p : Path} {f : File} (h : d.follow p = .ok (.file f)) :
    ∃ a ss ns, Rooted ⟨p.parent?.getD ⟨""⟩, p⟩ a ss ns := by
  obtain ⟨l, hl, hf⟩ := Disk.follow_eq_ok_iff.1 h
  obtain ⟨before, name, -, hp, hsegments, hfill, hup, -⟩ :=
    Disk.exists_name_of_file hl (Disk.holding?_eq_file_iff.2 hf)
  have hname : Path.IsName name := ⟨hfill, hup,
    Path.not_mem_of_mem_segments (hsegments ▸ List.mem_append_right _ (List.mem_singleton_self name))⟩
  have hparts : ∃ a ss, p.parts = (a, ss ++ [name]) := by
    rcases Path.parts_cases (Bool.or_eq_false_iff.1 hp).2 with ⟨rest, hrest, hparts⟩ | hparts
    · rw [hsegments] at hrest
      cases before with
      | nil => exact absurd (List.cons.inj hrest).1 hname.ne_dot
      | cons s before => exact ⟨.here, before, by rw [hparts, ← (List.cons.inj hrest).2]; rfl⟩
    · exact ⟨.bare, before, by rw [hparts, hsegments]⟩
  obtain ⟨a, ss, hparts⟩ := hparts
  have hnames : ∀ n ∈ [name], Path.IsName n := by simpa using hname
  refine ⟨a, ss, [name], hparts, hnames, List.cons_ne_nil _ _, ?_⟩
  have hends := Path.endsIn_of_parts hparts hname
  obtain ⟨ws, hws, hdir⟩ := hends.exists_parts_directory
  have hbase : (p.parent?.getD ⟨""⟩).components = a.components ++ Path.componentsOf ss := by
    rw [hends.parent?, Option.getD_some, Path.components, hdir, Path.componentsOf_append,
      Path.componentsOf_fill hws, List.append_nil, Path.componentsOf_trimRight]
  rw [relative, Path.stripBase?_of_parts hparts hbase (List.cons_ne_nil _ _) hnames]
  rfl

/-- A file that is found below a directory is rooted there. -/
theorem rooted_of_walk {es : List (String × Node)} (hes : (Node.directory es).Ordered) {l : Location}
    (hl : l ∈ (Node.directory es).files) (p : Path) :
    ∃ a ss ns, Rooted ⟨p, p.descend l⟩ a ss ns := by
  have hne := Discovery.ne_nil_of_mem_files hes hl
  have hnames := Discovery.isName_of_mem_files hes hl
  obtain ⟨ss, hparts, -⟩ := Path.exists_parts_descend hne hnames p
  exact ⟨p.parts.1, ss, l, hparts, hnames, hne, Path.relative_descend hne hnames p⟩

variable {s : Source} {a : Path.Anchor} {ss ns : List String} (h : s.Rooted a ss ns) {o : Output}
include h

/-- A text that does not go over its source goes to names below the directory for outputs. -/
theorem Rooted.components_base {dir : Path} :
    (dir.join s.relative).components = dir.components ++ ns.map .name := by
  obtain ⟨hsegments, hbare⟩ := Path.bare_of_names h.ne_nil h.names
  rw [h.relative, Path.components_join hbare, hsegments, Path.componentsOf_names h.names]

/-- The base path of a text ends in a name. -/
theorem Rooted.exists_endsIn_base {b : Path} (hb : s.base? o = some b) :
    ∃ a' ss' name, b.EndsIn a' ss' name := by
  obtain ⟨ns', name, hns⟩ := List.eq_nil_or_concat ns |>.resolve_left h.ne_nil
  rw [List.concat_eq_append] at hns
  have hname : Path.IsName name := h.names name (by rw [hns]; simp)
  unfold base? at hb
  split at hb
  · obtain rfl := Option.some.inj hb
    exact ⟨a, ss ++ ns', name,
      Path.endsIn_of_parts (by rw [h.parts, hns, List.append_assoc]) hname⟩
  · obtain ⟨dir, -, rfl⟩ := Option.map_eq_some_iff.1 hb
    obtain ⟨hsegments, hbare⟩ := Path.bare_of_names h.ne_nil h.names
    obtain ⟨ts, -, -, -, hjoin⟩ := Path.exists_parts_join hbare dir
    rw [← h.relative, h.relative, hsegments, hns, ← List.append_assoc] at hjoin
    exact ⟨dir.parts.1, ts ++ ns', name,
      Path.endsIn_of_parts (by rw [h.relative, hns]; exact hjoin) hname⟩

/-- The text of a source goes beside its base path, if the suffix has no slash. -/
theorem Rooted.beside {b t : Path} (hslash : ∀ suffix, o.suffix? = some suffix → '/' ∉ suffix.toList)
    (hb : s.base? o = some b) (ht : s.target? o = some t) :
    b.Beside t ∧ ∃ m, Path.IsName m ∧ t.components = b.components.dropLast ++ [.name m] := by
  obtain ⟨a', ss', name, hends⟩ := h.exists_endsIn_base hb
  rw [target?, hb, Option.map_some] at ht
  cases hsuffix : o.suffix? with
  | none =>
    rw [hsuffix] at ht
    obtain rfl := Option.some.inj ht
    have hown := hends.components
    refine ⟨⟨rfl, _, name, name, hown, hown⟩, name, hends.name, ?_⟩
    rw [hown, List.dropLast_concat]
  | some suffix =>
    rw [hsuffix] at ht
    obtain rfl := Option.some.inj ht
    exact Path.beside_suffixed hends (hslash suffix hsuffix)

end Source

/-- What discovery finds is rooted. -/
theorem rooted_of_discover {d : Disk} (hd : d.root.Ordered) {inputs : List Path}
    {extensions exclude : List String} {sources : List Source}
    (h : discover d inputs extensions exclude = .ok sources) {s : Source} (hs : s ∈ sources) :
    ∃ a ss ns, s.Rooted a ss ns := by
  obtain ⟨patterns, -, h⟩ := Disk.bind_eq_ok_iff.1 h
  obtain ⟨found, hfound, h⟩ := Disk.bind_eq_ok_iff.1 h
  cases h
  obtain ⟨part, hpart, hs⟩ := List.mem_flatten.1 hs
  obtain ⟨input, -, hinput⟩ := exists_of_mem_mapM hfound hpart
  unfold Discovery.ofInput at hinput
  split at hinput
  · rename_i f hf
    cases hinput
    obtain rfl := List.mem_singleton.1 hs
    exact Source.rooted_of_file hf
  · rename_i es hes
    cases hinput
    obtain ⟨l, hl, rfl⟩ := List.mem_map.1 (List.mem_filter.1 hs).1
    exact Source.rooted_of_walk (Disk.ordered_of_follow hd hes) hl input
  · cases hinput

/-- The text of a source that discovery finds goes to the directory of its base path, and only the
file name is another one; a text that is not to go over its source goes to some names below the directory
for outputs. The suffix of a file name has to have no slash. -/
theorem target_beside_base {d : Disk} (hd : d.root.Ordered) {settings : Settings} {inputs : List Path}
    {sources : List Source}
    (hsources : discover d inputs settings.extensions settings.exclude = .ok sources) {s : Source}
    (hs : s ∈ sources) (hslash : ∀ suffix, settings.suffix? = some suffix → '/' ∉ suffix.toList)
    {t : Path} (ht : s.target? settings.output = some t) :
    (∃ b, s.base? settings.output = some b ∧ b.Beside t ∧
      (settings.write = true → b = s.path) ∧
      (settings.write = false → ∃ dir, settings.directory? = some dir ∧ b = dir.join s.relative)) ∧
    (settings.write = false → ∃ dir names, settings.directory? = some dir ∧ names ≠ [] ∧
      (∀ n ∈ names, Path.IsName n) ∧ t.components = dir.components ++ names.map .name) := by
  obtain ⟨a, ss, ns, hrooted⟩ := rooted_of_discover hd hsources hs
  obtain ⟨b, hb, -⟩ := Option.map_eq_some_iff.1 ht
  obtain ⟨hbeside, m, hm, hcomponents⟩ := hrooted.beside hslash hb ht
  have hplace : s.base? settings.output =
      if settings.write then some s.path else settings.directory?.map fun dir => dir.join s.relative :=
    rfl
  rw [hb] at hplace
  cases hwrite : settings.write with
  | true =>
    rw [hwrite] at hplace
    exact ⟨⟨b, hb, hbeside, fun _ => Option.some.inj hplace, by simp⟩, by simp⟩
  | false =>
    rw [hwrite] at hplace
    obtain ⟨dir, hdir, rfl⟩ := Option.map_eq_some_iff.1 hplace.symm
    refine ⟨⟨_, hb, hbeside, by simp, fun _ => ⟨dir, hdir, rfl⟩⟩, fun _ => ?_⟩
    obtain ⟨ns', name, hns⟩ := List.eq_nil_or_concat ns |>.resolve_left hrooted.ne_nil
    rw [List.concat_eq_append] at hns
    refine ⟨dir, ns' ++ [m], hdir, by simp, fun n hn => ?_, ?_⟩
    · rcases List.mem_append.1 hn with hn | hn
      · exact hrooted.names n (by rw [hns]; exact List.mem_append_left _ hn)
      · exact List.mem_singleton.1 hn ▸ hm
    · rw [hcomponents, hrooted.components_base, hns, List.map_append, List.map_singleton,
        ← List.append_assoc, List.dropLast_concat, List.map_append, List.append_assoc]
      rfl

theorem ordered_oneCall : oneCall.root.Ordered := by
  have hsrc : (Node.directory
      [("a.py", .file ⟨"result.error('x')\n".toUTF8, 0o644⟩)]).Ordered :=
    .directory (by decide) (by decide) (by simpa using .file _)
  exact .directory (by decide) (by decide) (by simpa [oneCall] using hsrc)

/-- The text of a file goes below another directory, with another file name. -/
theorem target_beside_base_suffixed :
    let settings := Settings.default.merge
      { write? := some false, directory? := some ⟨"out"⟩, suffix? := some "new" }
    let s : Source := ⟨⟨"src"⟩, ⟨"src/a.py"⟩⟩
    let t : Path := ⟨"out/a_new.py"⟩
    discover oneCall [⟨"src"⟩] settings.extensions settings.exclude = .ok [s] ∧
      s.target? settings.output = some t ∧
      (∃ b, s.base? settings.output = some b ∧ b.Beside t ∧
        (settings.write = true → b = s.path) ∧
        (settings.write = false → ∃ dir, settings.directory? = some dir ∧ b = dir.join s.relative)) ∧
      (settings.write = false → ∃ dir names, settings.directory? = some dir ∧ names ≠ [] ∧
        (∀ n ∈ names, Path.IsName n) ∧ t.components = dir.components ++ names.map .name) := by
  intro settings s t
  have hsources : discover oneCall [⟨"src"⟩] settings.extensions settings.exclude = .ok [s] := rfl
  have ht : s.target? settings.output = some t := by decide
  exact ⟨hsources, ht, target_beside_base ordered_oneCall hsources (List.mem_singleton_self s)
    (fun suffix hsuffix => Option.some.inj hsuffix ▸ by decide) ht⟩

theorem fileOf?_persist_astray :
    (Run.persist oneCall ⟨false, some ⟨"out"⟩, some "x/../../b", false⟩ ⟨⟨"src"⟩, ⟨"src/a.py"⟩⟩
      "result.error(101, 'x')\n").1.fileOf? ⟨"b.py"⟩ =
        some ⟨"result.error(101, 'x')\n".toUTF8, Disk.newMode⟩ := by
  have hparts : ((Run.persist oneCall ⟨false, some ⟨"out"⟩, some "x/../../b", false⟩
      ⟨⟨"src"⟩, ⟨"src/a.py"⟩⟩ "result.error(101, 'x')\n").1.fileOf? ⟨"b.py"⟩).map
        (fun f => (f.bytes.data.toList, f.mode)) =
      some ("result.error(101, 'x')\n".toUTF8.data.toList, Disk.newMode) := by
    decide +kernel
  obtain ⟨⟨bytes, mode⟩, hf, heq⟩ := Option.map_eq_some_iff.1 hparts
  obtain ⟨hbytes, hmode⟩ := Prod.mk.inj heq
  rw [hf, show bytes = _ from ByteArray.ext (Array.toList_inj.1 hbytes), show mode = _ from hmode]

/-- A suffix that every check lets through takes a text out of the directory for outputs, to where a
file of the working directory may be. -/
theorem target_astray :
    let c : Command := ⟨[⟨"src"⟩], none,
      { seed? := some 100, write? := some false, directory? := some ⟨"out"⟩,
        suffix? := some "x/../../b" }⟩
    let settings := Settings.default.merge c.overrides
    let s : Source := ⟨⟨"src"⟩, ⟨"src/a.py"⟩⟩
    let b : Path := ⟨"out/a.py"⟩
    let t : Path := ⟨"out/a_x/../../b.py"⟩
    Run.settings oneCall c = .ok settings ∧
      discover oneCall c.inputs settings.extensions settings.exclude = .ok [s] ∧
      s.base? settings.output = some b ∧ s.target? settings.output = some t ∧ ¬ b.Beside t ∧
      t.components = [.name "out", .name "a_x", .up, .up, .name "b.py"] ∧
      (run oneCall c).disk.fileOf? ⟨"b.py"⟩ =
        some ⟨"result.error(101, 'x')\n".toUTF8, Disk.newMode⟩ := by
  intro c settings s b t
  have hsettings : Run.settings oneCall c = .ok settings := rfl
  have hsources : discover oneCall c.inputs settings.extensions settings.exclude = .ok [s] := rfl
  have hparents : b.parent? ≠ t.parent? := by decide
  refine ⟨hsettings, hsources, by decide, by decide, fun h => hparents h.parent, by decide, ?_⟩
  obtain ⟨outcome, hchanged, houtput, houtcomes⟩ := exists_outcome
  have hplace : settings.output = ⟨false, some ⟨"out"⟩, some "x/../../b", false⟩ := rfl
  rw [Run.disk_run hsettings hsources, houtcomes settings rfl rfl rfl [s] (by simp [s]), hplace]
  show (Run.settle _ oneCall (s, .ok outcome)).fileOf? _ = _
  rw [Run.settle, if_pos hchanged, houtput]
  exact fileOf?_persist_astray

end Renumber
