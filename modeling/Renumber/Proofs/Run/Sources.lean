import Mathlib
import Renumber.Proofs.Numbering.Patch
import Renumber.Proofs.Run.Settle

/-!
# Which files a run writes over

A run that keeps no copies leaves every file as it was, or with the text of a source whose target
leads to the file (`files_after_run`). Where texts go over their sources, under their own names,
that is the text of the file itself. In the other cases the target of a source may still lead to a
source, as it does below the directory that the source was found in (`source_written_over_aside`).
-/

namespace Renumber

namespace Disk

variable {d d' d'' : Disk} {sent : Location → ByteArray → Prop}

/-- No directory of a disk is gone on another one, and each file is as it was or holds what was sent
to its location. -/
structure Rewritten (d d' : Disk) (sent : Location → ByteArray → Prop) : Prop where
  directories : d.DirectoriesKept d'
  file : ∀ {l f}, d.holding? l = some (.file f) →
    ∃ f', d'.holding? l = some (.file f') ∧ (f'.bytes = f.bytes ∨ sent l f'.bytes)

theorem Rewritten.refl (d : Disk) (sent : Location → ByteArray → Prop) : d.Rewritten d sent :=
  ⟨fun _ => id, fun {_ f} hf => ⟨f, hf, .inl rfl⟩⟩

theorem Rewritten.trans (h : d.Rewritten d' sent) (h' : d'.Rewritten d'' sent) :
    d.Rewritten d'' sent where
  directories m hm := h'.directories m (h.directories m hm)
  file hf := by
    obtain ⟨f', hf', hbytes⟩ := h.file hf
    obtain ⟨f'', hf'', hbytes'⟩ := h'.file hf'
    refine ⟨f'', hf'', hbytes'.elim (fun heq => ?_) .inr⟩
    rwa [heq]

theorem Rewritten.mono {sent' : Location → ByteArray → Prop} (h : d.Rewritten d' sent)
    (himp : ∀ l bytes, sent l bytes → sent' l bytes) : d.Rewritten d' sent' where
  directories := h.directories
  file hf := by
    obtain ⟨f', hf', hbytes⟩ := h.file hf
    exact ⟨f', hf', hbytes.imp_right (himp _ _)⟩

theorem Grown.rewritten (h : d.Grown d') : d.Rewritten d' sent where
  directories := h.directoriesKept
  file hf := ⟨_, h.file_iff.2 hf, .inl rfl⟩

theorem Wrote.rewritten {l : Location} {g : File} (h : d.Wrote d' l g) (hl : sent l g.bytes) :
    d.Rewritten d' sent where
  directories := h.directoriesKept
  file {m f} hf := by
    by_cases hm : m = l
    · exact ⟨g, hm ▸ h.file, .inr (hm ▸ hl)⟩
    · exact ⟨f, (h.file_iff hm).2 hf, .inl rfl⟩

end Disk

namespace Run

variable {o : Output}

/-- A text that numbering made of a source, and that differs from the one before, goes to a
location. -/
def Sent (o : Output) (results : List (Source × Except Failure Outcome)) (l : Location)
    (bytes : ByteArray) : Prop :=
  ∃ s outcome t, (s, .ok outcome) ∈ results ∧ outcome.changed = true ∧ s.target? o = some t ∧
    t.location? = some l ∧ bytes = outcome.output.toUTF8

theorem Sent.mono {results results' : List (Source × Except Failure Outcome)}
    (hsub : results ⊆ results') {l : Location} {bytes : ByteArray} (h : Sent o results l bytes) :
    Sent o results' l bytes := by
  obtain ⟨s, outcome, t, hs, hrest⟩ := h
  exact ⟨s, outcome, t, hsub hs, hrest⟩

/-- One source that is dealt with without a backup. -/
theorem settle_rewritten (hbackup : o.backup = false) (d : Disk)
    (x : Source × Except Failure Outcome) : d.Rewritten (settle o d x) (Sent o [x]) := by
  obtain ⟨s, result⟩ := x
  cases result with
  | error f => exact .refl d _
  | ok outcome =>
    rw [settle]
    split
    · rename_i hchanged
      rcases persist_cases d o s outcome.output with ⟨-, h⟩ | ⟨t, ht, ⟨-, h⟩ | ⟨⟨hb, -⟩, -⟩⟩
      · rw [h]
        exact .refl d _
      · simp only [h]
        rcases write_cases d t outcome.output with hgrown | ⟨l, mode, hl, hwrote⟩
        · exact hgrown.rewritten
        · exact hwrote.rewritten ⟨s, outcome, t, List.mem_singleton_self _, hchanged, ht,
            (Disk.locate_eq_ok hl).1, rfl⟩
      · rw [hbackup] at hb
        cases hb
    · exact .refl d _

theorem foldl_settle_rewritten (hbackup : o.backup = false)
    (results : List (Source × Except Failure Outcome)) (d : Disk) :
    d.Rewritten (results.foldl (settle o) d) (Sent o results) := by
  induction results generalizing d with
  | nil => exact .refl d _
  | cons x results ih =>
    have hx : [x] ⊆ x :: results := by simp
    have hrest : results ⊆ x :: results := List.subset_cons_self x results
    exact ((settle_rewritten hbackup d x).mono fun l bytes => Sent.mono hx).trans
      ((ih _).mono fun l bytes => Sent.mono hrest)

end Run

theorem Source.target?_inPlace {o : Output} (hplace : o.inPlace = true) (hsuffix : o.suffix? = none)
    (s : Source) : s.target? o = some s.path := by
  rw [target?, base?, if_pos hplace, hsuffix]
  rfl

/-- Every file, a source or not, is still there after a run that keeps no copies. It has its old
bytes, or the text of a source whose target leads to it. If texts go over their sources, under their
own names, that source is the file itself. -/
theorem files_after_run {d : Disk} {c : Command} {settings : Settings} {sources : List Source}
    (hsettings : Run.settings d c = .ok settings) (hbackup : settings.backup = false)
    (hsources : discover d c.inputs settings.extensions settings.exclude = .ok sources)
    {p : Path} {f : File} (hf : d.fileOf? p = some f) :
    ∃ f', (run d c).disk.fileOf? p = some f' ∧
      (f'.bytes = f.bytes ∨ ∃ s outcome t,
        (s, .ok outcome) ∈ sources.zip (Run.outcomes d settings sources) ∧
          s.target? settings.output = some t ∧ t.Meet p ∧ f'.bytes = outcome.output.toUTF8) ∧
      (settings.write = true → settings.suffix? = none → f'.bytes = f.bytes ∨ ∃ s outcome,
        (s, .ok outcome) ∈ sources.zip (Run.outcomes d settings sources) ∧
          s.path.Meet p ∧ f'.bytes = outcome.output.toUTF8) := by
  rw [Run.disk_run hsettings hsources]
  obtain ⟨hkept, hfile⟩ := Run.foldl_settle_rewritten (o := settings.output) hbackup
    (sources.zip (Run.outcomes d settings sources)) d
  obtain ⟨l, hl, hhere⟩ := Disk.fileOf?_eq_some_iff.1 hf
  obtain ⟨f', hthere, hbytes⟩ := hfile hhere
  have hp := (Disk.locate_eq_ok hl).1
  refine ⟨f', Disk.fileOf?_of_kept hkept hl hthere, ?_, fun hplace hsuffix => ?_⟩
  · refine hbytes.imp_right fun hsent => ?_
    obtain ⟨s, outcome, t, hs, -, ht, hloc, hout⟩ := hsent
    exact ⟨s, outcome, t, hs, ht, ⟨l, hloc, hp⟩, hout⟩
  · refine hbytes.imp_right fun hsent => ?_
    obtain ⟨s, outcome, t, hs, -, ht, hloc, hout⟩ := hsent
    rw [Source.target?_inPlace hplace hsuffix] at ht
    obtain rfl := Option.some.inj ht
    exact ⟨s, outcome, hs, ⟨l, hloc, hp⟩, hout⟩

/-! ## A source that is written over -/

/-- A disk with one file that has a call without a code. -/
def oneCall : Disk := ⟨[("src", .directory [("a.py", .file ⟨"result.error('x')\n".toUTF8, 0o644⟩)])]⟩

/-- Numbering its text from 101. -/
theorem exists_fixText_oneCall : ∃ outcome, (fixText true "result.error('x')\n" ⟨100⟩).1 = .ok outcome ∧
    outcome.output = "result.error(101, 'x')\n" := by
  have htext : numberedText true "result.error('x')\n" = "result.error('x')\n" := by decide
  have hlex : lex "result.error('x')\n" = Lexeme.sound [⟨.ident, "result"⟩, ⟨.dot, "."⟩, ⟨.ident, "error"⟩,
      ⟨.lParen, "("⟩, ⟨.str, "'x'"⟩, ⟨.rParen, ")"⟩, ⟨.newline, "\n"⟩] := by cbv
  have hpatched : Patched 0 [⟨13, "", "101, "⟩] "result.error('x')\n" "result.error(101, 'x')\n" :=
    ⟨"result.error(", "'x')\n", "'x')\n", by decide, by decide, rfl, rfl⟩
  obtain ⟨outcome, s', hfix, hout⟩ := exists_output_of_lex true ⟨100⟩ htext hlex (by decide +kernel)
    (by decide +kernel) (by decide) hpatched
  exact ⟨outcome, congrArg Prod.fst hfix, hout⟩

/-- Numbering the file from 101, once or several times in one run. -/
theorem exists_outcome : ∃ outcome, outcome.changed = true ∧
    outcome.output = "result.error(101, 'x')\n" ∧
    ∀ settings : Settings, settings.scope = .perFile → settings.seed? = some 100 →
      settings.dedent = true → ∀ sources : List Source, (∀ s ∈ sources, s.path = ⟨"src/a.py"⟩) →
        Run.outcomes oneCall settings sources = sources.map fun _ => .ok outcome := by
  obtain ⟨outcome, hfix, htext⟩ := exists_fixText_oneCall
  refine ⟨outcome, ?_, htext, fun settings hscope hseed hdedent sources hpath => ?_⟩
  · rw [Outcome.changed, Run.before_of_fixText hfix, htext]
    decide
  · have hfile : oneCall.fileOf? ⟨"src/a.py"⟩ =
        some ⟨"result.error('x')\n".toUTF8, 0o644⟩ := rfl
    rw [Run.outcomes_perFile hscope]
    refine List.map_congr_left fun s hs => ?_
    rw [hpath s hs, hdedent, Run.seedOf, hseed, Option.getD_some, Run.fixFile_of_text hfile, hfix]
    rfl

/-- The file is written over with its own text. -/
theorem files_after_run_in_place :
    let c : Command := ⟨[⟨"src"⟩], none, { seed? := some 100 }⟩
    let settings := Settings.default.merge c.overrides
    let sources : List Source := [⟨⟨"src"⟩, ⟨"src/a.py"⟩⟩]
    ∃ f', (run oneCall c).disk.fileOf? ⟨"src/a.py"⟩ = some f' ∧
      (f'.bytes = "result.error('x')\n".toUTF8 ∨ ∃ s outcome t,
        (s, .ok outcome) ∈ sources.zip (Run.outcomes oneCall settings sources) ∧
          s.target? settings.output = some t ∧ t.Meet ⟨"src/a.py"⟩ ∧
          f'.bytes = outcome.output.toUTF8) ∧
      (settings.write = true → settings.suffix? = none →
        f'.bytes = "result.error('x')\n".toUTF8 ∨ ∃ s outcome,
          (s, .ok outcome) ∈ sources.zip (Run.outcomes oneCall settings sources) ∧
            s.path.Meet ⟨"src/a.py"⟩ ∧ f'.bytes = outcome.output.toUTF8) := by
  intro c settings sources
  have hsettings : Run.settings oneCall c = .ok settings := rfl
  have hsources : discover oneCall c.inputs settings.extensions settings.exclude = .ok sources := rfl
  have hfile : oneCall.fileOf? ⟨"src/a.py"⟩ =
      some ⟨"result.error('x')\n".toUTF8, 0o644⟩ := rfl
  exact files_after_run hsettings rfl hsources hfile

/-- Texts that are not to go over their sources, but below the directory of the sources, go over
them all the same. -/
theorem source_written_over_aside :
    let c : Command :=
      ⟨[⟨"src"⟩], none, { seed? := some 100, write? := some false, directory? := some ⟨"src"⟩ }⟩
    let settings := Settings.default.merge c.overrides
    let sources : List Source := [⟨⟨"src"⟩, ⟨"src/a.py"⟩⟩]
    Run.settings oneCall c = .ok settings ∧ settings.backup = false ∧ settings.write = false ∧
      discover oneCall c.inputs settings.extensions settings.exclude = .ok sources ∧
      oneCall.fileOf? ⟨"src/a.py"⟩ = some ⟨"result.error('x')\n".toUTF8, 0o644⟩ ∧
      (run oneCall c).disk.fileOf? ⟨"src/a.py"⟩ =
        some ⟨"result.error(101, 'x')\n".toUTF8, 0o644⟩ := by
  intro c settings sources
  have hsettings : Run.settings oneCall c = .ok settings := rfl
  have hsources : discover oneCall c.inputs settings.extensions settings.exclude = .ok sources := rfl
  have hfile : oneCall.fileOf? ⟨"src/a.py"⟩ =
      some ⟨"result.error('x')\n".toUTF8, 0o644⟩ := rfl
  refine ⟨hsettings, rfl, rfl, hsources, hfile, ?_⟩
  obtain ⟨outcome, hchanged, houtput, houtcomes⟩ := exists_outcome
  have hplace : settings.output = ⟨false, some ⟨"src"⟩, none, false⟩ := rfl
  rw [Run.disk_run hsettings hsources, houtcomes settings rfl rfl rfl sources (by simp [sources]),
    hplace]
  simp only [sources, List.map, List.zip_cons_cons, List.zip_nil_left, List.foldl_cons,
    List.foldl_nil, Run.settle, if_pos hchanged, houtput]
  rfl

end Renumber
