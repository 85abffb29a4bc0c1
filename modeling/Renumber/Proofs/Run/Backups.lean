import Renumber.Proofs.Disk.Backup
import Renumber.Proofs.Run.Sources

/-!
# What the backups of a run hold

Where a run keeps copies, a source that is written over is found as it was in its backup, if the
inputs lead to each source once and to no backup of another one (`backups_hold_originals`). Then
nothing that is done for another source touches the source or its backup (`Run.ne_of_touches`). If
the inputs lead to a source twice, its second backup is made of a text that the run wrote
(`backup_of_source_named_twice`).
-/

namespace Renumber

namespace Run

/-- A file that was a source is as it was, or it holds the numbered text and its backup holds what
was there. -/
def Safe (d : Disk) (s : Source) (f : File) (result : Except Failure Outcome) : Prop :=
  d.fileOf? s.path = some f ∨ ∃ outcome f', result = .ok outcome ∧ d.fileOf? s.path = some f' ∧
    f'.bytes = outcome.output.toUTF8 ∧ d.fileOf? s.path.backup = some f

theorem Safe.of_spares {d d' : Disk} {s : Source} {f : File} {result : Except Failure Outcome}
    (h : Safe d s f result)
    (hspares : d.Spares d' fun m => s.path.location? ≠ some m ∧ s.path.backup.location? ≠ some m) :
    Safe d' s f result := by
  rcases h with hstays | ⟨outcome, f', hresult, hfile, hbytes, hbak⟩
  · exact .inl (hspares.fileOf? (fun m hm ht => ht.1 hm) hstays)
  · exact .inr ⟨outcome, f', hresult, hspares.fileOf? (fun m hm ht => ht.1 hm) hfile, hbytes,
      hspares.fileOf? (fun m hm ht => ht.2 hm) hbak⟩

/-- A source is written over only when its backup is there. -/
theorem safe_write {d : Disk} {s : Source} {f : File} (hs : d.fileOf? s.path = some f)
    (hbak : d.fileOf? s.path.backup = some f) (outcome : Outcome) :
    Safe (d.write s.path outcome.output).1 s f (.ok outcome) := by
  rcases write_cases d s.path outcome.output with hgrown | ⟨l, mode, hl, hwrote⟩
  · have hspares : d.Spares (d.write s.path outcome.output).1 fun _ => False := hgrown.spares
    exact .inl (hspares.fileOf? (fun _ _ => id) hs)
  · have hspares : d.Spares (d.write s.path outcome.output).1 (· = l) := hwrote.spares rfl
    have hkept := hspares.fileOf? (fun m hm hml =>
      Disk.not_meet_backup hs ⟨m, hml ▸ (Disk.locate_eq_ok hl).1, hm⟩) hbak
    exact .inr ⟨outcome, _, rfl, Disk.fileOf?_eq_some_iff.2 ⟨l, hl, hwrote.file⟩, rfl, hkept⟩

section
variable {d : Disk} {o : Output} {s : Source} {f : File}
  (hplace : o.inPlace = true) (hsuffix : o.suffix? = none)
include hplace hsuffix

/-- Dealing with a source in its place touches neither another source nor its backup. -/
theorem ne_of_touches {y : Source} {g : File} (hs : d.fileOf? s.path = some f)
    (hy : d.fileOf? y.path = some g) (hother : ¬ s.path.Meet y.path)
    (hsbak : ¬ s.path.Meet y.path.backup) (hybak : ¬ y.path.Meet s.path.backup) {m : Location}
    (hm : Touches o y m) : s.path.location? ≠ some m ∧ s.path.backup.location? ≠ some m := by
  rcases hm with ⟨t, ht, hm⟩ | ⟨-, hm⟩
  · rw [Source.target?_inPlace hplace hsuffix] at ht
    obtain rfl := Option.some.inj ht
    exact ⟨fun h => hother ⟨m, h, hm⟩, fun h => hybak ⟨m, hm, h⟩⟩
  · exact ⟨fun h => hsbak ⟨m, h, hm⟩, fun h => hother (Disk.meet_of_backup hs hy ⟨m, h, hm⟩)⟩

/-- A source that is dealt with stays as it is, or its backup holds it. -/
theorem settle_backup (hbackup : o.backup = true) (hs : d.fileOf? s.path = some f)
    (result : Except Failure Outcome) : Safe (settle o d (s, result)) s f result := by
  cases result with
  | error e => exact .inl hs
  | ok outcome =>
    rw [settle]
    split
    · have htarget := Source.target?_inPlace hplace hsuffix s
      rcases persist_cases d o s outcome.output with ⟨hnone, -⟩ | ⟨t, ht, hrest⟩
      · rw [htarget] at hnone
        cases hnone
      · obtain rfl := Option.some.inj (htarget.symm.trans ht)
        rcases hrest with ⟨hne, -⟩ | ⟨-, ⟨d₁, e, hback, h⟩ | ⟨d₁, q, hback, h⟩⟩
        · exact absurd rfl (hne hbackup)
        · rw [h]
          exact .inl (Disk.fileOf?_of_backUp_error hs hback)
        · simp only [h]
          obtain ⟨hstays, hbak⟩ := Disk.fileOf?_of_backUp_ok hs hback
          exact safe_write hstays hbak outcome
    · exact .inl hs

/-- Among sources that are apart from each other and from each other's backups, each one stays as it
is, or its backup holds it. -/
theorem foldl_settle_backup (hbackup : o.backup = true)
    {results : List (Source × Except Failure Outcome)}
    (hfiles : ∀ y outcome, (y, .ok outcome) ∈ results → ∃ g, d.fileOf? y.path = some g)
    (hapart : ∀ x ∈ results, ∀ y ∈ results, ¬ x.1.path.Meet y.1.path.backup)
    (honce : results.Pairwise fun x y => ¬ x.1.path.Meet y.1.path)
    {result : Except Failure Outcome} (hmem : (s, result) ∈ results)
    (hs : d.fileOf? s.path = some f) : Safe (results.foldl (settle o) d) s f result := by
  obtain ⟨before, after, rfl⟩ := List.append_of_mem hmem
  rw [List.pairwise_append, List.pairwise_cons] at honce
  obtain ⟨-, ⟨hafter, -⟩, hbefore⟩ := honce
  -- Nothing that is done before or after for the others reaches the source or its backup.
  have hothers {part : List (Source × Except Failure Outcome)}
      (hsub : part ⊆ before ++ (s, result) :: after)
      (hpart : ∀ y ∈ part, ¬ s.path.Meet y.1.path) (d' : Disk) :
      d'.Spares (part.foldl (settle o) d') fun m =>
        s.path.location? ≠ some m ∧ s.path.backup.location? ≠ some m := by
    refine foldl_settle_spares (fun y outcome hy m hm => ?_) d'
    obtain ⟨g, hg⟩ := hfiles y outcome (hsub hy)
    exact ne_of_touches hplace hsuffix hs hg (hpart _ hy) (hapart _ hmem _ (hsub hy))
      (hapart _ (hsub hy) _ hmem) hm
  rw [List.foldl_append, List.foldl_cons]
  have hfirst := (hothers (by simp) (fun y hy ⟨l, hl, hyl⟩ =>
    hbefore y hy _ List.mem_cons_self ⟨l, hyl, hl⟩) d).fileOf? (fun m hm h => h.1 hm) hs
  exact (settle_backup hplace hsuffix hbackup hfirst result).of_spares (hothers (by simp) hafter _)

end

end Run

/-- A run that writes over its sources and keeps copies leaves each of them as it was, or it has its
numbered text and its backup holds it, if no source is found twice and none is the backup of
another. -/
theorem backups_hold_originals {d : Disk} {c : Command} {settings : Settings} {sources : List Source}
    (hsettings : Run.settings d c = .ok settings) (hplace : settings.write = true)
    (hsuffix : settings.suffix? = none) (hbackup : settings.backup = true)
    (hsources : discover d c.inputs settings.extensions settings.exclude = .ok sources)
    (hapart : ∀ x ∈ sources, ∀ y ∈ sources, ¬ x.path.Meet y.path.backup)
    (honce : sources.Pairwise fun x y => ¬ x.path.Meet y.path)
    {s : Source} (hs : s ∈ sources) {f : File} (hf : d.fileOf? s.path = some f) :
    (run d c).disk.fileOf? s.path = some f ∨ ∃ outcome f',
      (s, .ok outcome) ∈ sources.zip (Run.outcomes d settings sources) ∧
        (run d c).disk.fileOf? s.path = some f' ∧ f'.bytes = outcome.output.toUTF8 ∧
        (run d c).disk.fileOf? s.path.backup = some f := by
  have hfst : (sources.zip (Run.outcomes d settings sources)).map Prod.fst = sources :=
    List.map_fst_zip (Nat.le_of_eq (Run.length_outcomes d settings sources).symm)
  have hmem {x : Source × Except Failure Outcome}
      (hx : x ∈ sources.zip (Run.outcomes d settings sources)) : x.1 ∈ sources :=
    (List.of_mem_zip hx).1
  rw [← hfst] at hs honce
  obtain ⟨⟨s, result⟩, hresult, rfl⟩ := List.mem_map.1 hs
  rw [Run.disk_run hsettings hsources]
  have hsafe := Run.foldl_settle_backup (o := settings.output) hplace hsuffix hbackup
    (fun y outcome hy => Run.exists_file_of_outcome hy)
    (fun x hx y hy => hapart _ (hmem hx) _ (hmem hy)) (List.pairwise_map.1 honce) hresult hf
  refine hsafe.imp_right fun hbacked => ?_
  obtain ⟨outcome, f', rfl, hfile⟩ := hbacked
  exact ⟨outcome, f', hresult, hfile⟩

/-! ## A source that is found twice -/

theorem not_meet_backup_oneCall :
    ¬ (⟨"src/a.py"⟩ : Path).Meet (⟨"src/a.py"⟩ : Path).backup := by
  have hfile : oneCall.fileOf? ⟨"src/a.py"⟩ = some ⟨"result.error('x')\n".toUTF8, 0o644⟩ := rfl
  exact Disk.not_meet_backup hfile

/-- A disk with one file that is numbered and a backup of another text. -/
def backedUp (before : String) : Disk := ⟨[("src", .directory [
  ("a.py", .file ⟨"result.error(101, 'x')\n".toUTF8, 0o644⟩),
  ("a.py.bak", .file ⟨before.toUTF8, 0o644⟩)])]⟩

theorem fileOf?_backedUp (before : String) :
    (backedUp before).fileOf? ⟨"src/a.py"⟩ = some ⟨"result.error(101, 'x')\n".toUTF8, 0o644⟩ ∧
      (backedUp before).fileOf? ⟨"src/a.py.bak"⟩ = some ⟨before.toUTF8, 0o644⟩ :=
  ⟨rfl, rfl⟩

theorem persist_oneCall : Run.persist oneCall ⟨true, none, none, true⟩ ⟨⟨"src"⟩, ⟨"src/a.py"⟩⟩
    "result.error(101, 'x')\n" = (backedUp "result.error('x')\n", .ok true) := by rfl

theorem persist_backedUp : Run.persist (backedUp "result.error('x')\n") ⟨true, none, none, true⟩
    ⟨⟨"src"⟩, ⟨"src/a.py"⟩⟩ "result.error(101, 'x')\n" =
      (backedUp "result.error(101, 'x')\n", .ok true) := by rfl

/-- The file was written over, and its backup holds it. -/
theorem backups_hold_originals_once :
    let c : Command := ⟨[⟨"src/a.py"⟩], none, { seed? := some 100, backup? := some true }⟩
    (run oneCall c).disk.fileOf? ⟨"src/a.py"⟩ =
        some ⟨"result.error(101, 'x')\n".toUTF8, 0o644⟩ ∧
      (run oneCall c).disk.fileOf? ⟨"src/a.py.bak"⟩ =
        some ⟨"result.error('x')\n".toUTF8, 0o644⟩ := by
  intro c
  let settings := Settings.default.merge c.overrides
  let sources : List Source := [⟨⟨"src"⟩, ⟨"src/a.py"⟩⟩]
  have hsettings : Run.settings oneCall c = .ok settings := rfl
  have hsources : discover oneCall c.inputs settings.extensions settings.exclude = .ok sources := rfl
  have hfile : oneCall.fileOf? ⟨"src/a.py"⟩ =
      some ⟨"result.error('x')\n".toUTF8, 0o644⟩ := rfl
  have hwritten : (run oneCall c).disk.fileOf? ⟨"src/a.py"⟩ =
      some ⟨"result.error(101, 'x')\n".toUTF8, 0o644⟩ := by
    obtain ⟨outcome, hchanged, houtput, houtcomes⟩ := exists_outcome
    have hplace : settings.output = ⟨true, none, none, true⟩ := rfl
    rw [Run.disk_run hsettings hsources, houtcomes settings rfl rfl rfl sources (by simp [sources]),
      hplace]
    simp only [sources, List.map, List.zip_cons_cons, List.zip_nil_left, List.foldl_cons,
      List.foldl_nil, Run.settle, if_pos hchanged, houtput, persist_oneCall, fileOf?_backedUp]
  have hkept := backups_hold_originals hsettings rfl rfl rfl hsources
    (by simpa [sources] using not_meet_backup_oneCall) (List.pairwise_singleton _ _)
    (List.mem_singleton_self _) hfile
  refine ⟨hwritten, ?_⟩
  rcases hkept with h | ⟨-, -, -, -, -, hbak⟩
  · have hsize := congrArg (Option.map fun f : File => f.bytes.size) (hwritten.symm.trans h)
    exact absurd hsize (by decide)
  · exact hbak

/-- The second backup of a source that is found twice is made of the text that was written
before. -/
theorem backup_of_source_named_twice :
    let c : Command :=
      ⟨[⟨"src/a.py"⟩, ⟨"src/a.py"⟩], none, { seed? := some 100, backup? := some true }⟩
    let settings := Settings.default.merge c.overrides
    let sources : List Source := [⟨⟨"src"⟩, ⟨"src/a.py"⟩⟩, ⟨⟨"src"⟩, ⟨"src/a.py"⟩⟩]
    Run.settings oneCall c = .ok settings ∧ settings.write = true ∧ settings.suffix? = none ∧
      settings.backup = true ∧
      discover oneCall c.inputs settings.extensions settings.exclude = .ok sources ∧
      (∀ x ∈ sources, ∀ y ∈ sources, ¬ x.path.Meet y.path.backup) ∧
      (run oneCall c).summary.toOption.map Summary.failures = some 0 ∧
      oneCall.fileOf? ⟨"src/a.py"⟩ = some ⟨"result.error('x')\n".toUTF8, 0o644⟩ ∧
      (run oneCall c).disk.fileOf? ⟨"src/a.py"⟩ =
        some ⟨"result.error(101, 'x')\n".toUTF8, 0o644⟩ ∧
      (run oneCall c).disk.fileOf? ⟨"src/a.py.bak"⟩ =
        some ⟨"result.error(101, 'x')\n".toUTF8, 0o644⟩ := by
  intro c settings sources
  have hsettings : Run.settings oneCall c = .ok settings := rfl
  have hsources : discover oneCall c.inputs settings.extensions settings.exclude = .ok sources := rfl
  obtain ⟨outcome, hchanged, houtput, houtcomes⟩ := exists_outcome
  have htwice : Run.outcomes oneCall settings sources = [.ok outcome, .ok outcome] :=
    houtcomes settings rfl rfl rfl sources (by simp [sources])
  have hplace : settings.output = ⟨true, none, none, true⟩ := rfl
  have hdisk : (run oneCall c).disk = backedUp "result.error(101, 'x')\n" := by
    rw [Run.disk_run hsettings hsources, htwice, hplace]
    simp only [sources, List.zip_cons_cons, List.zip_nil_left, List.foldl_cons, List.foldl_nil,
      Run.settle, if_pos hchanged, houtput, persist_oneCall, persist_backedUp]
  have hfailures : (run oneCall c).summary.toOption.map Summary.failures = some 0 := by
    rw [Run.summary_run hsettings hsources, htwice, hplace]
    simp only [sources, Run.writeAll, List.zip_cons_cons, List.zip_nil_left, List.foldl_cons,
      List.foldl_nil, Run.Progress.step, Run.Progress.count, if_pos hchanged, houtput,
      Run.Progress.tell, persist_oneCall, persist_backedUp]
    rfl
  refine ⟨hsettings, rfl, rfl, rfl, hsources, by simpa [sources] using not_meet_backup_oneCall,
    hfailures, rfl, ?_⟩
  rw [hdisk]
  exact fileOf?_backedUp _

end Renumber
