import Renumber.Proofs.Discovery
import Renumber.Proofs.Numbering.Exhaust
import Renumber.Proofs.Run.Sources

/-!
# Runs that write over their sources

A run that gives each source a series of its own and writes over its sources treats each file as if it
were alone (`run_in_place`). Dealing with one source changes its own file and nothing else
(`Run.settle_in_place`), and it cannot fail, as a text can always be written over a file
(`Disk.write_file`). So, if no two sources are one file, no source is touched before its turn or after it
(`Run.foldl_settle_in_place`), and what fails is only what could not be read or numbered
(`Run.failures_foldl`).
-/

namespace Renumber

theorem Disk.toUTF8_of_fromUTF8? {bytes : ByteArray} {text : String}
    (h : String.fromUTF8? bytes = some text) : bytes = text.toUTF8 := by
  unfold String.fromUTF8? at h
  split at h
  · rw [← Option.some.inj h]
    rfl
  · cases h

theorem Disk.holding?_of_fileOf? {d : Disk} {p : Path} {l : Location} {f : File}
    (h : d.fileOf? p = some f) (hl : p.location? = some l) : d.holding? l = some (.file f) := by
  obtain ⟨l', hl', hfile⟩ := Disk.fileOf?_eq_some_iff.1 h
  obtain rfl := Option.some.inj ((Disk.locate_eq_ok hl').1.symm.trans hl)
  exact hfile

namespace Run

variable {d : Disk} {o : Output} {s : Source} {settings : Settings}

/-- What numbering makes of a source with a series of its own. -/
def numbered (d : Disk) (settings : Settings) (s : Source) : Except Failure Outcome :=
  (fixFile d settings.dedent s.path ⟨seedOf settings s.path⟩).1

/-- No two of the sources are one file. -/
def Once (sources : List Source) : Prop := sources.Pairwise fun x y => ¬ x.path.Meet y.path

theorem exists_file_of_numbered {outcome : Outcome} (h : numbered d settings s = .ok outcome) :
    ∃ mode, d.fileOf? s.path = some ⟨outcome.before.toUTF8, mode⟩ := by
  obtain ⟨text, hread, hfix⟩ := exists_read_of_fixFile h
  obtain ⟨⟨bytes, mode⟩, hf, htext⟩ := Disk.fileOf?_of_read hread
  obtain rfl := Disk.toUTF8_of_fromUTF8? htext
  exact ⟨mode, by rw [hf, before_of_fixText hfix]⟩

/-! ## One source -/

section
variable (hplace : o.inPlace = true) (hsuffix : o.suffix? = none) (hbackup : o.backup = false)
include hplace hsuffix hbackup

theorem persist_in_place {f : File} (hs : d.fileOf? s.path = some f) (text : String) :
    ∃ d' l, persist d o s text = (d', .ok true) ∧ d.locate s.path = .ok l ∧ ∀ m, d'.holding? m =
      if m = l then some (.file ⟨text.toUTF8, f.mode⟩) else d.holding? m := by
  obtain ⟨d', l, hwrite, hl, hholding⟩ := Disk.write_file hs text
  refine ⟨d', l, ?_, hl, hholding⟩
  unfold persist
  rw [Source.target?_inPlace hplace hsuffix, hbackup]
  simp only [Bool.false_and, Bool.false_eq_true, if_false, hwrite]
  rfl

/-- A source that is dealt with holds its numbered text, and nothing else changes. -/
theorem settle_in_place {outcome : Outcome} {mode : Nat}
    (hs : d.fileOf? s.path = some ⟨outcome.before.toUTF8, mode⟩) : ∃ l, d.locate s.path = .ok l ∧
      ∀ m, (settle o d (s, .ok outcome)).holding? m =
        if m = l then some (.file ⟨outcome.output.toUTF8, mode⟩) else d.holding? m := by
  rw [settle]
  by_cases hchanged : outcome.changed = true
  · obtain ⟨d', l, hpersist, hl, hholding⟩ :=
      persist_in_place hplace hsuffix hbackup hs outcome.output
    rw [if_pos hchanged, hpersist]
    exact ⟨l, hl, hholding⟩
  · obtain ⟨l, hl, hfile⟩ := Disk.fileOf?_eq_some_iff.1 hs
    have hsame : outcome.before = outcome.output := by simpa [Outcome.changed] using hchanged
    rw [if_neg hchanged, ← hsame]
    refine ⟨l, hl, fun m => ?_⟩
    split
    · rename_i hm
      rw [hm, hfile]
    · rfl

/-! ## Several sources -/

/-- Of sources that are different files, each one that was numbered holds its text, and nothing else
changes. -/
theorem foldl_settle_in_place {results : List (Source × Except Failure Outcome)}
    (hfiles : ∀ s outcome, (s, .ok outcome) ∈ results →
      ∃ mode, d.fileOf? s.path = some ⟨outcome.before.toUTF8, mode⟩)
    (honce : results.Pairwise fun x y => ¬ x.1.path.Meet y.1.path) :
    (∀ m, (∀ s outcome, (s, .ok outcome) ∈ results → s.path.location? ≠ some m) →
      (results.foldl (settle o) d).holding? m = d.holding? m) ∧
    ∀ s outcome mode, (s, .ok outcome) ∈ results →
      d.fileOf? s.path = some ⟨outcome.before.toUTF8, mode⟩ →
      (results.foldl (settle o) d).fileOf? s.path = some ⟨outcome.output.toUTF8, mode⟩ := by
  induction results generalizing d with
  | nil => exact ⟨fun _ _ => rfl, fun s outcome mode hs => by cases hs⟩
  | cons x results ih =>
    obtain ⟨s, result⟩ := x
    rw [List.pairwise_cons] at honce
    obtain ⟨hother, honce⟩ := honce
    rw [List.foldl_cons]
    cases result with
    | error e =>
      obtain ⟨hspared, hwritten⟩ := ih
        (fun s' outcome hs' => hfiles s' outcome (List.mem_cons_of_mem _ hs')) honce
      refine ⟨fun m hm => hspared m fun s' outcome hs' => hm s' outcome (List.mem_cons_of_mem _ hs'),
        fun s' outcome mode hs' => hwritten s' outcome mode ?_⟩
      exact (List.mem_cons.1 hs').resolve_left fun h => by cases h
    | ok outcome =>
      obtain ⟨mode, hs⟩ := hfiles s outcome List.mem_cons_self
      obtain ⟨l, hl, hholding⟩ := settle_in_place hplace hsuffix hbackup hs
      obtain ⟨l', hl', hfile⟩ := Disk.fileOf?_eq_some_iff.1 hs
      obtain rfl := Except.ok.inj (hl.symm.trans hl')
      generalize settle o d (s, .ok outcome) = d₁ at hholding ⊢
      have hbeside (m : Location) (hm : m ≠ l) : d₁.holding? m = d.holding? m := by
        rw [hholding, if_neg hm]
      have hwrote : d.Wrote d₁ l ⟨outcome.output.toUTF8, mode⟩ :=
        ⟨by rw [hholding, if_pos rfl], by rw [hfile]; simp, fun m hm => .inl (hbeside m hm)⟩
      -- The sources that are still to come have not been touched.
      have hcome {s' : Source} {f : File} {result : Except Failure Outcome}
          (hs' : (s', result) ∈ results) (hf : d.fileOf? s'.path = some f) :
          d₁.fileOf? s'.path = some f :=
        (hwrote.spares rfl : d.Spares d₁ (· = l)).fileOf? (fun m hm hml =>
          hother _ hs' ⟨l, (Disk.locate_eq_ok hl).1, hml ▸ hm⟩) hf
      obtain ⟨hspared, hwritten⟩ := ih (d := d₁) (fun s' outcome' hs' => by
        obtain ⟨mode', hf⟩ := hfiles s' outcome' (List.mem_cons_of_mem _ hs')
        exact ⟨mode', hcome hs' hf⟩) honce
      refine ⟨fun m hm => ?_, fun s' outcome' mode' hs' hf => ?_⟩
      · rw [hspared m fun s' outcome' hs' => hm s' outcome' (List.mem_cons_of_mem _ hs')]
        refine hbeside m ?_
        rintro rfl
        exact hm s outcome List.mem_cons_self (Disk.locate_eq_ok hl).1
      · rcases List.mem_cons.1 hs' with heq | hs'
        · cases heq
          obtain rfl : mode = mode' := congrArg File.mode (Option.some.inj (hs.symm.trans hf))
          have hkept := (foldl_settle_rewritten hbackup results d₁).directories
          refine Disk.fileOf?_of_kept (fun m hm => hkept m (hwrote.directoriesKept m hm)) hl ?_
          rw [hspared l fun s' outcome' hs' hl' =>
            hother _ hs' ⟨l, (Disk.locate_eq_ok hl).1, hl'⟩, hwrote.file]
        · exact hwritten s' outcome' mode' hs' (hcome hs' hf)

theorem step_in_place {p : Progress} {outcome : Outcome} {f : File}
    (hs : p.disk.fileOf? s.path = some f) :
    (Progress.step o p (s, .ok outcome)).summary.failures = p.summary.failures := by
  obtain ⟨d', l, hpersist, -⟩ := persist_in_place hplace hsuffix hbackup hs outcome.output
  rw [Progress.step]
  dsimp only
  rw [Progress.disk_count, hpersist]
  unfold Progress.count
  split <;> rfl

/-- Of sources that are files, those fail that could not be numbered. -/
theorem failures_foldl {results : List (Source × Except Failure Outcome)} {p : Progress}
    (hfiles : ∀ s outcome, (s, .ok outcome) ∈ results → ∃ f, p.disk.fileOf? s.path = some f) :
    (results.foldl (Progress.step o) p).summary.failures =
      p.summary.failures + results.countP fun x => !x.2.isOk := by
  induction results generalizing p with
  | nil => rfl
  | cons x results ih =>
    have hrest : ∀ s outcome, (s, .ok outcome) ∈ results →
        ∃ f, (Progress.step o p x).disk.fileOf? s.path = some f := by
      intro s outcome hs
      obtain ⟨f, hf⟩ := hfiles s outcome (List.mem_cons_of_mem _ hs)
      obtain ⟨l, hl, hfile⟩ := Disk.fileOf?_eq_some_iff.1 hf
      rw [Progress.disk_step]
      have hrewritten := settle_rewritten hbackup p.disk x
      obtain ⟨f', hf', -⟩ := hrewritten.file hfile
      exact ⟨f', Disk.fileOf?_of_kept hrewritten.directories hl hf'⟩
    rw [List.foldl_cons, ih hrest, List.countP_cons]
    obtain ⟨s, result⟩ := x
    cases result with
    | error e =>
      show p.summary.failures + 1 + _ = p.summary.failures + (_ + 1)
      omega
    | ok outcome =>
      obtain ⟨f, hf⟩ := hfiles s outcome List.mem_cons_self
      rw [step_in_place hplace hsuffix hbackup hf]
      rfl

end

theorem Progress.found_step (o : Output) (p : Progress) (x : Source × Except Failure Outcome) :
    (Progress.step o p x).summary.found = p.summary.found := by
  obtain ⟨s, result⟩ := x
  cases result with
  | error f => rfl
  | ok outcome =>
    have hcount : (p.count s.path outcome).summary.found = p.summary.found := by
      unfold count
      split <;> rfl
    rw [step]
    dsimp only
    split
    · split <;> simp_all [fail, tell]
    · exact hcount

theorem found_foldl (o : Output) (results : List (Source × Except Failure Outcome)) (p : Progress) :
    (results.foldl (Progress.step o) p).summary.found = p.summary.found := by
  induction results generalizing p with
  | nil => rfl
  | cons x results ih => rw [List.foldl_cons, ih, Progress.found_step]

/-! ## Inputs -/

/-- The settings of a run have patterns that can be read. -/
theorem exists_patterns {c : Command} (h : Run.settings d c = .ok settings) :
    ∃ patterns, Glob.parseAll settings.exclude = .ok patterns := by
  unfold Run.settings at h
  obtain ⟨loaded, -, h⟩ := Disk.bind_eq_ok_iff.1 h
  obtain ⟨_, hcheck, h⟩ := Disk.bind_eq_ok_iff.1 h
  cases h
  unfold Settings.check at hcheck
  dsimp only at hcheck
  -- Four checks come before that of the patterns.
  iterate 4
    split at hcheck
    · obtain ⟨_, hthrow, -⟩ := Disk.bind_eq_ok_iff.1 hcheck
      cases hthrow
  obtain ⟨patterns, hpatterns, -⟩ := Disk.bind_eq_ok_iff.1 hcheck
  exact ⟨patterns, hpatterns⟩

/-- Inputs that are there stand for some sources. -/
theorem exists_sources {c : Command} {settings : Settings} (hsettings : Run.settings d c = .ok settings)
    (hinputs : ∀ p ∈ c.inputs, d.reaches p = true) :
    ∃ sources, discover d c.inputs settings.extensions settings.exclude = .ok sources := by
  obtain ⟨patterns, hpatterns⟩ := exists_patterns hsettings
  have hinput (p : Path) (hp : p ∈ c.inputs) :
      ∃ found, Discovery.ofInput d settings.extensions patterns p = .ok found := by
    unfold Discovery.ofInput
    cases hfollow : d.follow p with
    | error e =>
      have hthere := hinputs p hp
      rw [Disk.reaches, hfollow] at hthere
      cases hthere
    | ok x => cases x <;> exact ⟨_, rfl⟩
  obtain ⟨found, hfound, -⟩ := exists_mapM_forall₂ (r := fun _ _ => True) fun p hp =>
    (hinput p hp).imp fun _ hfound => ⟨hfound, trivial⟩
  refine ⟨found.flatten, ?_⟩
  rw [discover, hpatterns]
  exact congrArg (· >>= fun x => pure x.flatten) hfound

/-! ## Runs -/

/-- A run writes over its sources, under their own names and without copies, each source has a series of
its own, and the inputs are there. -/
structure InPlace (d : Disk) (c : Command) (settings : Settings) : Prop where
  loads : Run.settings d c = .ok settings
  scope : settings.scope = .perFile
  write : settings.write = true
  suffix : settings.suffix? = none
  backup : settings.backup = false
  inputs : ∀ p ∈ c.inputs, d.reaches p = true

theorem Once.eq_of_meet {sources : List Source} (h : Once sources) {x y : Source} (hx : x ∈ sources)
    (hy : y ∈ sources) {l : Location} (hxl : x.path.location? = some l)
    (hyl : y.path.location? = some l) : x = y := by
  by_contra hne
  have : Std.Symm fun x y : Source => ¬ x.path.Meet y.path :=
    ⟨fun _ _ hxy ⟨m, hym, hxm⟩ => hxy ⟨m, hxm, hym⟩⟩
  exact List.Pairwise.forall h hx hy hne ⟨l, hxl, hyl⟩

theorem read_congr {d' : Disk} {p : Path} {f : File} (h : d.fileOf? p = some f)
    (h' : d'.fileOf? p = some f) : d'.read p = d.read p := by
  have hfollow {d₁ : Disk} (h₁ : d₁.fileOf? p = some f) : d₁.follow p = .ok (.file f) := by
    obtain ⟨l, hl, hfile⟩ := Disk.fileOf?_eq_some_iff.1 h₁
    exact Disk.follow_eq_ok_iff.2 ⟨l, hl, Disk.holding?_eq_file_iff.1 hfile⟩
  rw [Disk.read, Disk.read, hfollow h, hfollow h']

section
variable {c : Command} {sources : List Source} (h : InPlace d c settings)
  (hsources : discover d c.inputs settings.extensions settings.exclude = .ok sources)
include h hsources

theorem InPlace.disk : (run d c).disk =
    (sources.map fun s => (s, numbered d settings s)).foldl (settle settings.output) d := by
  rw [disk_run h.loads hsources, outcomes_perFile h.scope, ← List.map_prod_left_eq_zip]
  rfl

theorem InPlace.directoriesKept : d.DirectoriesKept (run d c).disk := by
  rw [h.disk hsources]
  exact (foldl_settle_rewritten (o := settings.output) h.backup _ d).directories

/-- The exit code tells whether there were sources and whether all of them could be numbered. -/
theorem InPlace.exitCode : exitCode (run d c).summary =
    if sources = [] then 1 else if sources.any fun s => !(numbered d settings s).isOk then 3 else 0 := by
  have hresults : sources.zip (outcomes d settings sources) =
      sources.map fun s => (s, numbered d settings s) := by
    rw [outcomes_perFile h.scope, ← List.map_prod_left_eq_zip]
    rfl
  have hfiles (s : Source) (outcome : Outcome)
      (hs : (s, .ok outcome) ∈ sources.map fun s => (s, numbered d settings s)) :
      ∃ f, d.fileOf? s.path = some f := by
    obtain ⟨x, -, hx⟩ := List.mem_map.1 hs
    obtain ⟨rfl, hok⟩ := Prod.mk.inj hx
    obtain ⟨mode, hf⟩ := exists_file_of_numbered hok
    exact ⟨_, hf⟩
  generalize hwriteAll : writeAll d settings.output
    (sources.map fun s => (s, numbered d settings s)) = p
  have hfailures : p.summary.failures = sources.countP fun s => !(numbered d settings s).isOk := by
    rw [← hwriteAll, writeAll, failures_foldl (o := settings.output) h.write h.suffix h.backup hfiles,
      List.countP_map]
    exact Nat.zero_add _
  have hfound : p.summary.found = sources.length := by
    rw [← hwriteAll, writeAll, found_foldl, List.length_map]
    rfl
  rw [summary_run h.loads hsources, hresults, hwriteAll]
  unfold Renumber.exitCode
  dsimp only
  rw [hfound, hfailures]
  by_cases hnone : sources = []
  · rw [if_pos hnone, if_pos (List.length_eq_zero_iff.2 hnone)]
  · rw [if_neg hnone, if_neg fun hlength => hnone (List.length_eq_zero_iff.1 hlength)]
    cases hany : sources.any fun s => !(numbered d settings s).isOk with
    | true =>
      obtain ⟨s, hs, hfailed⟩ := List.any_eq_true.1 hany
      rw [if_pos rfl, if_neg fun hzero => List.countP_eq_zero.1 hzero s hs hfailed]
    | false =>
      rw [if_pos (List.countP_eq_zero.2 fun s hs => List.any_eq_false.1 hany s hs)]
      rfl

section
variable (honce : Once sources)
include honce

/-- A source that can be numbered holds its text afterwards, and nothing else changes. -/
theorem InPlace.holding :
    (∀ l, (∀ s ∈ sources, s.path.location? = some l → ∀ outcome, numbered d settings s ≠ .ok outcome) →
      (run d c).disk.holding? l = d.holding? l) ∧
    ∀ s ∈ sources, ∀ outcome mode, numbered d settings s = .ok outcome →
      d.fileOf? s.path = some ⟨outcome.before.toUTF8, mode⟩ →
      (run d c).disk.fileOf? s.path = some ⟨outcome.output.toUTF8, mode⟩ := by
  have hmem {s : Source} {outcome : Outcome}
      (hs : (s, .ok outcome) ∈ sources.map fun s => (s, numbered d settings s)) :
      s ∈ sources ∧ numbered d settings s = .ok outcome := by
    obtain ⟨x, hx, heq⟩ := List.mem_map.1 hs
    obtain ⟨rfl, hx'⟩ := Prod.mk.inj heq
    exact ⟨hx, hx'⟩
  have hresults : (sources.map fun s => (s, numbered d settings s)).Pairwise
      fun x y => ¬ x.1.path.Meet y.1.path := List.pairwise_map.2 honce
  obtain ⟨hspared, hwritten⟩ := foldl_settle_in_place (d := d) (o := settings.output) h.write h.suffix
    h.backup (fun s outcome hs => exists_file_of_numbered (hmem hs).2) hresults
  rw [h.disk hsources]
  refine ⟨fun l hl => hspared l fun s outcome hs hsl => hl s (hmem hs).1 hsl outcome (hmem hs).2,
    fun s hs outcome mode hnumbered hf => hwritten s outcome mode ?_ hf⟩
  exact List.mem_map.2 ⟨s, hs, by rw [hnumbered]⟩

/-- What a source that is a file holds afterwards is a matter of its own bytes. -/
theorem InPlace.fileOf?_of_source (hs : s ∈ sources) {f : File} (hf : d.fileOf? s.path = some f) :
    (run d c).disk.fileOf? s.path = some
      (match numbered d settings s with
      | .ok outcome => ⟨outcome.output.toUTF8, f.mode⟩
      | .error _ => f) := by
  obtain ⟨hspared, hwritten⟩ := h.holding hsources honce
  cases hnumbered : numbered d settings s with
  | ok outcome =>
    obtain ⟨mode, hbefore⟩ := exists_file_of_numbered hnumbered
    obtain rfl := Option.some.inj (hbefore.symm.trans hf)
    exact hwritten s hs outcome mode hnumbered hbefore
  | error e =>
    obtain ⟨l, hl, hfile⟩ := Disk.fileOf?_eq_some_iff.1 hf
    have hloc := (Disk.locate_eq_ok hl).1
    refine Disk.fileOf?_of_kept (h.directoriesKept hsources) hl ?_
    rw [hspared l fun x hx hxl outcome hok => ?_, hfile]
    obtain rfl := honce.eq_of_meet hx hs hxl hloc
    rw [hnumbered] at hok
    cases hok

end

end

end Run

/-- A run over files that gives each one a series of its own and writes over them, without copies. If no
two of its sources are one file, a source that can be numbered holds its numbered text afterwards, and
every other file, such as one that cannot be read or has a problem, is as it was; no file is made or gone.
What becomes of a source is the same in every other run with these settings that finds its file,
whatever else is on the disk and whatever the other inputs are and their order. The exit code is 1
without sources, or else 3 if one of them failed, or else 0. -/
theorem run_in_place {d : Disk} {c : Command} {settings : Settings} (h : Run.InPlace d c settings) :
    ∃ sources, discover d c.inputs settings.extensions settings.exclude = .ok sources ∧
      (Run.Once sources →
        (∀ s ∈ sources, ∀ text mode outcome, d.fileOf? s.path = some ⟨text.toUTF8, mode⟩ →
          (fixText settings.dedent text ⟨Run.seedOf settings s.path⟩).1 = .ok outcome →
          (run d c).disk.fileOf? s.path = some ⟨outcome.output.toUTF8, mode⟩) ∧
        (∀ l, (∀ s ∈ sources, s.path.location? = some l →
            ∀ outcome, Run.numbered d settings s ≠ .ok outcome) →
          (run d c).disk.holding? l = d.holding? l) ∧
        (∀ l, (∃ f, (run d c).disk.holding? l = some (.file f)) ↔
          ∃ f, d.holding? l = some (.file f)) ∧
        (∀ d' c' sources', Run.InPlace d' c' settings →
          discover d' c'.inputs settings.extensions settings.exclude = .ok sources' →
          Run.Once sources' → ∀ s ∈ sources, ∀ s' ∈ sources', s'.path = s.path →
            ∀ f, d.fileOf? s.path = some f → d'.fileOf? s.path = some f →
              (run d' c').disk.fileOf? s.path = (run d c).disk.fileOf? s.path) ∧
        exitCode (run d c).summary = if sources = [] then 1
          else if sources.any fun s => !(Run.numbered d settings s).isOk then 3 else 0) := by
  obtain ⟨sources, hsources⟩ := Run.exists_sources h.loads h.inputs
  refine ⟨sources, hsources, fun honce => ?_⟩
  obtain ⟨hspared, hwritten⟩ := h.holding hsources honce
  refine ⟨fun s hs text mode outcome hf hfix => ?_, hspared, fun l => ?_,
    fun d' c' sources' h' hsources' honce' s hs s' hs' hpath f hf hf' => ?_, h.exitCode hsources⟩
  · have hnumbered : Run.numbered d settings s = .ok outcome := by
      rw [Run.numbered, Run.fixFile_of_text hf, hfix]
      rfl
    exact hwritten s hs outcome mode hnumbered (by rwa [Run.before_of_fixText hfix])
  · by_cases hl : ∃ s ∈ sources, s.path.location? = some l ∧
        ∃ outcome, Run.numbered d settings s = .ok outcome
    · obtain ⟨s, hs, hloc, outcome, hok⟩ := hl
      obtain ⟨mode, hf⟩ := Run.exists_file_of_numbered hok
      exact iff_of_true ⟨_, Disk.holding?_of_fileOf? (hwritten s hs outcome mode hok hf) hloc⟩
        ⟨_, Disk.holding?_of_fileOf? hf hloc⟩
    · rw [hspared l fun s hs hloc outcome hok => hl ⟨s, hs, hloc, outcome, hok⟩]
  · have hread := Run.read_congr hf hf'
    have hnumbered : Run.numbered d' settings s' = Run.numbered d settings s := by
      rw [Run.numbered, Run.numbered, hpath, fixFile, fixFile, hread]
    have hthere := h'.fileOf?_of_source hsources' honce' hs' (f := f) (by rwa [hpath])
    rw [hpath, hnumbered] at hthere
    rw [hthere, h.fileOf?_of_source hsources honce hs hf]

/-- A disk with a file that has a call and one that has a problem. -/
def callAndProblem : Disk := ⟨[("src", .directory [
  ("a.py", .file ⟨"result.error('x')\n".toUTF8, 0o644⟩),
  ("b.py", .file ⟨"(\n".toUTF8, 0o600⟩)])]⟩

theorem once_callAndProblem :
    Run.Once [⟨⟨"src"⟩, ⟨"src/a.py"⟩⟩, ⟨⟨"src"⟩, ⟨"src/b.py"⟩⟩] := by
  have ha : (⟨"src/a.py"⟩ : Path).location? = some ["src", "a.py"] := rfl
  have hb : (⟨"src/b.py"⟩ : Path).location? = some ["src", "b.py"] := rfl
  exact List.pairwise_pair.2 (Path.not_meet_of_ne ha hb (by decide))

/-- One file gets its code, although the other one has a problem. -/
theorem run_in_place_beside_problem :
    let c : Command := ⟨[⟨"src"⟩], none, { seed? := some 100 }⟩
    Run.InPlace callAndProblem c (Settings.default.merge c.overrides) ∧
      (run callAndProblem c).disk.fileOf? ⟨"src/a.py"⟩ =
        some ⟨"result.error(101, 'x')\n".toUTF8, 0o644⟩ ∧
      (run callAndProblem c).disk.holding? ["src", "b.py"] =
        some (.file ⟨"(\n".toUTF8, 0o600⟩) ∧
      exitCode (run callAndProblem c).summary = 3 := by
  intro c
  have h : Run.InPlace callAndProblem c (Settings.default.merge c.overrides) :=
    ⟨rfl, rfl, rfl, rfl, rfl, fun p hp => List.mem_singleton.1 hp ▸ rfl⟩
  have hdedent : numberedText true "(\n" = "(\n" := by decide
  have hlex : lex "(\n" = Lexeme.sound [⟨.lParen, "("⟩, ⟨.nl, "\n"⟩, ⟨.newline, ""⟩] := by cbv
  obtain ⟨message, line, column, hproblem⟩ :=
    fixText_of_errors (hdedent ▸ errors_parse_ne_nil_of_lex hlex (by decide +kernel)) ⟨100⟩
  obtain ⟨outcome, hfix, houtput⟩ := exists_fixText_oneCall
  obtain ⟨sources, hsources, hrun⟩ := run_in_place h
  have hfound : discover callAndProblem c.inputs (Settings.default.merge c.overrides).extensions
      (Settings.default.merge c.overrides).exclude =
        .ok [⟨⟨"src"⟩, ⟨"src/a.py"⟩⟩, ⟨⟨"src"⟩, ⟨"src/b.py"⟩⟩] := rfl
  obtain rfl := Except.ok.inj (hsources.symm.trans hfound)
  obtain ⟨hwritten, hspared, -, -, hexit⟩ := hrun once_callAndProblem
  have hfile : callAndProblem.fileOf? ⟨"src/b.py"⟩ = some ⟨"(\n".toUTF8, 0o600⟩ := rfl
  have hfailed : (Run.numbered callAndProblem (Settings.default.merge c.overrides)
      ⟨⟨"src"⟩, ⟨"src/b.py"⟩⟩).isOk = false := by
    rw [Run.numbered, Run.fixFile_of_text hfile]
    exact congrArg Except.isOk (congrArg (Except.mapError _) (congrArg Prod.fst hproblem))
  refine ⟨h, ?_, ?_, ?_⟩
  · rw [← houtput]
    exact hwritten _ List.mem_cons_self "result.error('x')\n" 0o644 outcome rfl hfix
  · rw [hspared ["src", "b.py"] fun s hs hl outcome' hok => ?_]
    · rfl
    · rcases List.mem_pair.1 hs with rfl | rfl
      · have ha : (⟨"src/a.py"⟩ : Path).location? = some ["src", "a.py"] := rfl
        exact absurd (Option.some.inj (ha.symm.trans hl)) (by decide)
      · rw [hok] at hfailed
        cases hfailed
  · rw [hexit, if_neg (by simp), if_pos]
    refine List.any_eq_true.2 ⟨_, List.mem_cons_of_mem _ List.mem_cons_self, ?_⟩
    rw [hfailed]
    rfl

end Renumber
