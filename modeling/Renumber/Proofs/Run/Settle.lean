import Renumber.Proofs.Disk.Frame
import Renumber.Run

/-!
# What a run does to a disk

A run changes the disk once for each source that numbering changed, one after another
(`Run.disk_run`). Dealing with one source changes no file but the one that its target leads to and,
if copies are kept, its backup (`Run.settle_spares`), and the same holds of several sources
together (`Run.foldl_settle_spares`).
-/

namespace Renumber

namespace Run

variable {d d' : Disk} {o : Output} {s : Source} {text : String}

/-! ## One source -/

/-- The disk after one source is dealt with. -/
def settle (o : Output) (d : Disk) : Source × Except Failure Outcome → Disk
  | (_, .error _) => d
  | (s, .ok outcome) => if outcome.changed then (persist d o s outcome.output).1 else d

theorem Progress.disk_count (p : Progress) (path : Path) (outcome : Outcome) :
    (p.count path outcome).disk = p.disk := by
  unfold count
  split <;> rfl

theorem Progress.disk_step (o : Output) (p : Progress) (x : Source × Except Failure Outcome) :
    (Progress.step o p x).disk = settle o p.disk x := by
  obtain ⟨s, result⟩ := x
  cases result with
  | error f => rfl
  | ok outcome =>
    rw [step, settle, disk_count]
    dsimp only
    split
    · split <;> simp_all [fail, tell]
    · exact p.disk_count s.path outcome

theorem disk_writeAll (d : Disk) (o : Output) (results : List (Source × Except Failure Outcome)) :
    (writeAll d o results).disk = results.foldl (settle o) d :=
  (List.foldl_hom Progress.disk fun p x => (Progress.disk_step o p x).symm).symm

/-! ## Writing one text -/

theorem write_cases (d : Disk) (p : Path) (text : String) : d.Grown (d.write p text).1 ∨
    ∃ l mode, (d.write p text).1.locate p = .ok l ∧
      d.Wrote (d.write p text).1 l ⟨text.toUTF8, mode⟩ := by
  cases h : d.write p text with
  | mk d' result =>
    cases result with
    | ok u =>
      obtain ⟨l, hl, hwrote⟩ := Disk.writeUnder_ok h
      exact .inr ⟨l, d.modeAt l, hl, hwrote⟩
    | error e => exact .inl (Disk.writeUnder_error h)

/-- What writing the text of a source comes to: nothing, a write, or a copy and, if there is one, then a
write. -/
theorem persist_cases (d : Disk) (o : Output) (s : Source) (text : String) :
    (s.target? o = none ∧ persist d o s text = (d, .ok false)) ∨
    ∃ t, s.target? o = some t ∧
      ((o.backup = true → t.components ≠ s.path.components) ∧
          persist d o s text = ((d.write t text).1, (d.write t text).2.map fun _ => true) ∨
        (o.backup = true ∧ t.components = s.path.components) ∧
          ((∃ d₁ e, d.backUp s.path = (d₁, .error e) ∧ persist d o s text = (d₁, .error e)) ∨
            ∃ d₁ q, d.backUp s.path = (d₁, .ok q) ∧
              persist d o s text = ((d₁.write t text).1, (d₁.write t text).2.map fun _ => true))) := by
  unfold persist
  cases ht : s.target? o with
  | none => exact .inl ⟨rfl, rfl⟩
  | some t =>
    refine .inr ⟨t, rfl, ?_⟩
    by_cases hcopy : (o.backup && t.components == s.path.components) = true
    · have hover : o.backup = true ∧ t.components = s.path.components := by
        rwa [Bool.and_eq_true, beq_iff_eq] at hcopy
      refine .inr ⟨hover, ?_⟩
      rcases hback : d.backUp s.path with ⟨d₁, e | q⟩
      · refine .inl ⟨d₁, e, rfl, ?_⟩
        dsimp only
        rw [if_pos hcopy]
        rfl
      · refine .inr ⟨d₁, q, rfl, ?_⟩
        dsimp only
        rw [if_pos hcopy]
        rfl
    · refine .inl ⟨fun hbackup hsame => hcopy ?_, ?_⟩
      · rw [hbackup, hsame, Bool.true_and, beq_self_eq_true]
      · dsimp only
        rw [if_neg hcopy]

/-- The locations that dealing with a source may change. -/
def Touches (o : Output) (s : Source) (m : Location) : Prop :=
  (∃ t, s.target? o = some t ∧ t.location? = some m) ∨
    (o.backup = true ∧ s.path.backup.location? = some m)

theorem write_spares (d : Disk) {p : Path} (text : String) {touched : Location → Prop}
    (hp : ∀ m, p.location? = some m → touched m) : d.Spares (d.write p text).1 touched := by
  rcases write_cases d p text with hgrown | ⟨l, mode, hl, hwrote⟩
  · exact hgrown.spares
  · exact hwrote.spares (hp l (Disk.locate_eq_ok hl).1)

theorem persist_spares (d : Disk) (o : Output) (s : Source) (text : String) :
    d.Spares (persist d o s text).1 (Touches o s) := by
  rcases persist_cases d o s text with ⟨-, h⟩ | ⟨t, ht, hrest⟩
  · rw [h]
    exact .refl d _
  · have htarget : ∀ m, t.location? = some m → Touches o s m := fun m hm => .inl ⟨t, ht, hm⟩
    rcases hrest with ⟨-, h⟩ | ⟨⟨hb, -⟩, ⟨d₁, e, hback, h⟩ | ⟨d₁, q, hback, h⟩⟩
    · simp only [h]
      exact write_spares d text htarget
    · rw [h]
      obtain ⟨hkept, hsame⟩ := Disk.backUp_error hback
      exact ⟨hkept, fun {m f} hm => by rw [hsame m fun hloc => hm (.inr ⟨hb, hloc⟩)]⟩
    · simp only [h]
      obtain ⟨l, f, -, hl, hwrote⟩ := Disk.backUp_ok hback
      have hbak : Touches o s l := .inr ⟨hb, (Disk.locate_eq_ok hl).1⟩
      exact (hwrote.spares hbak).trans (write_spares d₁ text htarget)

theorem settle_spares (d : Disk) (o : Output) (s : Source) (result : Except Failure Outcome) :
    d.Spares (settle o d (s, result)) (Touches o s) := by
  cases result with
  | error f => exact .refl d _
  | ok outcome =>
    rw [settle]
    split
    · exact persist_spares d o s outcome.output
    · exact .refl d _

/-! ## Several sources -/

section
variable {results : List (Source × Except Failure Outcome)}

/-- Some sources that were numbered change no file but those that dealing with one of them may
change. -/
theorem foldl_settle_spares {touched : Location → Prop}
    (h : ∀ s outcome, (s, .ok outcome) ∈ results → ∀ m, Touches o s m → touched m) (d : Disk) :
    d.Spares (results.foldl (settle o) d) touched := by
  induction results generalizing d with
  | nil => exact .refl d _
  | cons x results ih =>
    obtain ⟨s, result⟩ := x
    refine Disk.Spares.trans ?_ (ih (fun s' o' hs => h s' o' (List.mem_cons_of_mem _ hs)) _)
    cases result with
    | error f => exact .refl d _
    | ok outcome =>
      exact (settle_spares d o s (.ok outcome)).mono (h s outcome List.mem_cons_self)

end

/-! ## A run -/

/-- What is compared with the numbered text is the text of the source. -/
theorem before_of_fixText {dedent : Bool} {source : String} {series : Series} {outcome : Outcome}
    (h : (fixText dedent source series).1 = .ok outcome) : outcome.before = source :=
  (fixText_eq_ok_iff.1 (Prod.ext h rfl)).2.1

variable {c : Command} {sources : List Source} {settings : Settings}

theorem outcomes_perFile (hscope : settings.scope = .perFile) (d : Disk) (sources : List Source) :
    outcomes d settings sources =
      sources.map fun x => (fixFile d settings.dedent x.path ⟨seedOf settings x.path⟩).1 := by
  unfold outcomes
  rw [hscope]
  cases sources <;> rfl

theorem length_inTurn (d : Disk) (dedent : Bool) (series : Series) (sources : List Source) :
    (inTurn d dedent series sources).length = sources.length := by
  induction sources generalizing series with
  | nil => rfl
  | cons s sources ih => rw [inTurn, List.length_cons, List.length_cons, ih]

theorem length_outcomes (d : Disk) (s : Settings) (sources : List Source) :
    (outcomes d s sources).length = sources.length := by
  unfold outcomes
  split
  · rfl
  · rw [List.length_map]
  · exact length_inTurn ..

theorem fixFile_of_text {dedent : Bool} {p : Path} {mode : Nat}
    (hf : d.fileOf? p = some ⟨text.toUTF8, mode⟩) (series : Series) : (fixFile d dedent p series).1 =
      (fixText dedent text series).1.mapError fun f => f.withOrigin p := by
  rw [fixFile, Disk.read_of_fileOf? hf]

/-- The text that is numbered is that of the file on the disk. -/
theorem exists_read_of_fixFile {dedent : Bool} {p : Path} {series : Series} {outcome : Outcome}
    (h : (fixFile d dedent p series).1 = .ok outcome) :
    ∃ text, d.read p = .ok text ∧ (fixText dedent text series).1 = .ok outcome := by
  unfold fixFile at h
  split at h
  · cases h
  · rename_i text hread
    exact ⟨text, hread, Disk.mapError_eq_ok h⟩

theorem exists_fixFile_of_inTurn {dedent : Bool} {series : Series} {result : Except Failure Outcome}
    (h : (s, result) ∈ sources.zip (inTurn d dedent series sources)) :
    ∃ series', (fixFile d dedent s.path series').1 = result := by
  induction sources generalizing series with
  | nil => cases h
  | cons x sources ih =>
    rw [inTurn, List.zip_cons_cons, List.mem_cons, Prod.mk.injEq] at h
    rcases h with ⟨rfl, rfl⟩ | h
    · exact ⟨series, rfl⟩
    · exact ih h

/-- What numbering makes of a source is made of its file alone, with some series. -/
theorem exists_fixFile_of_outcome {result : Except Failure Outcome}
    (h : (s, result) ∈ sources.zip (outcomes d settings sources)) :
    ∃ series, (fixFile d settings.dedent s.path series).1 = result := by
  unfold outcomes at h
  split at h
  · cases h
  · rw [← List.map_prod_left_eq_zip, List.mem_map] at h
    obtain ⟨x, -, heq⟩ := h
    obtain ⟨rfl, rfl⟩ := Prod.mk.inj heq
    exact ⟨_, rfl⟩
  · exact exists_fixFile_of_inTurn h

/-- Only the text of a file is numbered. -/
theorem exists_file_of_outcome {outcome : Outcome}
    (h : (s, .ok outcome) ∈ sources.zip (outcomes d settings sources)) :
    ∃ f, d.fileOf? s.path = some f := by
  obtain ⟨series, hfix⟩ := exists_fixFile_of_outcome h
  obtain ⟨text, hread, -⟩ := exists_read_of_fixFile hfix
  obtain ⟨f, hf, -⟩ := Disk.fileOf?_of_read hread
  exact ⟨f, hf⟩

section
variable (hsettings : Run.settings d c = .ok settings)
  (hsources : discover d c.inputs settings.extensions settings.exclude = .ok sources)
include hsettings hsources

/-- The disk that a run leaves is the one found, with the sources dealt with in their order. -/
theorem disk_run : (run d c).disk =
    (sources.zip (outcomes d settings sources)).foldl (settle settings.output) d := by
  unfold run withSettings
  simp only [hsettings, hsources]
  cases sources with
  | nil => rfl
  | cons => exact disk_writeAll ..

/-- What a run counts is what dealing with the sources counts. -/
theorem summary_run : (run d c).summary =
    .ok (writeAll d settings.output (sources.zip (outcomes d settings sources))).summary := by
  unfold run withSettings
  simp only [hsettings, hsources]
  cases sources <;> rfl

end

end Run

end Renumber
