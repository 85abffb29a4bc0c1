import Renumber.Proofs.Run.Sources

/-!
# Where the texts of a run are found afterwards

A run counts each text that it writes (`Run.written_foldl`), and right after that the text is at its
target (`Run.exists_of_mem_written`). It is still there at the end unless something that is dealt with
later goes to the same file, as a text or as a backup (`texts_written`). Nothing keeps two targets
apart, so a text may be lost in both ways (`texts_lost`).
-/

namespace Renumber

namespace Run

variable {d d' : Disk} {o : Output} {s : Source} {t : Path} {text : String}
  {results : List (Source × Except Failure Outcome)}

/-! ## One source -/

/-- The locations of the copies that are made of a source: that of its backup, if its text is to go
over it. -/
def Copies (o : Output) (s : Source) (m : Location) : Prop :=
  o.backup = true ∧ (∃ t, s.target? o = some t ∧ t.components = s.path.components) ∧
    s.path.backup.location? = some m

theorem backUp_spares (hbackup : o.backup = true) (ht : s.target? o = some t)
    (hsame : t.components = s.path.components) (d : Disk) :
    d.Spares (d.backUp s.path).1 (Copies o s) := by
  have hcopies {m : Location} (hm : s.path.backup.location? = some m) : Copies o s m :=
    ⟨hbackup, ⟨t, ht, hsame⟩, hm⟩
  cases hback : d.backUp s.path with
  | mk d' result =>
    cases result with
    | error e =>
      obtain ⟨hkept, hothers⟩ := Disk.backUp_error hback
      exact ⟨hkept, fun hm => by rw [hothers _ fun hloc => hm (hcopies hloc)]⟩
    | ok q =>
      obtain ⟨l, f, -, hl, hwrote⟩ := Disk.backUp_ok hback
      exact hwrote.spares (hcopies (Disk.locate_eq_ok hl).1)

/-- A text is written to its target or not counted. Nothing else changes but the copy of the
source. -/
theorem persist_result (d : Disk) (o : Output) (s : Source) (text : String) :
    (∃ t mode, s.target? o = some t ∧ (persist d o s text).2 = .ok true ∧
      (persist d o s text).1.fileOf? t = some ⟨text.toUTF8, mode⟩ ∧
      d.Spares (persist d o s text).1 fun m => t.location? = some m ∨ Copies o s m) ∨
    ((persist d o s text).2 ≠ .ok true ∧ d.Spares (persist d o s text).1 (Copies o s)) := by
  -- The write comes after the copy, if there is one, on the disk that has it.
  have hwrite {d₁ : Disk} {t : Path} (hcopied : d.Spares d₁ (Copies o s)) (ht : s.target? o = some t)
      (h : persist d o s text = ((d₁.write t text).1, (d₁.write t text).2.map fun _ => true)) :
      (∃ t mode, s.target? o = some t ∧ (persist d o s text).2 = .ok true ∧
        (persist d o s text).1.fileOf? t = some ⟨text.toUTF8, mode⟩ ∧
        d.Spares (persist d o s text).1 fun m => t.location? = some m ∨ Copies o s m) ∨
      ((persist d o s text).2 ≠ .ok true ∧ d.Spares (persist d o s text).1 (Copies o s)) := by
    simp only [h]
    rcases hw : d₁.write t text with ⟨d₂, e | u⟩
    · exact .inr ⟨fun h => (by cases h), hcopied.trans (Disk.writeUnder_error hw).spares⟩
    · obtain ⟨l, hl, hwrote⟩ := Disk.writeUnder_ok hw
      refine .inl ⟨t, d₁.modeAt l, ht, rfl, Disk.fileOf?_eq_some_iff.2 ⟨l, hl, hwrote.file⟩, ?_⟩
      exact (hcopied.mono fun m => .inr).trans (hwrote.spares (.inl (Disk.locate_eq_ok hl).1))
  rcases persist_cases d o s text with ⟨-, h⟩ | ⟨t, ht, hrest⟩
  · rw [h]
    exact .inr ⟨fun h => (by cases h), .refl d _⟩
  · rcases hrest with ⟨-, h⟩ | ⟨⟨hb, hsame⟩, hrest⟩
    · exact hwrite (.refl d _) ht h
    · have hcopied := backUp_spares hb ht hsame d
      rcases hrest with ⟨d₁, e, hback, h⟩ | ⟨d₁, q, hback, h⟩
      · rw [h]
        rw [hback] at hcopied
        exact .inr ⟨fun h => (by cases h), hcopied⟩
      · rw [hback] at hcopied
        exact hwrite hcopied ht h

/-- Where dealing with a source writes its text, and the text, if it does. -/
def writes? (o : Output) (d : Disk) : Source × Except Failure Outcome → Option (Path × String)
  | (_, .error _) => none
  | (s, .ok outcome) =>
    if outcome.changed then
      match (persist d o s outcome.output).2 with
      | .ok true => (s.target? o).map fun t => (t, outcome.output)
      | _ => none
    else none

/-- What dealing with a source changes: the file at its target if its text is written, and its copy. -/
def Changes (o : Output) (d : Disk) (x : Source × Except Failure Outcome) (m : Location) : Prop :=
  (∃ t text, writes? o d x = some (t, text) ∧ t.location? = some m) ∨
    (∃ outcome, x.2 = .ok outcome ∧ outcome.changed = true) ∧ Copies o x.1 m

theorem settle_result (o : Output) (d : Disk) (x : Source × Except Failure Outcome) :
    d.Spares (settle o d x) (Changes o d x) ∧ ∀ t text, writes? o d x = some (t, text) →
      (∃ outcome, x.2 = .ok outcome ∧ outcome.changed = true ∧ x.1.target? o = some t ∧
        text = outcome.output) ∧ ∃ mode, (settle o d x).fileOf? t = some ⟨text.toUTF8, mode⟩ := by
  obtain ⟨s, result⟩ := x
  cases result with
  | error e => exact ⟨.refl d _, fun t text h => by cases h⟩
  | ok outcome =>
    by_cases hchanged : outcome.changed = true
    · rw [settle, if_pos hchanged]
      have hcopies {m : Location} (hm : Copies o s m) : Changes o d (s, .ok outcome) m :=
        .inr ⟨⟨outcome, rfl, hchanged⟩, hm⟩
      rcases persist_result d o s outcome.output with
        ⟨t, mode, ht, htrue, hfile, hspares⟩ | ⟨hfalse, hspares⟩
      · have hwrites : writes? o d (s, .ok outcome) = some (t, outcome.output) := by
          rw [writes?, if_pos hchanged, htrue, ht]
          rfl
        refine ⟨hspares.mono fun m hm => hm.elim (fun hl => .inl ⟨t, _, hwrites, hl⟩) hcopies,
          fun t' text h => ?_⟩
        obtain ⟨rfl, rfl⟩ := Prod.mk.inj (Option.some.inj (hwrites.symm.trans h))
        exact ⟨⟨outcome, rfl, hchanged, ht, rfl⟩, mode, hfile⟩
      · refine ⟨hspares.mono fun m => hcopies, fun t text h => ?_⟩
        rw [writes?, if_pos hchanged] at h
        split at h
        · rename_i htrue
          exact absurd htrue hfalse
        · cases h
    · rw [settle, if_neg hchanged]
      refine ⟨.refl d _, fun t text h => ?_⟩
      rw [writes?, if_neg hchanged] at h
      cases h

theorem Progress.written_count (p : Progress) (path : Path) (outcome : Outcome) :
    (p.count path outcome).summary.written = p.summary.written := by
  unfold count
  split <;> rfl

/-- A text that is written is counted, and nothing else is. -/
theorem Progress.written_step (o : Output) (p : Progress) (x : Source × Except Failure Outcome) :
    (Progress.step o p x).summary.written =
      p.summary.written + (writes? o p.disk x).toList.length := by
  obtain ⟨s, result⟩ := x
  cases result with
  | error e => rfl
  | ok outcome =>
    rw [step, writes?]
    dsimp only
    rw [disk_count]
    by_cases hchanged : outcome.changed = true
    · rw [if_pos hchanged, if_pos hchanged]
      rcases persist_result p.disk o s outcome.output with ⟨t, mode, ht, htrue, -⟩ | ⟨hfalse, -⟩
      · rw [htrue, ht]
        exact congrArg (· + 1) (p.written_count s.path outcome)
      · generalize persist p.disk o s outcome.output = result at hfalse ⊢
        obtain ⟨d, _ | _ | _⟩ := result
        · exact p.written_count s.path outcome
        · exact p.written_count s.path outcome
        · exact absurd rfl hfalse
    · rw [if_neg hchanged, if_neg hchanged]
      exact p.written_count s.path outcome

/-! ## Several sources -/

/-- A text that was written. -/
structure Written where
  source : Source
  target : Path
  text : String
  /-- The disk right after that. -/
  disk : Disk
  /-- What is dealt with later. -/
  later : List (Source × Except Failure Outcome)

/-- The texts that are written while the sources are dealt with, the first one first. -/
def written (o : Output) (d : Disk) : List (Source × Except Failure Outcome) → List Written
  | [] => []
  | x :: later =>
    ((writes? o d x).toList.map fun (t, text) => ⟨x.1, t, text, settle o d x, later⟩) ++
      written o (settle o d x) later

namespace Written

/-- Nothing that is dealt with later goes to the same file, neither a text nor a copy. -/
structure Spared (o : Output) (w : Written) : Prop where
  texts : ∀ w' ∈ written o w.disk w.later, ¬ w.target.Meet w'.target
  copies : ∀ s outcome, (s, .ok outcome) ∈ w.later → outcome.changed = true →
    ∀ m, Copies o s m → w.target.location? ≠ some m

/-- The text is at its target. -/
def Stands (d : Disk) (w : Written) : Prop :=
  ∃ mode, d.fileOf? w.target = some ⟨w.text.toUTF8, mode⟩

end Written

/-- The targets that hold their text, as locations. -/
def standing (d : Disk) (ws : List Written) : Set Location :=
  {l | ∃ w ∈ ws, w.target.location? = some l ∧ w.Stands d}

theorem mem_written_cons {x : Source × Except Failure Outcome} {w : Written} :
    w ∈ written o d (x :: results) ↔
      (writes? o d x = some (w.target, w.text) ∧ w.source = x.1 ∧ w.disk = settle o d x ∧
        w.later = results) ∨ w ∈ written o (settle o d x) results := by
  rw [written, List.mem_append, List.mem_map]
  refine or_congr ⟨?_, fun ⟨hw, hsource, hdisk, hlater⟩ => ?_⟩ .rfl
  · rintro ⟨⟨t, text⟩, ht, rfl⟩
    exact ⟨Option.mem_toList.1 ht, rfl, rfl, rfl⟩
  · exact ⟨(w.target, w.text), Option.mem_toList.2 hw, by rw [← hsource, ← hdisk, ← hlater]⟩

/-- As many texts are counted as are written. -/
theorem written_foldl (o : Output) (results : List (Source × Except Failure Outcome)) (p : Progress) :
    (results.foldl (Progress.step o) p).summary.written =
      p.summary.written + (written o p.disk results).length := by
  induction results generalizing p with
  | nil => rfl
  | cons x results ih =>
    rw [List.foldl_cons, ih, Progress.written_step, Progress.disk_step, written, List.length_append,
      List.length_map, Nat.add_assoc]

/-- Some sources that are dealt with change the targets of the texts that are written, and copies. -/
theorem foldl_settle_changes (o : Output) (results : List (Source × Except Failure Outcome)) (d : Disk) :
    d.Spares (results.foldl (settle o) d) fun m =>
      (∃ w ∈ written o d results, w.target.location? = some m) ∨
        ∃ s outcome, (s, .ok outcome) ∈ results ∧ outcome.changed = true ∧ Copies o s m := by
  induction results generalizing d with
  | nil => exact .refl d _
  | cons x results ih =>
    refine Disk.Spares.trans ((settle_result o d x).1.mono fun m hm => ?_)
      ((ih (settle o d x)).mono fun m hm => ?_)
    · rcases hm with ⟨t, text, hw, hl⟩ | ⟨⟨outcome, hx, hchanged⟩, hcopies⟩
      · exact .inl ⟨⟨x.1, t, text, settle o d x, results⟩,
          mem_written_cons.2 (.inl ⟨hw, rfl, rfl, rfl⟩), hl⟩
      · exact .inr ⟨x.1, outcome, hx ▸ List.mem_cons_self, hchanged, hcopies⟩
    · rcases hm with ⟨w, hw, hl⟩ | ⟨s, outcome, hs, hrest⟩
      · exact .inl ⟨w, mem_written_cons.2 (.inr hw), hl⟩
      · exact .inr ⟨s, outcome, List.mem_cons_of_mem _ hs, hrest⟩

/-- A text that is written is that of a source and stands at its target right then. What is dealt with
later makes the disk at the end of it. -/
theorem exists_of_mem_written {w : Written} (hw : w ∈ written o d results) :
    (∃ outcome, (w.source, .ok outcome) ∈ results ∧ outcome.changed = true ∧
      w.source.target? o = some w.target ∧ w.text = outcome.output) ∧
    w.Stands w.disk ∧ results.foldl (settle o) d = w.later.foldl (settle o) w.disk := by
  induction results generalizing d with
  | nil => cases hw
  | cons x results ih =>
    rcases mem_written_cons.1 hw with ⟨hwrites, hsource, hdisk, hlater⟩ | hw
    · obtain ⟨⟨outcome, hx, hrest⟩, mode, hfile⟩ := (settle_result o d x).2 _ _ hwrites
      rw [List.foldl_cons, hdisk, hlater, hsource]
      exact ⟨⟨outcome, hx ▸ List.mem_cons_self, hrest⟩, ⟨mode, hfile⟩, rfl⟩
    · obtain ⟨⟨outcome, hs, hrest⟩, hstands, hfoldl⟩ := ih hw
      exact ⟨⟨outcome, List.mem_cons_of_mem _ hs, hrest⟩, hstands, hfoldl⟩

/-- The texts that are written after another one are those that are written from there on. -/
theorem written_pairwise (o : Output) (results : List (Source × Except Failure Outcome)) (d : Disk) :
    (written o d results).Pairwise fun w w' => w' ∈ written o w.disk w.later := by
  induction results generalizing d with
  | nil => exact .nil
  | cons x results ih =>
    rw [written]
    cases writes? o d x with
    | none => exact ih _
    | some y => exact List.pairwise_cons.2 ⟨fun w' => id, ih _⟩

/-! ## Texts that stand -/

theorem Written.Stands.exists_location {w : Written} (h : w.Stands d) :
    ∃ l, w.target.location? = some l := by
  obtain ⟨mode, hfile⟩ := h
  obtain ⟨l, hl, -⟩ := Disk.fileOf?_eq_some_iff.1 hfile
  exact ⟨l, (Disk.locate_eq_ok hl).1⟩

/-- A text stands at the end if nothing went to its place later. -/
theorem stands_of_spared {w : Written} (hw : w ∈ written o d results) (hspared : w.Spared o) :
    w.Stands (results.foldl (settle o) d) := by
  obtain ⟨-, ⟨mode, hfile⟩, hfoldl⟩ := exists_of_mem_written hw
  rw [hfoldl]
  refine ⟨mode, (foldl_settle_changes o w.later w.disk).fileOf? (fun m hm hchanges => ?_) hfile⟩
  rcases hchanges with ⟨w', hw', hm'⟩ | ⟨s, outcome, hs, hchanged, hcopies⟩
  · exact hspared.texts w' hw' ⟨m, hm, hm'⟩
  · exact hspared.copies s outcome hs hchanged m hcopies hm

/-- Without copies, one of the texts that went to a place stands there: the last one. -/
theorem exists_stands (hbackup : o.backup = false) {w : Written} (hw : w ∈ written o d results) :
    ∃ w' ∈ written o d results, w.target.Meet w'.target ∧
      w'.Stands (results.foldl (settle o) d) := by
  induction results generalizing d w with
  | nil => cases hw
  | cons x results ih =>
    -- What stands among the texts that are written later stands at the end.
    have hlater {w' : Written} (hw' : w' ∈ written o (settle o d x) results) :
        ∃ w'' ∈ written o d (x :: results), w'.target.Meet w''.target ∧
          w''.Stands ((x :: results).foldl (settle o) d) := by
      obtain ⟨w'', hw'', hrest⟩ := ih hw'
      exact ⟨w'', mem_written_cons.2 (.inr hw''), hrest⟩
    rcases mem_written_cons.1 hw with ⟨-, -, hdisk, hresults⟩ | hrest
    · by_cases hlast : ∀ w' ∈ written o (settle o d x) results, ¬ w.target.Meet w'.target
      · have hspared : w.Spared o := by
          refine ⟨by rwa [hdisk, hresults], fun s outcome _ _ m hcopies => ?_⟩
          rw [hcopies.1] at hbackup
          cases hbackup
        obtain ⟨-, hstands, -⟩ := exists_of_mem_written hw
        obtain ⟨l, hl⟩ := hstands.exists_location
        exact ⟨w, hw, ⟨l, hl, hl⟩, stands_of_spared hw hspared⟩
      · push Not at hlast
        obtain ⟨w', hw', l, hl, hl'⟩ := hlast
        obtain ⟨w'', hw'', ⟨m, hm, hm''⟩, hstands⟩ := hlater hw'
        obtain rfl := Option.some.inj (hl'.symm.trans hm)
        exact ⟨w'', hw'', ⟨l, hl, hm''⟩, hstands⟩
    · exact hlater hrest

/-- If at the place of every text one of them stands, as many targets hold their text as there are
targets. -/
theorem ncard_standing {ws : List Written}
    (h : ∀ w ∈ ws, ∃ w' ∈ ws, w.target.Meet w'.target ∧ w'.Stands d) :
    (standing d ws).ncard = (ws.filterMap fun w => w.target.location?).dedup.length := by
  have hstanding : standing d ws = (ws.filterMap fun w => w.target.location?).toFinset := by
    ext l
    rw [List.coe_toFinset, Set.mem_ofPred_eq, List.mem_filterMap]
    refine ⟨fun ⟨w, hw, hl, _⟩ => ⟨w, hw, hl⟩, fun ⟨w, hw, hl⟩ => ?_⟩
    obtain ⟨w', hw', ⟨m, hm, hm'⟩, hstands⟩ := h w hw
    obtain rfl := Option.some.inj (hl.symm.trans hm)
    exact ⟨w', hw', hm', hstands⟩
  rw [hstanding, Set.ncard_coe_finset, List.card_toFinset]

/-- Texts that are all spared go to as many places. -/
theorem length_dedup_of_spared (hspared : ∀ w ∈ written o d results, w.Spared o) :
    ((written o d results).filterMap fun w => w.target.location?).dedup.length =
      (written o d results).length := by
  have hnodup : ((written o d results).filterMap fun w => w.target.location?).Nodup := by
    refine List.Pairwise.filterMap _ (fun w w' hmeet l hl l' hl' heq => ?_)
      ((written_pairwise o results d).imp_of_mem fun hw _ hw' => (hspared _ hw).texts _ hw')
    exact hmeet ⟨l, hl, heq ▸ hl'⟩
  rw [hnodup.dedup, List.filterMap_length_eq_length]
  intro w hw
  obtain ⟨-, hstands, -⟩ := exists_of_mem_written hw
  obtain ⟨l, hl⟩ := hstands.exists_location
  rw [hl]
  rfl

/-- A source whose text can be written. -/
theorem writes?_of_persist {outcome : Outcome} (hchanged : outcome.changed = true)
    (h : (persist d o s outcome.output).2 = .ok true) (ht : s.target? o = some t) :
    writes? o d (s, .ok outcome) = some (t, outcome.output) ∧
      settle o d (s, .ok outcome) = (persist d o s outcome.output).1 := by
  rw [writes?, settle, if_pos hchanged, if_pos hchanged, h, ht]
  exact ⟨rfl, rfl⟩

/-- A run that tells what it did has settings, and its inputs stand for some sources. -/
theorem exists_settings {c : Command} {summary : Summary} (h : (run d c).summary = .ok summary) :
    ∃ settings sources, Run.settings d c = .ok settings ∧
      discover d c.inputs settings.extensions settings.exclude = .ok sources := by
  unfold run withSettings at h
  cases hsettings : Run.settings d c with
  | error e =>
    rw [hsettings] at h
    cases h
  | ok settings =>
    cases hsources : discover d c.inputs settings.extensions settings.exclude with
    | error e =>
      simp only [hsettings, hsources] at h
      cases h
    | ok sources => exact ⟨settings, sources, rfl, hsources⟩

end Run

/-- Every text that a run counts as written is the numbered text of a source and was written to its
target. At the end it is there, if nothing that was dealt with later went to the same file, neither a
text nor a backup; and if that holds of all of them, as many targets hold their text as are counted.
Without backups, a target that was written to always holds the last text that went there, so there are
as many of them as places that texts went to. -/
theorem texts_written {d : Disk} {c : Command} {summary : Summary}
    (h : (run d c).summary = .ok summary) :
    ∃ settings sources, Run.settings d c = .ok settings ∧
      discover d c.inputs settings.extensions settings.exclude = .ok sources ∧
      let results := sources.zip (Run.outcomes d settings sources)
      let ws := Run.written settings.output d results
      summary.written = ws.length ∧
      (∀ w ∈ ws, ∃ outcome, (w.source, .ok outcome) ∈ results ∧ outcome.changed = true ∧
        w.source.target? settings.output = some w.target ∧ w.text = outcome.output) ∧
      (∀ w ∈ ws, w.Spared settings.output → w.Stands (run d c).disk) ∧
      ((∀ w ∈ ws, w.Spared settings.output) →
        (Run.standing (run d c).disk ws).ncard = summary.written) ∧
      (settings.backup = false →
        (∀ w ∈ ws, ∃ w' ∈ ws, w.target.Meet w'.target ∧ w'.Stands (run d c).disk) ∧
        (Run.standing (run d c).disk ws).ncard =
          (ws.filterMap fun w => w.target.location?).dedup.length) := by
  obtain ⟨settings, sources, hsettings, hsources⟩ := Run.exists_settings h
  refine ⟨settings, sources, hsettings, hsources, ?_⟩
  intro results ws
  have hdisk : (run d c).disk = results.foldl (Run.settle settings.output) d :=
    Run.disk_run hsettings hsources
  have hcount : summary.written = ws.length := by
    have hsummary := Except.ok.inj (h.symm.trans (Run.summary_run hsettings hsources))
    rw [hsummary, Run.writeAll, Run.written_foldl]
    exact Nat.zero_add _
  rw [hdisk]
  refine ⟨hcount, fun w hw => (Run.exists_of_mem_written hw).1,
    fun w hw => Run.stands_of_spared hw, fun hspared => ?_, fun hbackup => ?_⟩
  · rw [hcount, ← Run.length_dedup_of_spared hspared]
    refine Run.ncard_standing fun w hw => ?_
    have hstands := Run.stands_of_spared hw (hspared w hw)
    obtain ⟨l, hl⟩ := hstands.exists_location
    exact ⟨w, hw, ⟨l, hl, hl⟩, hstands⟩
  · have hstands (w : Run.Written) (hw : w ∈ ws) := Run.exists_stands hbackup hw
    exact ⟨hstands, Run.ncard_standing hstands⟩

/-! ## Texts side by side -/

/-- A disk with two files of one name, and one that has the name of a backup. -/
def sameNames : Disk := ⟨[
  ("x", .directory [
    ("a.py", .file ⟨"result.error('x')\n".toUTF8, 0o644⟩),
    ("a.py.bak", .file ⟨"result.error('y')\n".toUTF8, 0o644⟩)]),
  ("y", .directory [("a.py", .file ⟨"result.error('y')\n".toUTF8, 0o644⟩)])]⟩

/-- Numbering another text from 101. -/
theorem exists_fixText_otherCall : ∃ outcome,
    (fixText true "result.error('y')\n" ⟨100⟩).1 = .ok outcome ∧
      outcome.output = "result.error(101, 'y')\n" := by
  have htext : numberedText true "result.error('y')\n" = "result.error('y')\n" := by decide
  have hlex : lex "result.error('y')\n" = Lexeme.sound [⟨.ident, "result"⟩, ⟨.dot, "."⟩, ⟨.ident, "error"⟩,
      ⟨.lParen, "("⟩, ⟨.str, "'y'"⟩, ⟨.rParen, ")"⟩, ⟨.newline, "\n"⟩] := by cbv
  have hpatched : Patched 0 [⟨13, "", "101, "⟩] "result.error('y')\n" "result.error(101, 'y')\n" :=
    ⟨"result.error(", "'y')\n", "'y')\n", by decide, by decide, rfl, rfl⟩
  obtain ⟨outcome, s', hfix, hout⟩ := exists_output_of_lex true ⟨100⟩ htext hlex (by decide +kernel)
    (by decide +kernel) (by decide) hpatched
  exact ⟨outcome, congrArg Prod.fst hfix, hout⟩

/-- Numbering the files from 101. -/
theorem exists_outcomes_sameNames : ∃ x y : Outcome, x.changed = true ∧ y.changed = true ∧
    x.output = "result.error(101, 'x')\n" ∧ y.output = "result.error(101, 'y')\n" ∧
    ∀ settings : Settings, settings.scope = .perFile → settings.seed? = some 100 →
      settings.dedent = true → ∀ sources : List Source,
        (∀ s ∈ sources, s.path ∈ [⟨"x/a.py"⟩, ⟨"x/a.py.bak"⟩, ⟨"y/a.py"⟩]) →
        Run.outcomes sameNames settings sources =
          sources.map fun s => .ok (if s.path = ⟨"x/a.py"⟩ then x else y) := by
  obtain ⟨x, hx, hxtext⟩ := exists_fixText_oneCall
  obtain ⟨y, hy, hytext⟩ := exists_fixText_otherCall
  refine ⟨x, y, ?_, ?_, hxtext, hytext, fun settings hscope hseed hdedent sources hpath => ?_⟩
  · rw [Outcome.changed, Run.before_of_fixText hx, hxtext]
    decide
  · rw [Outcome.changed, Run.before_of_fixText hy, hytext]
    decide
  · rw [Run.outcomes_perFile hscope]
    refine List.map_congr_left fun s hs => ?_
    have hfix {text : String} {outcome : Outcome}
        (hfile : sameNames.fileOf? s.path = some ⟨text.toUTF8, 0o644⟩)
        (h : (fixText true text ⟨100⟩).1 = .ok outcome) :
        (fixFile sameNames settings.dedent s.path ⟨Run.seedOf settings s.path⟩).1 = .ok outcome := by
      rw [hdedent, Run.seedOf, hseed, Option.getD_some, Run.fixFile_of_text hfile, h]
      rfl
    have hs := hpath s hs
    simp only [List.mem_cons, List.not_mem_nil, or_false] at hs
    rcases hs with hs | hs | hs
    · rw [if_pos hs]
      exact hfix (by rw [hs]; rfl) hx
    · rw [if_neg (by rw [hs]; decide)]
      exact hfix (by rw [hs]; rfl) hy
    · rw [if_neg (by rw [hs]; decide)]
      exact hfix (by rw [hs]; rfl) hy

/-- Two texts that can be written, one after the other, are both counted. -/
theorem written_pair {d : Disk} {c : Command} {settings : Settings} {o : Output} {a b : Source}
    {x y : Outcome} {t u : Path} (hsettings : Run.settings d c = .ok settings)
    (hsources : discover d c.inputs settings.extensions settings.exclude = .ok [a, b])
    (hresults : Run.outcomes d settings [a, b] = [.ok x, .ok y]) (ho : settings.output = o)
    (hx : x.changed = true) (hy : y.changed = true)
    (ht : a.target? o = some t) (hu : b.target? o = some u)
    (ha : (Run.persist d o a x.output).2 = .ok true)
    (hb : (Run.persist (Run.persist d o a x.output).1 o b y.output).2 = .ok true) :
    let d₁ := (Run.persist d o a x.output).1
    let d₂ := (Run.persist d₁ o b y.output).1
    (run d c).disk = d₂ ∧ (run d c).summary.toOption.map Summary.written = some 2 ∧
      Run.written settings.output d ([a, b].zip (Run.outcomes d settings [a, b])) =
        [⟨a, t, x.output, d₁, [(b, .ok y)]⟩, ⟨b, u, y.output, d₂, []⟩] := by
  intro d₁ d₂
  obtain ⟨hxwrites, hxdisk⟩ := Run.writes?_of_persist hx ha ht
  obtain ⟨hywrites, hydisk⟩ := Run.writes?_of_persist hy hb hu
  have hwritten : Run.written o d [(a, .ok x), (b, .ok y)] =
      [⟨a, t, x.output, d₁, [(b, .ok y)]⟩, ⟨b, u, y.output, d₂, []⟩] := by
    rw [Run.written, hxwrites, hxdisk, Run.written, hywrites, hydisk]
    rfl
  rw [Run.disk_run hsettings hsources, Run.summary_run hsettings hsources, hresults, ho]
  refine ⟨?_, ?_, hwritten⟩
  · rw [List.zip_cons_cons, List.zip_cons_cons, List.foldl_cons, hxdisk, List.foldl_cons, hydisk]
    rfl
  · show some (Run.writeAll _ _ _).summary.written = _
    rw [Run.writeAll, Run.written_foldl]
    exact congrArg (fun ws : List Run.Written => some (0 + ws.length)) hwritten

/-- Of two texts, the first one is spared if the second one does not go to the same place. -/
theorem spared_pair {o : Output} {d₁ d₂ : Disk} {a b : Source} {t u : Path} {text text' : String}
    {result : Except Failure Outcome} (hbackup : o.backup = false) (hu : b.target? o = some u)
    (hmeet : ¬ t.Meet u) (w : Run.Written)
    (hw : w ∈ [⟨a, t, text, d₁, [(b, result)]⟩, ⟨b, u, text', d₂, []⟩]) : w.Spared o := by
  have hcopies {s : Source} {m : Location} (hm : Run.Copies o s m) : False := by
    have hcopied := hm.1
    rw [hbackup] at hcopied
    cases hcopied
  rcases List.mem_pair.1 hw with rfl | rfl
  · refine ⟨fun w' hw' => ?_, fun s outcome _ _ m hm => (hcopies hm).elim⟩
    obtain ⟨⟨outcome, hs, -, ht, -⟩, -⟩ := Run.exists_of_mem_written hw'
    rw [(Prod.mk.inj (List.mem_singleton.1 hs)).1] at ht
    rwa [← Option.some.inj (hu.symm.trans ht)]
  · exact ⟨fun w' hw' => (by cases hw'), fun s outcome _ _ m hm => (hcopies hm).elim⟩

theorem persist_ownTargets :
    let o : Output := ⟨true, none, none, false⟩
    let first := Run.persist sameNames o ⟨⟨"x"⟩, ⟨"x/a.py"⟩⟩ "result.error(101, 'x')\n"
    first.2 = .ok true ∧
      (Run.persist first.1 o ⟨⟨"y"⟩, ⟨"y/a.py"⟩⟩ "result.error(101, 'y')\n").2 = .ok true :=
  ⟨by rfl, by rfl⟩

/-- Two texts that go over their sources are both there at the end. -/
theorem texts_written_apart :
    let c : Command := ⟨[⟨"x"⟩, ⟨"y"⟩], none, { seed? := some 100 }⟩
    ∃ summary, (run sameNames c).summary = .ok summary ∧ ∃ ws : List Run.Written,
      ws.map (fun w => (w.target, w.text)) =
        [(⟨"x/a.py"⟩, "result.error(101, 'x')\n"), (⟨"y/a.py"⟩, "result.error(101, 'y')\n")] ∧
      (∀ w ∈ ws, w.Stands (run sameNames c).disk) ∧ summary.written = 2 ∧
      (Run.standing (run sameNames c).disk ws).ncard = 2 := by
  intro c
  obtain ⟨x, y, hx, hy, hxtext, hytext, houtcomes⟩ := exists_outcomes_sameNames
  let sources : List Source := [⟨⟨"x"⟩, ⟨"x/a.py"⟩⟩, ⟨⟨"y"⟩, ⟨"y/a.py"⟩⟩]
  have hsettings : Run.settings sameNames c = .ok (Settings.default.merge c.overrides) := rfl
  have hsources : discover sameNames c.inputs (Settings.default.merge c.overrides).extensions
      (Settings.default.merge c.overrides).exclude = .ok sources := rfl
  have hresults : Run.outcomes sameNames (Settings.default.merge c.overrides) sources =
      [.ok x, .ok y] := houtcomes _ rfl rfl rfl sources (by simp [sources])
  obtain ⟨hfirst, hsecond⟩ := persist_ownTargets
  rw [← hxtext, ← hytext] at hsecond
  rw [← hxtext] at hfirst
  obtain ⟨-, hcount, hwritten⟩ :=
    written_pair hsettings hsources hresults rfl hx hy rfl rfl hfirst hsecond
  cases h : (run sameNames c).summary with
  | error e =>
    rw [h] at hcount
    cases hcount
  | ok summary =>
    obtain ⟨settings, sources', hsettings', hsources', hrun⟩ := texts_written h
    obtain rfl := Except.ok.inj (hsettings.symm.trans hsettings')
    obtain rfl := Except.ok.inj (hsources.symm.trans hsources')
    obtain ⟨hlength, -, hstands, hstanding, -⟩ := hrun
    have hxl : (⟨"x/a.py"⟩ : Path).location? = some ["x", "a.py"] := rfl
    have hyl : (⟨"y/a.py"⟩ : Path).location? = some ["y", "a.py"] := rfl
    have hmeet := Path.not_meet_of_ne hxl hyl (by decide)
    have htarget : (⟨⟨"y"⟩, ⟨"y/a.py"⟩⟩ : Source).target?
        (Settings.default.merge c.overrides).output = some ⟨"y/a.py"⟩ := rfl
    rw [hwritten] at hlength hstands hstanding
    refine ⟨summary, rfl, _, ?_, fun w hw => hstands w hw (spared_pair rfl htarget hmeet w hw),
      hlength, ?_⟩
    · rw [← hxtext, ← hytext]
      rfl
    · rw [hstanding (spared_pair rfl htarget hmeet), hlength]
      rfl

/-! ## Texts that are lost -/

theorem persist_sharedTarget :
    let o : Output := ⟨false, some ⟨"out"⟩, none, false⟩
    let first := Run.persist sameNames o ⟨⟨"x"⟩, ⟨"x/a.py"⟩⟩ "result.error(101, 'x')\n"
    let second := Run.persist first.1 o ⟨⟨"y"⟩, ⟨"y/a.py"⟩⟩ "result.error(101, 'y')\n"
    first.2 = .ok true ∧ second.2 = .ok true ∧ second.1.fileOf? ⟨"out/a.py"⟩ =
      some ⟨"result.error(101, 'y')\n".toUTF8, 0o600⟩ := ⟨by rfl, by rfl, by rfl⟩

theorem persist_sharedCopy :
    let o : Output := ⟨true, none, none, true⟩
    let first := Run.persist sameNames o ⟨⟨"x"⟩, ⟨"x/a.py.bak"⟩⟩ "result.error(101, 'y')\n"
    let second := Run.persist first.1 o ⟨⟨"x"⟩, ⟨"x/a.py"⟩⟩ "result.error(101, 'x')\n"
    first.2 = .ok true ∧ second.2 = .ok true ∧ second.1.fileOf? ⟨"x/a.py.bak"⟩ =
      some ⟨"result.error('x')\n".toUTF8, 0o644⟩ := ⟨by rfl, by rfl, by rfl⟩

/-- Two texts go to one target, and both are counted, but the target has only the second one. A text
that went over its source is lost when the next source is copied, as its backup has that name. -/
theorem texts_lost :
    (let c : Command := ⟨[⟨"x"⟩, ⟨"y"⟩], none,
        { seed? := some 100, write? := some false, directory? := some ⟨"out"⟩ }⟩
      let settings := Settings.default.merge c.overrides
      let sources : List Source := [⟨⟨"x"⟩, ⟨"x/a.py"⟩⟩, ⟨⟨"y"⟩, ⟨"y/a.py"⟩⟩]
      Run.settings sameNames c = .ok settings ∧
        discover sameNames c.inputs settings.extensions settings.exclude = .ok sources ∧
        (run sameNames c).summary.toOption.map Summary.written = some 2 ∧
        ((Run.written settings.output sameNames
          (sources.zip (Run.outcomes sameNames settings sources))).map fun w => (w.target, w.text)) =
            [(⟨"out/a.py"⟩, "result.error(101, 'x')\n"), (⟨"out/a.py"⟩, "result.error(101, 'y')\n")] ∧
        (run sameNames c).disk.fileOf? ⟨"out/a.py"⟩ =
          some ⟨"result.error(101, 'y')\n".toUTF8, 0o600⟩) ∧
    let c : Command :=
      ⟨[⟨"x/a.py.bak"⟩, ⟨"x/a.py"⟩], none, { seed? := some 100, backup? := some true }⟩
    let settings := Settings.default.merge c.overrides
    let sources : List Source := [⟨⟨"x"⟩, ⟨"x/a.py.bak"⟩⟩, ⟨⟨"x"⟩, ⟨"x/a.py"⟩⟩]
    Run.settings sameNames c = .ok settings ∧
      discover sameNames c.inputs settings.extensions settings.exclude = .ok sources ∧
      (run sameNames c).summary.toOption.map Summary.written = some 2 ∧
      ((Run.written settings.output sameNames
        (sources.zip (Run.outcomes sameNames settings sources))).map fun w => (w.target, w.text)) =
          [(⟨"x/a.py.bak"⟩, "result.error(101, 'y')\n"), (⟨"x/a.py"⟩, "result.error(101, 'x')\n")] ∧
      (run sameNames c).disk.fileOf? ⟨"x/a.py.bak"⟩ =
        some ⟨"result.error('x')\n".toUTF8, 0o644⟩ := by
  obtain ⟨x, y, hx, hy, hxtext, hytext, houtcomes⟩ := exists_outcomes_sameNames
  refine ⟨?_, ?_⟩
  · intro c settings sources
    have hsettings : Run.settings sameNames c = .ok settings := rfl
    have hsources : discover sameNames c.inputs settings.extensions settings.exclude = .ok sources :=
      rfl
    have hresults : Run.outcomes sameNames settings sources = [.ok x, .ok y] :=
      houtcomes settings rfl rfl rfl sources (by simp [sources])
    obtain ⟨hfirst, hsecond, hfile⟩ := persist_sharedTarget
    rw [← hxtext, ← hytext] at hsecond hfile
    rw [← hxtext] at hfirst
    obtain ⟨hdisk, hcount, hwritten⟩ :=
      written_pair hsettings hsources hresults rfl hx hy rfl rfl hfirst hsecond
    refine ⟨hsettings, hsources, hcount, ?_, hdisk ▸ hytext ▸ hfile⟩
    rw [hwritten, ← hxtext, ← hytext]
    rfl
  · intro c settings sources
    have hsettings : Run.settings sameNames c = .ok settings := rfl
    have hsources : discover sameNames c.inputs settings.extensions settings.exclude = .ok sources :=
      rfl
    have hresults : Run.outcomes sameNames settings sources = [.ok y, .ok x] :=
      houtcomes settings rfl rfl rfl sources (by simp [sources])
    obtain ⟨hfirst, hsecond, hfile⟩ := persist_sharedCopy
    rw [← hxtext, ← hytext] at hsecond hfile
    rw [← hytext] at hfirst
    obtain ⟨hdisk, hcount, hwritten⟩ :=
      written_pair hsettings hsources hresults rfl hy hx rfl rfl hfirst hsecond
    refine ⟨hsettings, hsources, hcount, ?_, hdisk ▸ hfile⟩
    rw [hwritten, ← hxtext, ← hytext]
    rfl

end Renumber
