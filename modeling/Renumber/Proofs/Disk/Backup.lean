import Renumber.Disk.Backup
import Renumber.Proofs.Disk.Over

/-!
# What a backup leaves when it fails

A backup that fails leaves every file but an older copy as it was, and an older copy is lost only if it
was out of the way when the new one could not be made (`Disk.backUpUnder_refused`). That is so by the order
of its steps: the older copy goes before the file is looked at, so that a backup of nothing takes the older
copy away (`Disk.backUp_loses_copy`). A file that is there has room for its copy once the older one is gone
(`Disk.spot_of_kept`), so without a step that fails by itself a refused backup of a file changes nothing.
-/

namespace Renumber.Disk

variable {d d' : Disk} {l : Location} {p q : Path} {f g : File} {faults : BackupFaults}

/-! ## A file and its backup -/

/-- A file is not its own backup. -/
theorem not_meet_backup (hp : d.fileOf? p = some f) : ¬ p.Meet p.backup := by
  rintro ⟨l, hl, hbak⟩
  obtain ⟨m, hm, hfile⟩ := fileOf?_eq_some_iff.1 hp
  obtain ⟨l₀, name, rfl, hname⟩ := location?_backup_of_file hm hfile
  rw [(locate_eq_ok hm).1] at hl
  rw [hname] at hbak
  have hsame := Option.some.inj (hl.trans hbak.symm)
  have hlength := congrArg String.length (List.cons.inj (List.append_cancel_left hsame)).1
  rw [String.length_append, show ".bak".length = 4 from rfl] at hlength
  omega

/-- Two files with one backup are one file. -/
theorem meet_of_backup (hp : d.fileOf? p = some f) (hq : d.fileOf? q = some g)
    (h : p.backup.Meet q.backup) : p.Meet q := by
  obtain ⟨l, hlp, hlq⟩ := h
  obtain ⟨lp, hp, hpfile⟩ := fileOf?_eq_some_iff.1 hp
  obtain ⟨lq, hq, hqfile⟩ := fileOf?_eq_some_iff.1 hq
  obtain ⟨p₀, pname, rfl, hpbak⟩ := location?_backup_of_file hp hpfile
  obtain ⟨q₀, qname, rfl, hqbak⟩ := location?_backup_of_file hq hqfile
  rw [hpbak] at hlp
  rw [hqbak] at hlq
  obtain ⟨rfl, hname⟩ := List.append_inj' (Option.some.inj (hlp.trans hlq.symm)) rfl
  obtain rfl := (String.append_left_inj _).1 (List.cons.inj hname).1
  exact ⟨_, (locate_eq_ok hp).1, (locate_eq_ok hq).1⟩

/-- A file whose backup cannot be made stays. -/
theorem fileOf?_of_backUp_error {e : Failure} (hp : d.fileOf? p = some f)
    (h : d.backUp p = (d', .error e)) : d'.fileOf? p = some f := by
  obtain ⟨hkept, hsame⟩ := backUp_error h
  obtain ⟨l, hl, hfile⟩ := fileOf?_eq_some_iff.1 hp
  have hthere := hsame l fun hbak => not_meet_backup hp ⟨l, (locate_eq_ok hl).1, hbak⟩
  exact fileOf?_of_kept hkept hl (hthere.trans hfile)

/-- A file that is backed up stays, and its backup holds it. -/
theorem fileOf?_of_backUp_ok (hp : d.fileOf? p = some f)
    (h : d.backUp p = (d', .ok q)) : d'.fileOf? p = some f ∧ d'.fileOf? p.backup = some f := by
  obtain ⟨l, g, hg, hl, hwrote⟩ := backUp_ok h
  obtain rfl := Option.some.inj (hp.symm.trans hg)
  have hspares : d.Spares d' (· = l) := hwrote.spares rfl
  refine ⟨hspares.fileOf? (fun m hm hml => ?_) hp, fileOf?_eq_some_iff.2 ⟨l, hl, hwrote.file⟩⟩
  exact not_meet_backup hp ⟨m, hm, hml ▸ (locate_eq_ok hl).1⟩

/-! ## The steps of a backup -/

theorem guard_of_fault {step : BackupStep} {e : SystemError} (h : faults.guard step = .error e) :
    faults.fault? step ≠ none := by
  unfold BackupFaults.guard at h
  intro hnone
  rw [hnone] at h
  cases h

theorem guard_of_none {step : BackupStep} (h : faults.fault? step = none) :
    faults.guard step = .ok () := by
  rw [BackupFaults.guard, h]

theorem fileToCopy_eq : d.fileToCopy p = match d.follow p with
    | .error e => .error e
    | .ok (.directory _) => .error .notRegular
    | .ok (.file f) => .ok f := by
  unfold fileToCopy
  cases d.follow p with
  | error e => rfl
  | ok x => cases x <;> rfl

theorem fileToCopy_eq_ok_iff : d.fileToCopy p = .ok f ↔ d.fileOf? p = some f := by
  rw [fileToCopy_eq, fileOf?]
  split <;> simp_all

theorem copy_eq : d.copy p q = (do
    let f ← d.fileToCopy p
    let l ← d.placeOfCopy q
    return d.put l (.file f)) := by
  unfold copy fileToCopy placeOfCopy
  cases d.follow p with
  | error e => rfl
  | ok x =>
    cases x with
    | directory => rfl
    | file f =>
      cases d.spot q with
      | error e => rfl
      | ok spot =>
        rcases spot with _ | ⟨l, (_ | ⟨_ | _⟩), _ | _⟩ <;> rfl

/-- A copy has a place where no directory is. -/
theorem free_of_placeOfCopy (h : d.placeOfCopy p = .ok l) : p.location? = some l ∧ d.Free l := by
  unfold placeOfCopy at h
  obtain ⟨spot, hspot, h⟩ := bind_eq_ok_iff.1 h
  split at h
  · cases h
  · cases h
  · cases h
  · rename_i hfound
    cases h
    exact ⟨(spot_eq_location hspot).1, free_of_spot hspot fun es h => hfound es h⟩

/-- A spot without a slash behind is one on every disk that has the directories on the way. -/
theorem spot_of_kept {found? : Option Node} (h : d.spot p = .ok (.location l found? false))
    (hkept : d.DirectoriesKept d') : ∃ found?', d'.spot p = .ok (.location l found?' false) := by
  obtain ⟨before, name, ws, l₀, hp, hsegments, -, hslash, hfill, hup, rfl, hl₀, hfound⟩ :=
    exists_name_of_spot h
  obtain rfl : ws = [] := by simpa using hslash
  have hdir := hkept l₀ (lookUp_eq_ok hfound).1
  obtain ⟨es, hes⟩ := holding?_eq_directory_iff.1 hdir
  have hbefore := foldlM_enter_of_kept hkept hl₀ (by rw [hdir]; rfl)
  refine ⟨Node.find? name es, ?_⟩
  rw [spot_of_name hp hsegments hfill hup hbefore hes, lookUp_of_directory hes (short_of_lookUp hfound)]
  rfl

theorem removeFile_eq_ok_iff : d.removeFile p = .ok d' ↔
    ∃ l g, d.locate p = .ok l ∧ d.holding? l = some (.file g) ∧ d' = d.erase l := by
  refine ⟨removeFile_eq_ok, ?_⟩
  rintro ⟨l, g, hl, hfile, rfl⟩
  unfold removeFile
  rw [spot_of_file hl hfile]
  rfl

/-- Where a file has been removed there is a place for a copy. -/
theorem exists_placeOfCopy (h : d.removeFile p = .ok d') : ∃ l, d'.placeOfCopy p = .ok l := by
  obtain ⟨l, g, hl, hfile, rfl⟩ := removeFile_eq_ok_iff.1 h
  obtain ⟨found?, hspot⟩ := spot_of_kept (spot_of_file hl hfile) (kept_of_erase hfile)
  have hthere := (spot_eq_location hspot).2.2.2
  rw [holding?_erase hfile, if_pos rfl, Option.map_eq_none_iff] at hthere
  subst hthere
  refine ⟨l, ?_⟩
  unfold placeOfCopy
  rw [hspot]
  rfl

/-- What is a file after a removal was one before. -/
theorem fileOf?_of_erase (hfile : d.holding? l = some (.file g)) (h : (d.erase l).fileOf? p = some f) :
    d.fileOf? p = some f := by
  have hholding (m : Location) : (d.erase l).holding? m = if m = l then none else d.holding? m :=
    holding?_erase hfile m
  obtain ⟨m, hm, hf⟩ := fileOf?_eq_some_iff.1 h
  rw [hholding] at hf
  split at hf
  · cases hf
  · refine fileOf?_of_kept (fun k hk => ?_) hm hf
    rw [hholding] at hk
    split at hk
    · cases hk
    · exact hk

/-! ## A backup that fails -/

/-- A disk with what another one holds, but for the place that a path leads to; and no directory is gone. -/
structure SameBut (p : Path) (d d' : Disk) : Prop where
  directories : d.DirectoriesKept d'
  beside : ∀ m, p.location? ≠ some m → d'.holding? m = d.holding? m

theorem SameBut.trans {d'' : Disk} (h : SameBut p d d') (h' : SameBut p d' d'') : SameBut p d d'' where
  directories m hm := h'.directories m (h.directories m hm)
  beside m hm := (h'.beside m hm).trans (h.beside m hm)

theorem SameBut.fileOf? (h : SameBut q d d') (hp : ¬ p.Meet q) (hf : d.fileOf? p = some f) :
    d'.fileOf? p = some f := by
  obtain ⟨l, hl, hfile⟩ := fileOf?_eq_some_iff.1 hf
  have hthere := h.beside l fun hq => hp ⟨l, (locate_eq_ok hl).1, hq⟩
  exact fileOf?_of_kept h.directories hl (hthere.trans hfile)

theorem sameBut_put (hl : p.location? = some l) (h : d.Free l) (f : File) :
    SameBut p d (d.put l (.file f)) where
  directories := (wrote_put h f).directoriesKept
  beside m hm := by
    rw [holding?_put h rfl, if_neg]
    rintro rfl
    exact hm hl

theorem sameBut_erase (hl : p.location? = some l) (hfile : d.holding? l = some (.file g)) :
    SameBut p d (d.erase l) where
  directories := kept_of_erase hfile
  beside m hm := by
    rw [holding?_erase hfile, if_neg]
    rintro rfl
    exact hm hl

/-- A copy that is not opened has nothing to copy or no place, or one of its steps fails by itself. -/
theorem openCopy_error {e : SystemError} (h : d.openCopy faults p q = .error e) :
    d.fileOf? p = none ∨ faults.InCopy ∨ ∀ l, d.placeOfCopy q ≠ .ok l := by
  cases hf : d.fileToCopy p with
  | error =>
    refine .inl (Option.eq_none_iff_forall_ne_some.2 fun f hfile => ?_)
    rw [fileToCopy_eq_ok_iff.2 hfile] at hf
    cases hf
  | ok f =>
    unfold openCopy at h
    rw [hf] at h
    cases hread : faults.guard .read with
    | error => exact .inr (.inl ⟨.read, rfl, guard_of_fault hread⟩)
    | ok =>
      cases hplace : d.placeOfCopy q with
      | error => exact .inr (.inr fun l hl => by cases hl)
      | ok l =>
        cases hcreate : faults.guard .create with
        | error => exact .inr (.inl ⟨.create, rfl, guard_of_fault hcreate⟩)
        | ok =>
          simp only [hread, hplace, hcreate, bind, Except.bind] at h
          cases h

/-- A copy that fails leaves the disk as it was, or it has been made and not completed. -/
theorem copyUnder_error {e : SystemError} (h : d.copyUnder faults p q = (d', .error e)) :
    d' = d ∧ (d.fileOf? p = none ∨ faults.InCopy ∨ ∀ l, d.placeOfCopy q ≠ .ok l) ∨
      faults.InCopy ∧ SameBut q d d' := by
  unfold copyUnder at h
  split at h
  · rename_i hopen
    cases h
    exact .inl ⟨rfl, openCopy_error hopen⟩
  · rename_i f l hopen
    split at h
    · rename_i hcomplete
      cases h
      unfold openCopy at hopen
      obtain ⟨f, -, hopen⟩ := bind_eq_ok_iff.1 hopen
      obtain ⟨-, -, hopen⟩ := bind_eq_ok_iff.1 hopen
      obtain ⟨l', hplace, hopen⟩ := bind_eq_ok_iff.1 hopen
      obtain ⟨-, -, hopen⟩ := bind_eq_ok_iff.1 hopen
      cases hopen
      obtain ⟨hl, hfree⟩ := free_of_placeOfCopy hplace
      exact .inr ⟨⟨.complete, rfl, guard_of_fault hcomplete⟩, sameBut_put hl hfree _⟩
    · cases h

/-- The older copy is removed, or it is not touched. -/
theorem clearUnder_eq_ok (h : d.clearUnder faults q = .ok d') : d' = d ∨ d.removeFile q = .ok d' := by
  unfold clearUnder at h
  split at h
  · cases h
    exact .inl rfl
  · obtain ⟨d₁, hremove, h⟩ := bind_eq_ok_iff.1 h
    obtain ⟨-, -, h⟩ := bind_eq_ok_iff.1 h
    cases h
    exact .inr hremove

/-- A backup that fails leaves the disk as it was, or its copy failed and what has changed is the place of
the copy. Then there is no file to copy, or a step of the copy failed by itself. -/
theorem backUpUnder_error {e : Failure} (h : d.backUpUnder faults p = (d', .error e)) : d' = d ∨
    (∃ cause, e = .io .backUp p cause) ∧ (d.fileOf? p = none ∨ faults.InCopy) ∧
      SameBut p.backup d d' := by
  unfold backUpUnder at h
  dsimp only at h
  split at h
  · cases h
    exact .inl rfl
  · rename_i d₁ hcleared
    split at h
    · cases h
    · rename_i d₂ cause hcopy
      cases h
      rcases clearUnder_eq_ok hcleared with rfl | hremove
      · rcases copyUnder_error hcopy with ⟨rfl, -⟩ | ⟨hcopies, hsame⟩
        · exact .inl rfl
        · exact .inr ⟨⟨cause, rfl⟩, .inr hcopies, hsame⟩
      · obtain ⟨l, g, hl, hfile, rfl⟩ := removeFile_eq_ok_iff.1 hremove
        have hgone := sameBut_erase (locate_eq_ok hl).1 hfile
        refine .inr ⟨⟨cause, rfl⟩, ?_⟩
        rcases copyUnder_error hcopy with ⟨rfl, hnone | hcopies | hplace⟩ | ⟨hcopies, hsame⟩
        · -- The removal has not taken the file itself away.
          refine ⟨.inl ?_, hgone⟩
          by_contra hsome
          obtain ⟨f, hf⟩ := Option.ne_none_iff_exists'.1 hsome
          rw [hgone.fileOf? (not_meet_backup hf) hf] at hnone
          cases hnone
        · exact ⟨.inr hcopies, hgone⟩
        · obtain ⟨m, hm⟩ := exists_placeOfCopy hremove
          exact absurd hm (hplace m)
        · exact ⟨.inr hcopies, hgone.trans hsame⟩

section
variable (hnone : ∀ step, faults.fault? step = none)
include hnone

theorem clearUnder_of_none (d : Disk) (q : Path) :
    d.clearUnder faults q = if (d.follow q).isOk then d.removeFile q else .ok d := by
  unfold clearUnder
  simp only [guard_of_none (hnone _), bind, Except.bind]
  cases d.follow q with
  | error => rfl
  | ok x => cases d.removeFile q <;> rfl

theorem copyUnder_of_none (d : Disk) (p q : Path) :
    d.copyUnder faults p q = ((d.copy p q).toOption.getD d, (d.copy p q).map fun _ => ()) := by
  unfold copyUnder openCopy
  rw [copy_eq]
  simp only [guard_of_none (hnone _), bind, Except.bind]
  cases d.fileToCopy p with
  | error => rfl
  | ok f => cases d.placeOfCopy q <;> rfl

/-- Where no step fails by itself, a backup is that of a run. -/
theorem backUpUnder_of_none (d : Disk) (p : Path) : d.backUpUnder faults p = d.backUp p := by
  unfold backUpUnder backUp
  dsimp only
  rw [clearUnder_of_none hnone]
  cases d.follow p.backup with
  | error =>
    rw [Except.isOk, Except.toBool, if_neg (by decide)]
    dsimp only
    rw [copyUnder_of_none hnone]
    cases d.copy p p.backup <;> rfl
  | ok x =>
    rw [Except.isOk, Except.toBool, if_pos rfl]
    cases d.removeFile p.backup with
    | error => rfl
    | ok d₁ =>
      dsimp only
      rw [copyUnder_of_none hnone]
      cases d₁.copy p p.backup <;> rfl

end

/-- A backup of what is no file fails, and nothing changes if there is no older copy. -/
theorem backUp_of_no_copy (hp : d.fileOf? p = none) (hbak : d.fileOf? p.backup = none) :
    ∃ e, d.backUp p = (d, .error e) := by
  unfold backUp
  dsimp only
  split
  · exact ⟨_, rfl⟩
  · rename_i d₁ hcleared
    split at hcleared
    · obtain ⟨l, g, hl, hfile, -⟩ := removeFile_eq_ok_iff.1 hcleared
      rw [fileOf?_eq_some_iff.2 ⟨l, hl, hfile⟩] at hbak
      cases hbak
    · cases hcleared
      split
      · rename_i hcopy
        obtain ⟨-, f, hf, -⟩ := copy_eq_ok hcopy
        rw [hp] at hf
        cases hf
      · exact ⟨_, rfl⟩

/-- A backup of what is no file takes an older copy away. -/
theorem backUp_of_copy (hp : d.fileOf? p = none) (hl : d.locate p.backup = .ok l)
    (hfile : d.holding? l = some (.file g)) :
    ∃ cause, d.backUp p = (d.erase l, .error (.io .backUp p cause)) := by
  have hfollow := follow_eq_ok_iff.2 ⟨l, hl, holding?_eq_file_iff.1 hfile⟩
  have hremove := removeFile_eq_ok_iff.2 ⟨l, g, hl, hfile, rfl⟩
  unfold backUp
  dsimp only
  rw [hfollow]
  dsimp only
  rw [hremove]
  dsimp only
  split
  · rename_i hcopy
    obtain ⟨-, f, hf, -⟩ := copy_eq_ok hcopy
    rw [fileOf?_of_erase hfile hf] at hp
    cases hp
  · exact ⟨_, rfl⟩

/-- Whichever steps of a backup fail by themselves, a failed one leaves every file but an older copy as it
was, and none is added. If it has changed anything, it is the copy that failed, and either the path does not
lead to a file or a step of the copy failed by itself. If no step fails by itself, this is the backup of a
run. A backup of what is no file always fails: it takes away an older copy, and changes nothing if there is
none. -/
theorem backUpUnder_refused (faults : BackupFaults) (d : Disk) (p : Path) :
    (∀ d' e, d.backUpUnder faults p = (d', .error e) → d' = d ∨
      (∃ cause, e = .io .backUp p cause) ∧ (d.fileOf? p = none ∨ faults.InCopy) ∧
        SameBut p.backup d d') ∧
    ((∀ step, faults.fault? step = none) → d.backUpUnder faults p = d.backUp p) ∧
    (d.fileOf? p = none →
      (d.fileOf? p.backup = none → ∃ e, d.backUp p = (d, .error e)) ∧
      ∀ l g, d.locate p.backup = .ok l → d.holding? l = some (.file g) →
        ∃ d' cause, d.backUp p = (d', .error (.io .backUp p cause)) ∧
          ∀ m, d'.holding? m = if m = l then none else d.holding? m) := by
  refine ⟨fun d' e h => backUpUnder_error h, fun h => backUpUnder_of_none h d p, fun hp => ⟨?_, ?_⟩⟩
  · exact backUp_of_no_copy hp
  · intro l g hl hfile
    obtain ⟨cause, h⟩ := backUp_of_copy hp hl hfile
    exact ⟨d.erase l, cause, h, holding?_erase hfile⟩

/-- The backup of a file that is not there fails, and the copy that was kept earlier is gone. -/
theorem backUp_loses_copy :
    let d : Disk := ⟨[("a.py.bak", .file ⟨"old\n".toUTF8, 0o644⟩)]⟩
    d.fileOf? ⟨"a.py.bak"⟩ = some ⟨"old\n".toUTF8, 0o644⟩ ∧
      (d.backUp ⟨"a.py"⟩).2 = .error (.io .backUp ⟨"a.py"⟩ .notFound) ∧
      (d.backUp ⟨"a.py"⟩).1.fileOf? ⟨"a.py.bak"⟩ = none := by
  refine ⟨rfl, rfl, rfl⟩

end Renumber.Disk
