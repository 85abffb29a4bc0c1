import Renumber.Proofs.Disk.Location

/-!
# What a write leaves alone

Making directories adds directories and touches no file (`Disk.makeDirectories_grown`). How a write goes
is said once (`Disk.attempt_writeUnder`): a text that is written goes to the place that its path leads to,
and every other file stays (`Disk.writeUnder_ok`); if it cannot be written, every file stays
(`Disk.writeUnder_error`). A backup copies a file to the place of its backup path and touches nothing else (`Disk.backUp_ok`,
`Disk.backUp_error`). None of these takes a directory away.
-/

namespace Renumber.Disk

variable {d d' d'' : Disk} {l : Location} {p : Path} {f : File} {touched : Location → Prop}

/-- A disk with a file at a location, perhaps with more directories than before, and with the other
files as they were. -/
structure Wrote (d d' : Disk) (l : Location) (f : File) : Prop where
  file : d'.holding? l = some (.file f)
  there : d.holding? l ≠ some .directory
  beside : ∀ m, m ≠ l → d'.holding? m = d.holding? m ∨
    (d.holding? m = none ∧ d'.holding? m = some .directory)

theorem Wrote.directoriesKept (h : d.Wrote d' l f) : d.DirectoriesKept d' := by
  intro m hm
  rcases h.beside m (fun hl => h.there (hl ▸ hm)) with hsame | ⟨hnone, -⟩
  · rw [hsame, hm]
  · rw [hnone] at hm; cases hm

theorem Wrote.file_iff {m : Location} {g : File} (h : d.Wrote d' l f) (hm : m ≠ l) :
    d'.holding? m = some (.file g) ↔ d.holding? m = some (.file g) := by
  rcases h.beside m hm with hsame | ⟨hnone, hdir⟩
  · rw [hsame]
  · rw [hnone, hdir]
    constructor <;> intro h <;> cases h

/-- Directories that were made before do not matter. -/
theorem Wrote.of_grown {d₁ : Disk} (hgrown : d.Grown d₁) (h : d₁.Wrote d' l f) : d.Wrote d' l f where
  file := h.file
  there hdir := h.there (hgrown.directoriesKept l hdir)
  beside m hm := by
    rcases h.beside m hm with hsame | ⟨hnone, hdir⟩ <;> rcases hgrown m with hg | ⟨hg, hgdir⟩
    · exact .inl (hsame.trans hg)
    · exact .inr ⟨hg, hsame.trans hgdir⟩
    · exact .inr ⟨hg ▸ hnone, hdir⟩
    · exact .inr ⟨hg, hdir⟩

/-- No directory of a disk is gone on another one, and the files are the same but for some
locations. -/
structure Spares (d d' : Disk) (touched : Location → Prop) : Prop where
  directories : d.DirectoriesKept d'
  file_iff : ∀ {m f}, ¬ touched m → (d'.holding? m = some (.file f) ↔ d.holding? m = some (.file f))

theorem Spares.refl (d : Disk) (touched : Location → Prop) : d.Spares d touched :=
  ⟨fun _ => id, fun _ => .rfl⟩

theorem Spares.trans (h : d.Spares d' touched) (h' : d'.Spares d'' touched) :
    d.Spares d'' touched where
  directories m hm := h'.directories m (h.directories m hm)
  file_iff hm := (h'.file_iff hm).trans (h.file_iff hm)

theorem Spares.mono {touched' : Location → Prop} (h : d.Spares d' touched)
    (himp : ∀ m, touched m → touched' m) : d.Spares d' touched' where
  directories := h.directories
  file_iff hm := h.file_iff fun ht => hm (himp _ ht)

theorem Grown.spares (h : d.Grown d') : d.Spares d' touched where
  directories := h.directoriesKept
  file_iff _ := h.file_iff

theorem Wrote.spares (h : d.Wrote d' l f) (hl : touched l) : d.Spares d' touched where
  directories := h.directoriesKept
  file_iff hm := h.file_iff fun hml => hm (hml ▸ hl)

/-- A path that leads to no location concerned leads to the same file. -/
theorem Spares.fileOf? (h : d.Spares d' touched) (hp : ∀ m, p.location? = some m → ¬ touched m)
    (hf : d.fileOf? p = some f) : d'.fileOf? p = some f := by
  obtain ⟨l, hl, hfile⟩ := fileOf?_eq_some_iff.1 hf
  exact fileOf?_of_kept h.directories hl ((h.file_iff (hp l (locate_eq_ok hl).1)).2 hfile)

theorem wrote_put (h : d.Free l) (f : File) : d.Wrote (d.put l (.file f)) l f where
  file := by rw [holding?_put h rfl, if_pos rfl]; rfl
  there := h.there
  beside m hm := .inl (by rw [holding?_put h rfl, if_neg hm])

/-- A spot where no directory is. -/
theorem free_of_spot {found? : Option Node} {slash : Bool}
    (h : d.spot p = .ok (.location l found? slash)) (hfound : ∀ es, found? ≠ some (.directory es)) :
    d.Free l := by
  obtain ⟨-, hne, hparent, hthere⟩ := spot_eq_location h
  refine ⟨hne, hparent, fun hdir => ?_⟩
  rw [hdir, Option.map_eq_some_iff] at hthere
  obtain ⟨x, rfl, hx⟩ := hthere
  obtain ⟨es, rfl⟩ := Node.exists_directory_of_holding hx
  exact hfound es rfl

/-! ## Directories -/

theorem makeDirectory_grown (h : d.makeDirectory p = .ok d') : d.Grown d' := by
  unfold makeDirectory at h
  obtain ⟨spot, hspot, h⟩ := bind_eq_ok_iff.1 h
  split at h
  · cases h
  · cases h
  · rename_i l _
    cases h
    have hnone : d.holding? l = none := (spot_eq_location hspot).2.2.2.symm
    intro m
    rw [holding?_put (free_of_spot hspot fun es h => by cases h) rfl]
    by_cases hm : m = l
    · subst hm
      rw [if_pos rfl]
      exact .inr ⟨hnone, rfl⟩
    · rw [if_neg hm]
      exact .inl rfl

section
variable {make : Disk → Path → Except SystemError Disk}
  (hmake : ∀ {d p d'}, make d p = .ok d' → d.Grown d')
include hmake

theorem madeOrThere_grown (d : Disk) (p : Path) : d.Grown (d.madeOrThere make p).1 := by
  unfold madeOrThere
  split
  · rename_i h
    exact hmake h
  · split <;> exact .refl d

theorem makeLevels_grown (d : Disk) (bound : Nat) (p : Path) :
    d.Grown (d.makeLevels make bound p).1 := by
  induction bound generalizing d p with
  | zero => exact .refl d
  | succ bound ih =>
    rw [makeLevels]
    split
    · exact .refl d
    · split
      · rename_i q _ _
        have hq := ih d q
        split <;> rename_i h <;> rw [h] at hq
        · exact hq.trans (madeOrThere_grown hmake _ p)
        · exact hq
      · exact madeOrThere_grown hmake d p

theorem makeDirectories_grown (d : Disk) (p : Path) : d.Grown (d.makeDirectories make p).1 :=
  makeLevels_grown hmake d _ p

end

/-- Directories that are made while some of them cannot be made. -/
theorem makeDirectories_faults_grown (faults : Faults) (d : Disk) (p : Path) :
    d.Grown (d.makeDirectories faults.makeDirectory p).1 := by
  refine makeDirectories_grown (fun {d p d'} h => ?_) d p
  obtain ⟨d₁, hmade, h⟩ := bind_eq_ok_iff.1 h
  obtain ⟨-, -, h⟩ := bind_eq_ok_iff.1 h
  cases h
  exact makeDirectory_grown hmade

/-! ## Writing -/

/-- A staged file is put where nothing was. -/
theorem stage_eq_ok {dir : Path} {name : String} {staged : Location}
    (h : d.stage dir = .ok (d', name, staged)) : d.holding? staged = none ∧
      ∀ m, d'.holding? m =
        if m = staged then some (.file ⟨.empty, newMode⟩) else d.holding? m := by
  unfold stage at h
  obtain ⟨l, -, h⟩ := bind_eq_ok_iff.1 h
  split at h
  · rename_i es hes
    split at h
    · rename_i hname
      cases h
      have hnone : d.holding? (l ++ [name]) = none := by
        have hfind := List.find?_some hname
        rw [Option.isNone_iff_eq_none] at hfind
        rw [holding?_append_singleton hes, hfind]
        rfl
      have hfree : d.Free (l ++ [name]) := by
        refine ⟨by simp, ?_, by rw [hnone]; simp⟩
        rw [List.dropLast_concat]
        exact holding?_eq_directory_iff.2 ⟨es, hes⟩
      exact ⟨hnone, fun m => holding?_put hfree rfl m⟩
    · cases h
  · cases h
  · cases h

/-- A file that is moved is found where the path leads, and no more where it was. -/
theorem persist_eq_ok {staged : Location} {g : File} (hstaged : d.holding? staged = some (.file g))
    (h : d.persist staged f p = .ok d') : ∃ l, d'.locate p = .ok l ∧
      d.holding? l ≠ some .directory ∧ ((d.holding? l).isSome = true → d.locate p = .ok l) ∧
      ∀ m, d'.holding? m =
        if m = l then some (.file f) else if m = staged then none else d.holding? m := by
  unfold persist at h
  obtain ⟨spot, hspot, h⟩ := bind_eq_ok_iff.1 h
  split at h
  · cases h
  · cases h
  · cases h
  · rename_i l found? hfound
    cases h
    have hfree := free_of_spot hspot fun es h => hfound es h
    have hfree' : (d.erase staged).Free l := by
      refine ⟨hfree.ne_nil, ?_, ?_⟩
      · rw [holding?_erase hstaged, if_neg, hfree.parent]
        intro hl
        rw [← hl, hfree.parent] at hstaged
        cases hstaged
      · rw [holding?_erase hstaged]
        split
        · simp
        · exact hfree.there
    have hholding (m : Location) : ((d.erase staged).put l (.file f)).holding? m =
        if m = l then some (.file f) else if m = staged then none else d.holding? m := by
      rw [holding?_put hfree' rfl, holding?_erase hstaged]
      rfl
    refine ⟨l, locate_of_spot hspot (fun m hm => ?_) ?_, hfree.there,
      locate_of_spot hspot fun m hm => hm, hholding⟩
    · have hml : m ≠ l := fun h => hfree.there (h ▸ hm)
      have hms : m ≠ staged := by
        rintro rfl
        rw [hm] at hstaged
        cases hstaged
      rw [hholding, if_neg hml, if_neg hms, hm]
    · rw [hholding, if_pos rfl]
      rfl

/-- The permissions of the file at a location, or those of a new file. -/
def modeAt (d : Disk) (l : Location) : Nat :=
  match d.holding? l with
  | some (.file g) => g.mode
  | _ => newMode

/-- The permissions are taken over from what stands where the path leads. -/
theorem modeFor_eq_modeAt (hl : p.location? = some l)
    (hthere : (d.holding? l).isSome = true → d.locate p = .ok l) : d.modeFor p = d.modeAt l := by
  unfold modeFor modeAt
  cases hfollow : d.follow p with
  | ok x =>
    obtain ⟨l', hl', hx⟩ := follow_eq_ok_iff.1 hfollow
    obtain rfl := Option.some.inj (hl.symm.trans (locate_eq_ok hl').1)
    rw [holding?, hx]
    cases x <;> rfl
  | error e =>
    cases hh : d.holding? l with
    | none => rfl
    | some x =>
      have hlocate := hthere (by rw [hh]; rfl)
      obtain ⟨y, hy, -⟩ := Option.map_eq_some_iff.1 hh
      rw [follow_eq_ok_iff.2 ⟨l, hlocate, hy⟩] at hfollow
      cases hfollow

theorem mapError_eq_ok {ε ε' α : Type} {x : Except ε α} {g : ε → ε'} {a : α}
    (h : x.mapError g = .ok a) : x = .ok a := by
  cases x with
  | error => cases h
  | ok => cases h; rfl

theorem guard_eq_ok_iff {faults : Faults} {step : WriteStep} :
    faults.guard step = .ok () ↔ faults step = none := by
  unfold Faults.guard
  cases faults step with
  | none => simp
  | some e => simp

/-- A staged file reaches its place if it can be filled and moved, and take over the permissions of what is
there. It is put to its place twice before that: with its text, and with its permissions. -/
theorem finish_cases {faults : Faults} {dir : Path} {name : String} {staged : Location} {text : String}
    (h : d.finish faults dir name staged p text = .ok d') :
    faults .fill = none ∧ faults .persist = none ∧
      ∃ d₁, d₁ = d.put staged (.file ⟨text.toUTF8, newMode⟩) ∧
        (d₁.reaches p = true → faults .permit = none) ∧
        (d₁.put staged (.file ⟨text.toUTF8, d₁.modeFor p⟩)).persist staged
          ⟨text.toUTF8, d₁.modeFor p⟩ p = .ok d' := by
  unfold finish at h
  obtain ⟨⟨⟩, hfill, h⟩ := bind_eq_ok_iff.1 h
  generalize hd₁ : d.put staged (.file ⟨text.toUTF8, newMode⟩) = d₁ at h
  dsimp only at h
  have hfill := guard_eq_ok_iff.1 (mapError_eq_ok hfill)
  split at h
  · obtain ⟨⟨⟩, hpermit, h⟩ := bind_eq_ok_iff.1 h
    obtain ⟨⟨⟩, hpersist, h⟩ := bind_eq_ok_iff.1 h
    exact ⟨hfill, guard_eq_ok_iff.1 (mapError_eq_ok hpersist), d₁, rfl,
      fun _ => guard_eq_ok_iff.1 (mapError_eq_ok hpermit), mapError_eq_ok h⟩
  · rename_i hreaches
    obtain ⟨⟨⟩, hpersist, h⟩ := bind_eq_ok_iff.1 h
    exact ⟨hfill, guard_eq_ok_iff.1 (mapError_eq_ok hpersist), d₁, rfl, fun h => absurd h hreaches,
      mapError_eq_ok h⟩

/-- A staged file that is filled and moved is the text at the place that the path leads to. -/
theorem finish_eq_ok {faults : Faults} {dir : Path} {name : String} {staged : Location} {g : File}
    {text : String} (hstaged : d.holding? staged = some (.file g))
    (h : d.finish faults dir name staged p text = .ok d') : ∃ l, d'.locate p = .ok l ∧
      d.holding? l ≠ some .directory ∧ ∀ m, d'.holding? m =
        if m = l then some (.file ⟨text.toUTF8, if l = staged then newMode else d.modeAt l⟩)
        else if m = staged then none else d.holding? m := by
  obtain ⟨-, -, d₁, hfilled, -, hpersist⟩ := finish_cases h
  generalize hmode : d₁.modeFor p = mode at hpersist
  have hfree := Free.of_file hstaged
  have hfirst (m : Location) : d₁.holding? m =
      if m = staged then some (.file ⟨text.toUTF8, newMode⟩) else d.holding? m := by
    rw [hfilled, holding?_put hfree rfl]
    rfl
  have hfree₁ := Free.of_file ((hfirst staged).trans (if_pos rfl))
  have hsecond (m : Location) : (d₁.put staged (.file ⟨text.toUTF8, mode⟩)).holding? m =
      if m = staged then some (.file ⟨text.toUTF8, mode⟩) else d.holding? m := by
    rw [holding?_put hfree₁ rfl, hfirst]
    split <;> rfl
  obtain ⟨l, hl, hthere, hlocate, hholding⟩ :=
    persist_eq_ok ((hsecond staged).trans (if_pos rfl)) hpersist
  have hkept : (d₁.put staged (.file ⟨text.toUTF8, mode⟩)).DirectoriesKept d₁ := by
    intro m hm
    rw [hsecond] at hm
    rw [hfirst]
    split at hm
    · cases hm
    · rename_i hne
      rwa [if_neg hne]
  have hsome (m : Location) : (d₁.holding? m).isSome = true →
      ((d₁.put staged (.file ⟨text.toUTF8, mode⟩)).holding? m).isSome = true := by
    rw [hfirst, hsecond]
    split <;> exact id
  have hcarried : mode = if l = staged then newMode else d.modeAt l := by
    rw [← hmode, modeFor_eq_modeAt (locate_eq_ok hl).1
      fun hsomething => locate_of_kept hkept (hlocate (hsome l hsomething)) hsomething]
    unfold modeAt
    rw [hfirst]
    by_cases hls : l = staged
    · rw [if_pos hls, if_pos hls]
    · rw [if_neg hls, if_neg hls]
  refine ⟨l, hl, ?_, fun m => ?_⟩
  · rw [hsecond] at hthere
    split at hthere
    · rename_i h
      rw [h, hstaged]
      simp
    · exact hthere
  · rw [hholding, hsecond, hcarried]
    split
    · rfl
    · split <;> rfl

section
variable {faults : Faults} {text : String}

/-- How a write goes: the directory of the path cannot be made, no file can be staged in it, or the staged
file is moved to where the path leads or, if that fails, taken away again. -/
inductive Attempt (faults : Faults) (d : Disk) (p : Path) (text : String) :
    Disk × Except Failure Unit → Prop
  | noDirectory {d₁ : Disk} {e : SystemError} (hmade : d.Grown d₁) :
      Attempt faults d p text (d₁, .error (.io .createDirectory (directoryOf p) e))
  | notStaged {d₁ : Disk} {e : SystemError} (hmade : d.Grown d₁) :
      Attempt faults d p text (d₁, .error (.io .createTemporary (directoryOf p) e))
  | moved {d₁ d₂ d' : Disk} {name : String} {staged : Location} (hmade : d.Grown d₁)
      (hstage : faults .stage = none) (hnone : d₁.holding? staged = none)
      (hstaged : ∀ m, d₂.holding? m =
        if m = staged then some (.file ⟨.empty, newMode⟩) else d₁.holding? m)
      (hfinish : d₂.finish faults (directoryOf p) name staged p text = .ok d') :
      Attempt faults d p text (d', .ok ())
  | notMoved {d₁ d₂ : Disk} {name : String} {staged : Location} {f : Failure} (hmade : d.Grown d₁)
      (hnone : d₁.holding? staged = none)
      (hstaged : ∀ m, d₂.holding? m =
        if m = staged then some (.file ⟨.empty, newMode⟩) else d₁.holding? m)
      (hfinish : d₂.finish faults (directoryOf p) name staged p text = .error f) :
      Attempt faults d p text (d₂.erase staged, .error f)

theorem attempt_writeUnder (faults : Faults) (d : Disk) (p : Path) (text : String) :
    Attempt faults d p text (d.writeUnder faults p text) := by
  have hmade := makeDirectories_faults_grown faults d (directoryOf p)
  unfold writeUnder
  dsimp only
  split
  · rename_i hdirs
    rw [hdirs] at hmade
    exact .noDirectory hmade
  · rename_i d₁ hdirs
    rw [hdirs] at hmade
    split
    · exact .notStaged hmade
    · rename_i d₂ name staged hstage
      obtain ⟨⟨⟩, hguard, hstage⟩ := bind_eq_ok_iff.1 hstage
      obtain ⟨hnone, hstaged⟩ := stage_eq_ok hstage
      split
      · rename_i hfinish
        exact .moved hmade (guard_eq_ok_iff.1 hguard) hnone hstaged hfinish
      · rename_i hfinish
        exact .notMoved hmade hnone hstaged hfinish

/-- A text that is written is at the place that the path leads to, with the permissions of the file that
was there, and every other file stays. -/
theorem writeUnder_ok (h : d.writeUnder faults p text = (d', .ok ())) :
    ∃ l, d'.locate p = .ok l ∧ d.Wrote d' l ⟨text.toUTF8, d.modeAt l⟩ := by
  have hattempt := attempt_writeUnder faults d p text
  rw [h] at hattempt
  cases hattempt with
  | @moved d₁ d₂ _ name staged hmade _ hnone hstaged hfinish =>
    obtain ⟨l, hl, hthere, hholding⟩ := finish_eq_ok ((hstaged staged).trans (if_pos rfl)) hfinish
    have hfree : d₁.holding? l ≠ some .directory := by
      rw [hstaged] at hthere
      split at hthere
      · rename_i h
        rw [h, hnone]
        simp
      · exact hthere
    have hmode : (if l = staged then newMode else d₂.modeAt l) = d.modeAt l := by
      unfold modeAt
      rw [hstaged]
      split
      · rename_i h
        rcases hmade l with hsame | ⟨-, hdir⟩
        · rw [← hsame, h, hnone]
        · exact absurd hdir hfree
      · rcases hmade l with hsame | ⟨-, hdir⟩
        · rw [hsame]
        · exact absurd hdir hfree
    refine ⟨l, hl, .of_grown hmade ⟨by rw [hholding, if_pos rfl, hmode], hfree, fun m hm => .inl ?_⟩⟩
    rw [hholding, if_neg hm, hstaged]
    split
    · rename_i h
      rw [h, hnone]
    · rfl

/-- If a text cannot be written, no file is changed and none is left over. -/
theorem writeUnder_error {e : Failure} (h : d.writeUnder faults p text = (d', .error e)) :
    d.Grown d' := by
  have hattempt := attempt_writeUnder faults d p text
  rw [h] at hattempt
  cases hattempt with
  | noDirectory hmade | notStaged hmade => exact hmade
  | @notMoved d₁ d₂ name staged _ hmade hnone hstaged hfinish =>
    refine hmade.trans fun m => .inl ?_
    rw [holding?_erase ((hstaged staged).trans (if_pos rfl)), hstaged]
    split
    · rename_i h
      rw [h, hnone]
    · rfl

end

/-! ## Backups -/

/-- What is removed is the file that the path leads to. -/
theorem removeFile_eq_ok (h : d.removeFile p = .ok d') :
    ∃ l g, d.locate p = .ok l ∧ d.holding? l = some (.file g) ∧ d' = d.erase l := by
  unfold removeFile at h
  obtain ⟨spot, hspot, h⟩ := bind_eq_ok_iff.1 h
  split at h
  · cases h
  · cases h
  · cases h
  · cases h
  · rename_i l g
    cases h
    have hfile := (spot_eq_location hspot).2.2.2.symm
    exact ⟨l, g, locate_of_spot hspot (fun _ => id) (by rw [hfile]; rfl), hfile, rfl⟩

theorem kept_of_erase {g : File} (hfile : d.holding? l = some (.file g)) :
    d.DirectoriesKept (d.erase l) := by
  intro m hm
  rw [holding?_erase hfile, if_neg, hm]
  rintro rfl
  rw [hfile] at hm
  cases hm

/-- A file that is copied is where it was and where the other path leads, and every other file
stays. -/
theorem copy_eq_ok {q : Path} (h : d.copy p q = .ok d') : ∃ l f, d.fileOf? p = some f ∧
    d'.locate q = .ok l ∧ d.Wrote d' l f := by
  unfold copy at h
  obtain ⟨x, hx, h⟩ := bind_eq_ok_iff.1 h
  split at h
  · cases h
  · rename_i f
    obtain ⟨spot, hspot, h⟩ := bind_eq_ok_iff.1 h
    split at h
    · cases h
    · cases h
    · cases h
    · rename_i l found? hfound
      cases h
      have hwrote := wrote_put (free_of_spot hspot fun es h => hfound es h) f
      exact ⟨l, f, by rw [fileOf?, hx], locate_of_spot hspot hwrote.directoriesKept
        (by rw [hwrote.file]; rfl), hwrote⟩

/-- Room for a backup: what its path leads to is gone, and every other file stays. -/
theorem exists_cleared (h : (match d.follow p.backup with
      | .ok _ => d.removeFile p.backup
      | .error _ => .ok d) = .ok d') : d'.DirectoriesKept d ∧ d.DirectoriesKept d' ∧
    ∀ m, d'.holding? m = d.holding? m ∨
      (p.backup.location? = some m ∧ d'.holding? m = none ∧ d.holding? m ≠ some .directory) := by
  split at h
  · obtain ⟨l, g, hl, hg, rfl⟩ := removeFile_eq_ok h
    refine ⟨fun m hm => ?_, kept_of_erase hg, fun m => ?_⟩
    · rw [holding?_erase hg] at hm
      split at hm
      · cases hm
      · exact hm
    · rw [holding?_erase hg]
      split
      · rename_i hm
        subst hm
        exact .inr ⟨(locate_eq_ok hl).1, rfl, by rw [hg]; simp⟩
      · exact .inl rfl
  · cases h
    exact ⟨fun _ => id, fun _ => id, fun _ => .inl rfl⟩

/-- A backup holds the file that its path leads to, and every other file stays. -/
theorem backUp_ok {q : Path} (h : d.backUp p = (d', .ok q)) : ∃ l f, d.fileOf? p = some f ∧
    d'.locate p.backup = .ok l ∧ d.Wrote d' l f := by
  unfold backUp at h
  dsimp only at h
  split at h
  · cases h
  · rename_i d₁ hcleared
    obtain ⟨hback, hkept, hholding⟩ := exists_cleared hcleared
    split at h
    · rename_i hcopy
      cases h
      obtain ⟨l, f, hf, hl, hwrote⟩ := copy_eq_ok hcopy
      obtain ⟨lp, hlp, hfile⟩ := fileOf?_eq_some_iff.1 hf
      have hsame {m : Location} (hm : m ≠ l) : d₁.holding? m = d.holding? m :=
        (hholding m).resolve_right fun h =>
          hm (Option.some.inj (h.1.symm.trans (locate_eq_ok hl).1))
      have hfile' : d.holding? lp = some (.file f) := by
        rcases hholding lp with h | ⟨-, hnone, -⟩
        · rw [← h, hfile]
        · rw [hnone] at hfile; cases hfile
      refine ⟨l, f, fileOf?_eq_some_iff.2 ⟨lp, locate_of_kept hback hlp (by rw [hfile']; rfl), hfile'⟩,
        hl, hwrote.file, fun hdir => hwrote.there (hkept l hdir), fun m hm => ?_⟩
      rw [← hsame hm]
      exact hwrote.beside m hm
    · cases h

/-- A backup that cannot be made touches nothing but what its path leads to. -/
theorem backUp_error {e : Failure} (h : d.backUp p = (d', .error e)) : d.DirectoriesKept d' ∧
    ∀ m, p.backup.location? ≠ some m → d'.holding? m = d.holding? m := by
  unfold backUp at h
  dsimp only at h
  split at h
  · cases h
    exact ⟨fun _ => id, fun _ _ => rfl⟩
  · rename_i d₁ hcleared
    obtain ⟨-, hkept, hholding⟩ := exists_cleared hcleared
    split at h
    · cases h
    · cases h
      exact ⟨hkept, fun m hm => (hholding m).resolve_right fun h => hm h.1⟩

end Renumber.Disk
