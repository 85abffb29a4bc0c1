import Renumber.Disk.Change

/-!
# Backups that are cut short

A backup takes one step after the other: it looks for an older copy and removes it, reads the file, makes
the copy and completes it. A step fails where the disk does not allow it. It may also fail by itself, as
the steps of a write may. `BackupFaults` says which steps do, and what there is of a copy that is made and
then not completed (`Disk.backUpUnder`). Where no step fails by itself, this is the backup of a run
(`Disk.backUp`).
-/

namespace Renumber

/-- A step of a backup. -/
inductive BackupStep where
  | look
  | remove
  | read
  | create
  | complete
deriving DecidableEq, Repr

/-- The step belongs to the copy; the older one has been dealt with. -/
def BackupStep.copies : BackupStep → Bool
  | .look | .remove => false
  | .read | .create | .complete => true

/-- The steps of a backup that fail by themselves, and why. -/
structure BackupFaults where
  fault? : BackupStep → Option SystemError
  /-- What there is of a copy that is not completed. -/
  torn : File

/-- A step, which has no effect if it fails by itself. -/
def BackupFaults.guard (faults : BackupFaults) (step : BackupStep) : Except SystemError Unit :=
  match faults.fault? step with
  | some e => .error e
  | none => .ok ()

/-- A step of the copy fails by itself. -/
def BackupFaults.InCopy (faults : BackupFaults) : Prop :=
  ∃ step, step.copies = true ∧ faults.fault? step ≠ none

namespace Disk

/-- The file that is to be copied. -/
def fileToCopy (d : Disk) (p : Path) : Except SystemError File := do
  match ← d.follow p with
  | .directory _ => throw .notRegular
  | .file f => return f

/-- Where a copy goes. -/
def placeOfCopy (d : Disk) (p : Path) : Except SystemError Location := do
  match ← d.spot p with
  | .taken => throw .isDirectory
  | .location _ _ true => throw .isDirectory
  | .location _ (some (.directory _)) false => throw .isDirectory
  | .location l _ false => return l

/-- What is copied and where to, up to the step that changes the disk. -/
def openCopy (faults : BackupFaults) (d : Disk) (source target : Path) :
    Except SystemError (File × Location) := do
  let f ← d.fileToCopy source
  faults.guard .read
  let l ← d.placeOfCopy target
  faults.guard .create
  return (f, l)

/-- Copies a file with its permissions while some steps fail by themselves. -/
def copyUnder (faults : BackupFaults) (d : Disk) (source target : Path) :
    Disk × Except SystemError Unit :=
  match d.openCopy faults source target with
  | .error e => (d, .error e)
  | .ok (f, l) =>
    match faults.guard .complete with
    | .error e => (d.put l (.file faults.torn), .error e)
    | .ok () => (d.put l (.file f), .ok ())

/-- Removes an older copy while some steps fail by themselves. A copy that is not seen stays. -/
def clearUnder (faults : BackupFaults) (d : Disk) (target : Path) : Except SystemError Disk :=
  match faults.guard .look >>= fun _ => d.follow target with
  | .error _ => .ok d
  | .ok _ => do
    let d' ← d.removeFile target
    faults.guard .remove
    return d'

/-- Keeps a copy of the file that a path leads to while some steps fail by themselves. -/
def backUpUnder (faults : BackupFaults) (d : Disk) (p : Path) : Disk × Except Failure Path :=
  let target := p.backup
  match d.clearUnder faults target with
  | .error e => (d, .error (.io .removeBackup target e))
  | .ok d =>
    match d.copyUnder faults p target with
    | (d, .ok ()) => (d, .ok target)
    | (d, .error e) => (d, .error (.io .backUp p e))

end Disk

end Renumber
