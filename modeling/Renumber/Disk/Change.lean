import Renumber.Disk.Follow

/-!
# Changing a disk

Making directories, removing files and copying them. Directories that are missing on the way are made one
after the other, the outermost first; those that were made stay even if a later one cannot be made. How a
single directory is made is a parameter (`make`), as it may fail for reasons that the disk does not show.

A backup is a copy of a file under another name; an older copy is removed before the new one is made.
-/

namespace Renumber.Disk

/-- Makes a directory. -/
def makeDirectory (d : Disk) (p : Path) : Except SystemError Disk := do
  match ← d.spot p with
  | .taken => throw .alreadyExists
  | .location _ (some _) _ => throw .alreadyExists
  | .location l none _ => return d.put l (.directory [])

section
variable (make : Disk → Path → Except SystemError Disk)

/-- A directory that is there already is as good as made. -/
def madeOrThere (d : Disk) (p : Path) : Disk × Except SystemError Unit :=
  match make d p with
  | .ok d' => (d', .ok ())
  | .error e => if d.isDirectory p then (d, .ok ()) else (d, .error e)

/-- Makes a directory and those that it is in, as many levels up as the bound says. -/
def makeLevels (d : Disk) : Nat → Path → Disk × Except SystemError Unit
  | 0, _ => (d, .ok ())
  | bound + 1, p =>
    if p.text == "" then (d, .ok ())
    else
      match make d p, p.parent? with
      | .error .notFound, some q =>
        match makeLevels d bound q with
        | (d', .ok ()) => d'.madeOrThere make p
        | (d', .error e) => (d', .error e)
      | _, _ => d.madeOrThere make p

/-- Makes a directory and all that it is in. -/
def makeDirectories (d : Disk) (p : Path) : Disk × Except SystemError Unit :=
  d.makeLevels make (p.components.length + 1) p

end

/-- Removes the file that a path leads to. -/
def removeFile (d : Disk) (p : Path) : Except SystemError Disk := do
  match ← d.spot p with
  | .taken => throw .isDirectory
  | .location _ none _ => throw .notFound
  | .location _ (some (.directory _)) _ => throw .isDirectory
  | .location _ (some (.file _)) true => throw .notDirectory
  | .location l (some (.file _)) false => return d.erase l

/-- Copies a file with its permissions. -/
def copy (d : Disk) (source target : Path) : Except SystemError Disk := do
  match ← d.follow source with
  | .directory _ => throw .notRegular
  | .file f =>
    match ← d.spot target with
    | .taken => throw .isDirectory
    | .location _ _ true => throw .isDirectory
    | .location _ (some (.directory _)) false => throw .isDirectory
    | .location l _ false => return d.put l (.file f)

/-- Keeps a copy of the file that a path leads to and says where. An older copy goes first. -/
def backUp (d : Disk) (p : Path) : Disk × Except Failure Path :=
  let target := p.backup
  let cleared :=
    match d.follow target with
    | .ok _ => d.removeFile target
    | .error _ => .ok d
  match cleared with
  | .error e => (d, .error (.io .removeBackup target e))
  | .ok d =>
    match d.copy p target with
    | .ok d => (d, .ok target)
    | .error e => (d, .error (.io .backUp p e))

end Renumber.Disk
