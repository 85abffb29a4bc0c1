import Renumber.Disk.Change

/-!
# Writing

A text goes into a file of its own first, in the directory that it is for. That file then takes the place
of the one that was there, in one step, so there is never half a file: either the write succeeds, or no
file is changed and none is left over. A file that is overwritten keeps its permissions. Directories that
are missing on the way are made, and they stay even if the write fails.

A step fails where the disk does not allow it. It may also fail by itself, on a device without room for
instance; `Faults` says which steps do (`Disk.writeUnder`), and none do in a run (`Disk.write`).
-/

namespace Renumber

/-- A step of a write. -/
inductive WriteStep where
  /-- A directory is made; there may be several. -/
  | makeDirectory (p : Path)
  | stage
  | fill
  | permit
  | persist
deriving DecidableEq, Repr

/-- The steps that fail by themselves, and why. -/
abbrev Faults := WriteStep → Option SystemError

/-- No step fails by itself. -/
def Faults.none : Faults := fun _ => Option.none

/-- A step, which has no effect if it fails by itself. -/
def Faults.guard (faults : Faults) (step : WriteStep) : Except SystemError Unit :=
  match faults step with
  | some e => .error e
  | Option.none => .ok ()

/-- Makes a directory, unless that fails by itself. -/
def Faults.makeDirectory (faults : Faults) (d : Disk) (p : Path) : Except SystemError Disk := do
  let d' ← d.makeDirectory p
  faults.guard (.makeDirectory p)
  return d'

namespace Disk

/-- The permissions of a file that was not there before. -/
def newMode : Nat := 0o600

/-- The directory that a file is written to. -/
def directoryOf (p : Path) : Path :=
  match p.parent? with
  | some q => if q.text == "" then ⟨"."⟩ else q
  | none => ⟨"."⟩

/-- A name that none of some entries has. There is one among one more names than entries. -/
def freeName? (entries : List (String × Node)) : Option String :=
  ((List.range (entries.length + 1)).map fun i => ".tmp" ++ toString i).find? fun name =>
    (Node.find? name entries).isNone

/-- Puts an empty file into a directory, under a name that is free, and says the name and where. -/
def stage (d : Disk) (dir : Path) : Except SystemError (Disk × String × Location) := do
  let l ← d.locate dir
  match d.get? l with
  | some (.directory entries) =>
    match freeName? entries with
    | some name => return (d.put (l ++ [name]) (.file ⟨.empty, newMode⟩), name, l ++ [name])
    | none => throw .alreadyExists
  | some (.file _) => throw .notDirectory
  | none => throw .notFound

/-- The permissions that a file written to a path gets. -/
def modeFor (d : Disk) (p : Path) : Nat :=
  match d.follow p with
  | .ok (.file f) => f.mode
  | _ => newMode

/-- Moves a file from a location to where a path leads. -/
def persist (d : Disk) (staged : Location) (f : File) (p : Path) : Except SystemError Disk := do
  match ← d.spot p with
  | .taken => throw .busy
  | .location _ _ true => throw .notDirectory
  | .location _ (some (.directory _)) false => throw .isDirectory
  | .location l _ false => return (d.erase staged).put l (.file f)

/-- Fills a file in a directory with a text, gives it its permissions, and moves it to where a path
leads. -/
def finish (faults : Faults) (d : Disk) (dir : Path) (name : String) (staged : Location) (p : Path)
    (text : String) : Except Failure Disk := do
  let temporary := dir.join ⟨name⟩
  (faults.guard .fill).mapError (.io .write temporary)
  let d := d.put staged (.file ⟨text.toUTF8, newMode⟩)
  if d.reaches p then (faults.guard .permit).mapError (.io .copyPermissions temporary)
  let f : File := ⟨text.toUTF8, d.modeFor p⟩
  let d := d.put staged (.file f)
  (faults.guard .persist).mapError (.io .persist p)
  (d.persist staged f p).mapError (.io .persist p)

/-- Writes a text to a path while some steps fail by themselves: all of it or nothing. -/
def writeUnder (faults : Faults) (d : Disk) (p : Path) (text : String) : Disk × Except Failure Unit :=
  let dir := directoryOf p
  match d.makeDirectories faults.makeDirectory dir with
  | (d, .error e) => (d, .error (.io .createDirectory dir e))
  | (d, .ok ()) =>
    match faults.guard .stage >>= fun _ => d.stage dir with
    | .error e => (d, .error (.io .createTemporary dir e))
    | .ok (d, name, staged) =>
      match d.finish faults dir name staged p text with
      | .ok d => (d, .ok ())
      | .error f => (d.erase staged, .error f)

/-- Writes a text to a path: all of it or nothing. -/
def write (d : Disk) (p : Path) (text : String) : Disk × Except Failure Unit :=
  d.writeUnder .none p text

end Disk

end Renumber
