import Renumber.Disk.Follow
import Renumber.Settings.Fields

/-!
# Settings files

The settings of a run come from the file named on the command line, or from the first one found in the
directory of the run or above it. In one directory the names go first to last (`Settings.fileNames`).
Without a file the defaults hold.
-/

namespace Renumber.Settings

/-- The names of settings files; the first one there wins. -/
def fileNames : List String := [".errfixrc.toml", ".errfixrc.json", "errfix.toml"]

/-- The settings in a file, if it can be read and they can be used. -/
def ofFile (d : Disk) (p : Path) : Except Failure Settings := do
  let text ← (d.read p).mapError fun e =>
    .config ("Failed to read config '" ++ p.text ++ "': " ++ e.message)
  match ofDocument? (formatOf p) text with
  | none => throw (.config ("Failed to load config from '" ++ p.text ++ "'"))
  | some s =>
    s.check
    return s

/-- The path of a location. -/
def pathOf (l : Location) : Path := ⟨"/".intercalate l⟩

/-- A location and those above it, from the lowest to the working directory. -/
def upward (l : Location) : List Location :=
  (List.range (l.length + 1)).map fun n => l.take (l.length - n)

/-- The settings file at a location or in the nearest directory above it. -/
def findAbove (d : Disk) (l : Location) : Option Path :=
  (upward l).findSome? fun dir =>
    (fileNames.map fun name => pathOf (dir ++ [name])).find? d.isFile

/-- The settings file for a run that starts at a path. -/
def find (d : Disk) (start : Path) : Except Failure (Option Path) := do
  let l ← (d.locate start).mapError fun e => .config ("Invalid path: " ++ e.message)
  return findAbove d l

/-- The settings in the file named, or in the one that is found. -/
def load (d : Disk) (named? : Option Path) (start : Path) : Except Failure Settings :=
  match named? with
  | some p =>
    if d.reaches p then ofFile d p
    else .error (.config ("Config file not found: " ++ p.text))
  | none => do
    match ← find d start with
    | some p => ofFile d p
    | none => return default

end Renumber.Settings
