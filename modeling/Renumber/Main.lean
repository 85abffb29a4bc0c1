import Renumber.Arguments
import Renumber.Report

/-!
# The program

What is on disk in the working directory and below it is taken in, a command is run on it (`run`), and
what the run changed is brought back. Links, and files that cannot be read, are no part of a run.
-/

namespace Renumber.Program

/-- The permissions that a file is taken in with. A file that stays keeps its own. -/
def usualMode : Nat := 0o644

/-- What is at a path of the file system. -/
partial def takeIn (path : String) : IO (Option Node) := do
  let place := System.mkFilePath [path]
  match (← place.symlinkMetadata).type with
  | .dir =>
    let mut entries := []
    for e in ← place.readDir do
      if let some x ← takeIn (path ++ "/" ++ e.fileName) then
        entries := Node.update e.fileName x entries
    return some (.directory entries)
  | .file =>
    match ← (IO.FS.readBinFile place).toBaseIO with
    | .ok bytes => return some (.file ⟨bytes, usualMode⟩)
    | .error _ => return none
  | _ => return none

/-- The working directory. -/
def disk : IO Disk := do
  match ← takeIn "." with
  | some x => return ⟨x.entries⟩
  | none => return .empty

/-- Permissions from their octal digits. -/
def rightsOf (mode : Nat) : IO.FileRight :=
  let digit (n : Nat) : IO.AccessRight := ⟨n.testBit 2, n.testBit 1, n.testBit 0⟩
  ⟨digit (mode / 64), digit (mode / 8), digit mode⟩

/-- The path of a location in the file system. -/
def pathOf (l : Location) : String := "/".intercalate ("." :: l)

/-- Brings the files of one disk to where those of another are. -/
def bringBack (before after : Disk) : IO Unit := do
  for (l, f?) in before.leaves do
    if f?.isSome && (after.get? l).isNone then IO.FS.removeFile (pathOf l)
  for (l, f?) in after.leaves do
    match f?, before.get? l with
    | none, _ => IO.FS.createDirAll (pathOf l)
    | some f, some (.file g) =>
      if f.bytes.data != g.bytes.data then IO.FS.writeBinFile (pathOf l) f.bytes
    | some f, _ =>
      IO.FS.createDirAll (pathOf l.dropLast)
      IO.FS.writeBinFile (pathOf l) f.bytes
      IO.setAccessRights (pathOf l) (rightsOf f.mode)

/-- A variable of the environment is set to something other than zero. -/
def isOn (name : String) (unset : Bool) : IO Bool := do
  return match ← IO.getEnv name with
  | none => unset
  | some value => value != "0"

/-- The program shows colours. -/
def showsColours (plain : Bool) : IO Bool := do
  let forced ← isOn "CLICOLOR_FORCE" false
  let terminal := (← (← IO.getStdout).isTty) && (← isOn "CLICOLOR" true)
  return Report.showsColours (forced || terminal) (plain || (← IO.getEnv "NO_COLOR").isSome)

/-- Runs a command in the working directory and tells how it went. -/
def carryOut (command : Command) (plain : Bool) : IO UInt32 := do
  let before ← disk
  let ending := run before command
  bringBack before ending.disk
  let colours ← showsColours plain
  IO.print (Report.output colours ending.notices)
  IO.eprint (Report.errors colours ending.notices)
  return (exitCode ending.summary).toUInt32

end Renumber.Program

open Renumber in
/-- The command line. -/
def main (words : List String) : IO UInt32 := do
  match Request.ofWords words with
  | .error m =>
    IO.eprintln ("error: " ++ m.message)
    return 2
  | .ok .help =>
    IO.print Report.usage
    return 0
  | .ok .version =>
    IO.print Report.versionText
    return 0
  | .ok (.run command plain) => Program.carryOut command plain
