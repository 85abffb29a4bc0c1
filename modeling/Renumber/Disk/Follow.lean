import Renumber.Disk

/-!
# Following paths

A path is followed segment by segment from the working directory. Every segment but the last has to
lead to a directory, also one that names nothing, so a slash at the end asks for a directory. There is
nothing above the working directory, and so nothing that an absolute path leads to.

`Disk.locate` follows a path to what is there; `Disk.spot` follows it to where something may be made.
-/

namespace Renumber

namespace Path

/-- The segments of a path, fill among them. -/
def segments (p : Path) : List String := (cut p.text.toList).map String.ofList

end Path

namespace Disk

/-- The longest name, in bytes. -/
def longestName : Nat := 255

/-- Looks a name up in the directory at a location. -/
def lookUp (d : Disk) (l : Location) (name : String) : Except SystemError (Option Node) :=
  match d.get? l with
  | some (.directory es) =>
    if name.utf8ByteSize > longestName then .error .nameTooLong else .ok (Node.find? name es)
  | some (.file _) => .error .notDirectory
  | none => .error .notFound

/-- Follows one segment. -/
def enter (d : Disk) (l : Location) (segment : String) : Except SystemError Location :=
  match d.get? l with
  | some (.directory _) =>
    if Path.isFill segment then .ok l
    else if segment == ".." then if l.isEmpty then .error .notFound else .ok l.dropLast
    else do
      match ← d.lookUp l segment with
      | some _ => return l ++ [segment]
      | none => throw .notFound
  | some (.file _) => .error .notDirectory
  | none => .error .notFound

/-- Follows segments from the working directory. -/
def enterAll (d : Disk) (segments : List String) : Except SystemError Location :=
  segments.foldlM d.enter []

/-- The location that a path leads to. -/
def locate (d : Disk) (p : Path) : Except SystemError Location :=
  if p.text == "" || p.isAbsolute then .error .notFound else d.enterAll p.segments

/-- What a path leads to. -/
def follow (d : Disk) (p : Path) : Except SystemError Node := do
  match d.get? (← d.locate p) with
  | some x => return x
  | none => throw .notFound

/-- The path leads to a file. -/
def isFile (d : Disk) (p : Path) : Bool :=
  match d.follow p with
  | .ok (.file _) => true
  | _ => false

/-- The path leads to a directory. -/
def isDirectory (d : Disk) (p : Path) : Bool :=
  match d.follow p with
  | .ok (.directory _) => true
  | _ => false

/-- The path leads somewhere. -/
def reaches (d : Disk) (p : Path) : Bool := (d.follow p).toOption.isSome

/-- Where something may be made. -/
inductive Spot where
  /-- The last segment goes nowhere or up. -/
  | taken
  /-- A location in a directory, what is there, and whether a slash follows. -/
  | location (l : Location) (found? : Option Node) (slash : Bool)

/-- The spot that a path leads to. -/
def spot (d : Disk) (p : Path) : Except SystemError Spot :=
  if p.text == "" || p.isAbsolute then .error .notFound
  else
    let segments := p.segments
    let slash := segments.getLast? == some ""
    match segments.reverse.dropWhile (· == "") with
    | [] => .error .notFound
    | last :: before => do
      let l ← d.enterAll before.reverse
      if last == "." || last == ".." then
        -- The directory in front still has to be one.
        let _ ← d.enter l "."
        return .taken
      else return .location (l ++ [last]) (← d.lookUp l last) slash

/-- The text of the file that a path leads to. -/
def read (d : Disk) (p : Path) : Except SystemError String := do
  match ← d.follow p with
  | .directory _ => throw .isDirectory
  | .file f =>
    match String.fromUTF8? f.bytes with
    | some s => return s
    | none => throw .notText

end Disk

end Renumber
