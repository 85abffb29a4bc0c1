import Renumber.Disk.Follow
import Renumber.Glob
import Renumber.Source

/-!
# Discovery

The sources that the inputs of a run stand for. An input that is a file is taken whatever its name; an
input that is a directory stands for the files below it with one of the extensions asked for, unless an
exclude pattern stands for the path as seen from the input or for the full path. Directories are walked
depth first, entries in the order of their names. Nothing is found if one input is missing or one
pattern is faulty.
-/

namespace Renumber

/-- The path of a location below another path. -/
def Path.descend (p : Path) (l : Location) : Path := l.foldl (fun q name => q.join ⟨name⟩) p

/-- The locations of the files below a node, in the order of a walk. -/
def Node.files (x : Node) : List Location :=
  x.leaves.filterMap fun (l, f?) => f?.map fun _ => l

namespace Discovery

/-- The path has one of the extensions. -/
def hasExtension (extensions : List String) (p : Path) : Bool :=
  match p.extension? with
  | some e => extensions.contains e
  | none => false

/-- A pattern stands for the source, seen from its input or as a whole. -/
def isExcluded (exclude : List Glob) (s : Source) : Bool :=
  exclude.any fun g => g.matchesPath s.relative || g.matchesPath s.path

/-- The sources that an input stands for. -/
def ofInput (d : Disk) (extensions : List String) (exclude : List Glob) (input : Path) :
    Except Failure (List Source) :=
  match d.follow input with
  | .ok (.file _) => .ok [⟨input.parent?.getD ⟨""⟩, input⟩]
  | .ok (.directory es) =>
    let below := (Node.directory es).files.map fun l => (⟨input, input.descend l⟩ : Source)
    .ok (below.filter fun s => hasExtension extensions s.path && !isExcluded exclude s)
  | .error _ => .error (.input input "path does not exist or is not a file or directory")

end Discovery

/-- The sources that some inputs stand for, in the order of the inputs. -/
def discover (d : Disk) (inputs : List Path) (extensions exclude : List String) :
    Except Failure (List Source) := do
  let patterns ← Glob.parseAll exclude
  return (← inputs.mapM (Discovery.ofInput d extensions patterns)).flatten

end Renumber
