import Renumber.Path

/-!
# Sources and their targets

A source is a file together with the directory it was found under. Where its numbered text goes is a
matter of its path alone (`Source.target?`): over the source itself, or to the same place below another
directory; in both cases a suffix may be put to the end of the stem of the file name.
-/

namespace Renumber

namespace Path

/-- The file name with a suffix behind its stem. -/
def suffixedName (p : Path) (suffix : String) : String :=
  let ext :=
    match p.extension? with
    | some ext => "." ++ ext
    | none => ""
  p.stem?.getD "" ++ "_" ++ suffix ++ ext

/-- The path with a suffix behind the stem of its file name. -/
def suffixed (p : Path) (suffix : String) : Path := p.withFileName (p.suffixedName suffix)

end Path

/-- A file and the directory it was found under. -/
structure Source where
  root : Path
  path : Path
deriving DecidableEq, Repr

/-- Where numbered texts go. -/
structure Output where
  /-- Over the sources. -/
  inPlace : Bool
  /-- Below a directory, if not over the sources. -/
  directory? : Option Path
  suffix? : Option String
  /-- A file that is overwritten keeps a copy. -/
  backup : Bool
deriving DecidableEq, Repr

namespace Source

/-- The path of a source as seen from where it was found. -/
def relative (s : Source) : Path := (s.path.stripBase? s.root).getD s.path

/-- The path that a target has but for the suffix. -/
def base? (s : Source) (o : Output) : Option Path :=
  if o.inPlace then some s.path else o.directory?.map fun d => d.join s.relative

/-- Where the numbered text of a source goes, if it goes anywhere. -/
def target? (s : Source) (o : Output) : Option Path :=
  (s.base? o).map fun p =>
    match o.suffix? with
    | some suffix => p.suffixed suffix
    | none => p

end Source

end Renumber
