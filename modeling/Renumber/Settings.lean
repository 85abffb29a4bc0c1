import Renumber.Glob
import Renumber.Failure
import Renumber.Source

/-!
# Settings

What a run goes by. Every setting has a default; a document of settings changes some of them, and the
command line changes some of the result. Settings that no run can use are refused, the first of them by
name (`Settings.check`).
-/

namespace Renumber

/-- Where the series of a source starts. -/
inductive Scope where
  /-- Every source has a seed of its own. -/
  | perFile
  /-- One series runs through all sources. -/
  | shared
deriving DecidableEq, Repr

/-- The name of a scope. -/
def Scope.name : Scope → String
  | .perFile => "per-file"
  | .shared => "shared"

/-- The scope of a name. -/
def Scope.ofName? (s : String) : Option Scope :=
  if s == "per-file" then some .perFile else if s == "shared" then some .shared else none

/-- What a run goes by. -/
structure Settings where
  /-- The seed; without one it comes from the names of the sources. -/
  seed? : Option UInt64
  scope : Scope
  /-- The extensions of the files that a directory stands for. -/
  extensions : List String
  /-- Patterns of files that a directory does not stand for. -/
  exclude : List String
  /-- Texts go over their sources. -/
  write : Bool
  backup : Bool
  suffix? : Option String
  directory? : Option Path
  /-- A shared margin is taken off before a text is read. -/
  dedent : Bool
  threads? : Option UInt64
deriving DecidableEq, Repr

namespace Settings

/-- The settings of a run that was told nothing. -/
def default : Settings where
  seed? := none
  scope := .perFile
  extensions := ["py"]
  exclude := []
  write := true
  backup := false
  suffix? := none
  directory? := none
  dedent := true
  threads? := none

/-- Settings made elsewhere that stand above others. What is absent stays as it is. -/
structure Overrides where
  seed? : Option UInt64 := none
  scope? : Option Scope := none
  write? : Option Bool := none
  backup? : Option Bool := none
  suffix? : Option String := none
  directory? : Option Path := none
  dedent? : Option Bool := none
  threads? : Option UInt64 := none
deriving DecidableEq, Repr

/-- The settings under some that stand above them. -/
def merge (s : Settings) (o : Overrides) : Settings :=
  { s with
    seed? := o.seed?.or s.seed?
    scope := o.scope?.getD s.scope
    write := o.write?.getD s.write
    backup := o.backup?.getD s.backup
    suffix? := o.suffix?.or s.suffix?
    directory? := o.directory?.or s.directory?
    dedent := o.dedent?.getD s.dedent
    threads? := o.threads?.or s.threads? }

/-- Refuses settings that no run can use. -/
def check (s : Settings) : Except Failure Unit := do
  if s.seed? = some 0 then throw (.config "error_series must be a positive integer")
  if s.extensions = [] then throw (.config "extensions must name at least one file extension")
  if s.threads? = some 0 then throw (.config "threads must be at least 1")
  if s.suffix? = some "" then throw (.config "append_suffix must not be empty")
  let _ ← Glob.parseAll s.exclude

/-- Where the texts of a run go. -/
def output (s : Settings) : Output := ⟨s.write, s.directory?, s.suffix?, s.backup⟩

end Settings

end Renumber
