import Renumber.Discovery
import Renumber.Disk.Write
import Renumber.Numbering
import Renumber.Seed
import Renumber.Settings.File

/-!
# Runs

A run finds the sources, numbers the text of each, and then writes the texts that changed. All texts are
read and numbered before the first is written, so nothing that a run writes is read by it
(`Run.outcomes`, `Run.writeAll`). A source that cannot be read, numbered or written is told and counted;
the others go on. Settings that cannot be used and inputs that lead nowhere end a run before it starts.
-/

namespace Renumber

/-- What a run is asked for. -/
structure Command where
  inputs : List Path
  settingsFile? : Option Path
  overrides : Settings.Overrides
deriving DecidableEq, Repr

/-- What a run tells. -/
inductive Notice where
  /-- The text of a source changed. -/
  | changed (path : Path) (before after : String)
  /-- There are files to look through. -/
  | reminder
  /-- The inputs stand for no source. -/
  | noSources
  | failure (f : Failure)
deriving DecidableEq, Repr

/-- What a run did. -/
structure Summary where
  found : Nat
  changed : Nat
  written : Nat
  fixed : Nat
  failures : Nat
deriving DecidableEq, Repr

/-- A run that found some sources and did nothing yet. -/
def Summary.start (found : Nat) : Summary := ⟨found, 0, 0, 0, 0⟩

/-- The exit code of a run. -/
def exitCode : Except Failure Summary → Nat
  | .ok s => if s.found = 0 then 1 else if s.failures = 0 then 0 else 3
  | .error .interrupted => 2
  | .error _ => 3

/-- How a run ends: the disk it leaves, what it told, and what it did. -/
structure Ending where
  disk : Disk
  notices : List Notice
  summary : Except Failure Summary

/-- Numbers the calls of a file. A failure names the file. -/
def fixFile (d : Disk) (dedent : Bool) (p : Path) (s : Series) : Except Failure Outcome × Series :=
  match d.read p with
  | .error e => (.error (.io .read p e), s)
  | .ok text =>
    let (result, s') := fixText dedent text s
    (result.mapError fun f => f.withOrigin p, s')

namespace Run

/-- The seed of a source: the one that is set, or that of its name without its extension. -/
def seedOf (s : Settings) (p : Path) : UInt64 :=
  s.seed?.getD (Seed.ofPath p (p.extension?.getD ""))

/-- Numbers some sources with one series. -/
def inTurn (d : Disk) (dedent : Bool) (series : Series) : List Source → List (Except Failure Outcome)
  | [] => []
  | s :: rest =>
    let (result, series') := fixFile d dedent s.path series
    result :: inTurn d dedent series' rest

/-- What numbering makes of each source. -/
def outcomes (d : Disk) (s : Settings) (sources : List Source) : List (Except Failure Outcome) :=
  match s.scope, sources with
  | _, [] => []
  | .perFile, sources => sources.map fun x => (fixFile d s.dedent x.path ⟨seedOf s x.path⟩).1
  | .shared, x :: rest => inTurn d s.dedent ⟨seedOf s x.path⟩ (x :: rest)

/-- Writes the text of a source where it goes, and says whether it goes anywhere. A source that is
overwritten is copied first, if that is asked for. -/
def persist (d : Disk) (o : Output) (s : Source) (text : String) : Disk × Except Failure Bool :=
  match s.target? o with
  | none => (d, .ok false)
  | some target =>
    let (d, kept) : Disk × Except Failure Unit :=
      if o.backup && target.components == s.path.components then
        let (d, r) := d.backUp s.path
        (d, r.map fun _ => ())
      else (d, .ok ())
    match kept with
    | .error f => (d, .error f)
    | .ok () =>
      let (d, r) := d.write target text
      (d, r.map fun _ => true)

/-- The disk, the counts and the notices of a run so far. -/
structure Progress where
  disk : Disk
  summary : Summary
  /-- The last one first. -/
  notices : List Notice

namespace Progress

/-- Tells something. -/
def tell (p : Progress) (n : Notice) : Progress := { p with notices := n :: p.notices }

/-- Tells a failure and counts it. -/
def fail (p : Progress) (f : Failure) : Progress :=
  { p.tell (.failure f) with summary := { p.summary with failures := p.summary.failures + 1 } }

/-- Counts what numbering did to a text, and tells it if the text changed. -/
def count (p : Progress) (path : Path) (o : Outcome) : Progress :=
  let s := { p.summary with fixed := p.summary.fixed + o.fixes.length }
  if o.changed then
    { p.tell (.changed path o.before o.output) with summary := { s with changed := s.changed + 1 } }
  else { p with summary := s }

/-- Deals with what numbering made of one source. -/
def step (o : Output) (p : Progress) : Source × Except Failure Outcome → Progress
  | (_, .error f) => p.fail f
  | (s, .ok outcome) =>
    let p := p.count s.path outcome
    if outcome.changed then
      let (d, r) := persist p.disk o s outcome.output
      let p := { p with disk := d }
      match r with
      | .ok true => { p with summary := { p.summary with written := p.summary.written + 1 } }
      | .ok false => p
      | .error f => p.fail f
    else p

end Progress

/-- Deals with what numbering made of the sources, one after the other. -/
def writeAll (d : Disk) (o : Output) (results : List (Source × Except Failure Outcome)) : Progress :=
  results.foldl (Progress.step o) ⟨d, .start results.length, []⟩

/-- Runs with settings that hold. -/
def withSettings (d : Disk) (s : Settings) (inputs : List Path) : Ending :=
  match discover d inputs s.extensions s.exclude with
  | .error f => ⟨d, [.failure f], .error f⟩
  | .ok [] => ⟨d, [.noSources], .ok (.start 0)⟩
  | .ok sources =>
    let p := writeAll d s.output (sources.zip (outcomes d s sources))
    let reminder := if 0 < p.summary.written then [Notice.reminder] else []
    ⟨p.disk, p.notices.reverse ++ reminder, .ok p.summary⟩

/-- The settings of a run. -/
def settings (d : Disk) (c : Command) : Except Failure Settings := do
  let s := (← Settings.load d c.settingsFile? ⟨"."⟩).merge c.overrides
  s.check
  return s

end Run

/-- Does what a command asks for. -/
def run (d : Disk) (c : Command) : Ending :=
  match Run.settings d c with
  | .error f => ⟨d, [.failure f], .error f⟩
  | .ok s => Run.withSettings d s c.inputs

end Renumber
