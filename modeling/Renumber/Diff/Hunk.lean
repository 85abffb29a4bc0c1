import Renumber.Diff.Script
import Renumber.Diff.Slide

/-!
# Hunks

A hunk is all that happens between two runs of lines that stay: some consecutive old lines go, and some
consecutive new lines come in their place. It is numbered by where the lines before it end; the first
hunk of a script may have no such lines and is numbered by its own start.
-/

namespace Renumber.Diff

/-- Some lines of one of the texts. -/
structure Range where
  start : Nat
  length : Nat
deriving DecidableEq, Repr

/-- The lines of a range. -/
def Range.lines {α : Type} (r : Range) (text : List α) : List α :=
  (text.drop r.start).take r.length

/-- The old lines that go, the new lines that come, and where the hunk is said to start. -/
structure Hunk where
  oldStart : Nat
  newStart : Nat
  old : Range
  new : Range
deriving DecidableEq, Repr

namespace Script

/-- The runs of one fate among some changes, as one range each of old and new lines. -/
def rangesOf (fate : Fate) (changes : Script) : Option (Range × Range) :=
  match changes.filter fun r => r.fate = fate with
  | [] => none
  | r :: rs =>
    let length := Run.totalLength (r :: rs)
    some (⟨r.old, if fate = .insert then 0 else length⟩,
      ⟨r.new, if fate = .delete then 0 else length⟩)

/-- The old and the new range of some changes between lines that stay. A side without lines starts where
the change says. -/
def changed (changes : Script) : Range × Range :=
  match rangesOf .delete changes, rangesOf .insert changes with
  | some (old, _), some (_, new) => (old, new)
  | some d, none => d
  | none, some i => i
  | none, none => (⟨0, 0⟩, ⟨0, 0⟩)

/-- Two neighbouring runs belong to one group. -/
def together (r s : Run) : Bool := (r.fate == .keep) == (s.fate == .keep)

/-- Where a group of lines that stay ends. -/
def endOf (group : Script) : Option (Nat × Nat) :=
  group.head?.map fun r =>
    let length := Run.totalLength group
    (r.old + length, r.new + length)

/-- The hunks of groups of runs, after lines that end somewhere. -/
def hunksAfter (last? : Option (Nat × Nat)) : List Script → List Hunk
  | [] => []
  | group :: groups =>
    if group.all fun r => r.fate == .keep then hunksAfter (endOf group) groups
    else
      let (old, new) := changed group
      let (i, j) := last?.getD (old.start, new.start)
      ⟨i, j, old, new⟩ :: hunksAfter last? groups

end Script

/-- The hunks of a script. -/
def Script.hunks (s : Script) : List Hunk := hunksAfter none (s.splitBy together)

/-- The hunks that lead from one text to another. -/
def hunks {α : Type} [DecidableEq α] (old new : List α) : List Hunk :=
  Script.hunks (settle old new (scriptFrom 0 0 old new))

end Renumber.Diff
