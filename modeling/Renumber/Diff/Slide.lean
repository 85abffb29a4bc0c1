import Renumber.Diff.Run

/-!
# Sliding changes

A script often has several forms that differ only in which of two equal lines is new. Each deletion and
then each insertion is moved as far up as it goes, and then as far down as it goes, so that the
changes of a script come to stand together. On its way a change joins others of its kind, changes
places with those of the other kind, and slides past lines that stay if they are equal to its own.
-/

namespace Renumber.Diff

variable {α : Type} [DecidableEq α]

/-- A run of a script, the runs before it from the nearest on, and the runs after it. -/
structure Focus where
  before : Script
  run : Run
  after : Script
deriving Repr

namespace Focus

/-- The script around the run. -/
def toScript (f : Focus) : Script := f.before.reverse ++ f.run :: f.after

/-- Bounds the way up. -/
def wayUp : Script → Nat
  | [] => 0
  | r :: rs => r.length + 1 + wayUp rs

/-- Bounds the way down. -/
abbrev wayDown (after : Script) : Nat := wayUp after

/-- The runs after one that has slid up: lines now stay behind it. -/
def keptBelow (kept run : Run) (n : Nat) (after : Script) : Script :=
  match after with
  | next :: rest =>
    if next.fate = .keep then next.growUp n :: rest
    else
      ⟨.keep, kept.old + kept.oldLength - n, run.new + run.newLength - n, n⟩ :: next :: rest
  | [] => [⟨.keep, kept.old + kept.oldLength - n, run.new + run.newLength - n, n⟩]

/-- The runs before one that has slid down: lines now stay in front of it. -/
def keptAbove (kept run : Run) (n : Nat) (before : Script) : Script :=
  match before with
  | previous :: rest =>
    if previous.fate = .keep then previous.grow n :: rest
    else ⟨.keep, kept.old, run.new, n⟩ :: previous :: rest
  | [] => [⟨.keep, kept.old, run.new, n⟩]

/-- Moves a change as far up as it goes. -/
def moveUp (old new : List α) (before : Script) (run : Run) (after : Script) : Focus :=
  match before with
  | [] => ⟨[], run, after⟩
  | previous :: rest =>
    if previous.fate = .keep then
      let n := commonEnd (previous.oldLines old) (run.newLines new)
      if n = 0 then
        if previous.length = 0 then moveUp old new rest run after
        else ⟨previous :: rest, run, after⟩
      else if n < previous.length then
        moveUp old new (previous.shrink n :: rest) (run.up n) (keptBelow previous run n after)
      else moveUp old new rest (run.up n) (keptBelow previous run n after)
    else if previous.fate = run.fate then
      moveUp old new rest (previous.grow run.length) after
    else moveUp old new rest run (previous :: after)
termination_by wayUp before
decreasing_by
  all_goals simp only [wayUp, Run.shrink]; omega

/-- Moves a change as far down as it goes. -/
def moveDown (old new : List α) (before : Script) (run : Run) (after : Script) : Focus :=
  match after with
  | [] => ⟨before, run, []⟩
  | next :: rest =>
    if next.fate = .keep then
      let n := commonLength (next.oldLines old) (run.newLines new)
      if n = 0 then
        if next.length = 0 then moveDown old new before run rest
        else ⟨before, run, next :: rest⟩
      else if n < next.length then
        moveDown old new (keptAbove next run n before) (run.down n) (next.shrinkDown n :: rest)
      else moveDown old new (keptAbove next run n before) (run.down n) rest
    else if next.fate = run.fate then
      moveDown old new before (run.grow next.length) rest
    else moveDown old new (next :: before) run rest
termination_by wayDown after
decreasing_by
  all_goals
    simp only [wayDown, wayUp, Run.shrinkDown, Run.shrink, Run.down]
    omega

end Focus

/-- Moves each change of a fate up and then down, from the first to the last. Every step leaves at least
one run behind, and no run is left behind twice, so the bound is never met. -/
def slide (fate : Fate) (old new : List α) : Nat → Script → Script → Script
  | 0, before, after => before.reverse ++ after
  | _, before, [] => before.reverse
  | bound + 1, before, run :: after =>
    if run.fate = fate then
      let f := Focus.moveUp old new before run after
      let f := Focus.moveDown old new f.before f.run f.after
      slide fate old new bound (f.run :: f.before) f.after
    else slide fate old new bound (run :: before) after

/-- How many runs a script of two texts can have. -/
def bound (old new : List α) (s : Script) : Nat := old.length + new.length + s.length

/-- Slides the deletions of a script, then its insertions. -/
def settle (old new : List α) (s : Script) : Script :=
  let s := slide .delete old new (bound old new s) [] s
  slide .insert old new (bound old new s) [] s

end Renumber.Diff
