import Renumber.Diff.Meeting
import Renumber.Diff.Run

/-!
# Scripts of two texts

A script that leads from one list of lines to another: what both begin and end with stays; what is
between is cut in two where the searches meet, and each part gets a script of its own. A part that has
lines of one text only is one run.
-/

namespace Renumber.Diff

variable {α : Type} [DecidableEq α]

/-- A run, unless it has no lines. -/
def runOf (fate : Fate) (old new length : Nat) : Script :=
  if length = 0 then [] else [⟨fate, old, new, length⟩]

/-- Two texts without what they have in common at both ends. -/
structure Core (α : Type) where
  /-- How many lines both begin with. -/
  head : Nat
  /-- How many of the lines after that both end with. -/
  tail : Nat
  old : List α
  new : List α

/-- Takes off the common beginning, then the common end. -/
def Core.of (old new : List α) : Core α :=
  let head := commonLength old new
  let old' := old.drop head
  let new' := new.drop head
  let tail := commonEnd old' new'
  ⟨head, tail, old'.take (old'.length - tail), new'.take (new'.length - tail)⟩

theorem Core.length_old_le (old new : List α) : (Core.of old new).old.length ≤ old.length := by
  simp only [Core.of, List.length_take, List.length_drop]; omega

theorem Core.length_new_le (old new : List α) : (Core.of old new).new.length ≤ new.length := by
  simp only [Core.of, List.length_take, List.length_drop]; omega

/-- The script of two texts that start at given lines. A point that would leave one of the two parts
empty divides nothing: then all old lines go and all new lines come. -/
def scriptFrom (i j : Nat) (old new : List α) : Script :=
  let c := Core.of old new
  let i' := i + c.head
  let j' := j + c.head
  let middle :=
    if c.old = [] ∨ c.new = [] then
      runOf .delete i' j' c.old.length ++ runOf .insert i' j' c.new.length
    else
      match Meeting.find? c.old c.new with
      | some p =>
        if 0 < p.old + p.new ∧ p.old ≤ c.old.length ∧ p.new ≤ c.new.length ∧
            p.old + p.new < c.old.length + c.new.length then
          scriptFrom i' j' (c.old.take p.old) (c.new.take p.new) ++
            scriptFrom (i' + p.old) (j' + p.new) (c.old.drop p.old) (c.new.drop p.new)
        else runOf .delete i' j' c.old.length ++ runOf .insert i' j' c.new.length
      | none => runOf .delete i' j' c.old.length ++ runOf .insert i' j' c.new.length
  runOf .keep i j c.head ++ middle ++
    runOf .keep (i' + c.old.length) (j' + c.new.length) c.tail
termination_by old.length + new.length
decreasing_by
  all_goals
    have h₁ := Core.length_old_le old new
    have h₂ := Core.length_new_le old new
    have hc : Core.of old new = c := rfl
    simp only [hc, List.length_take, List.length_drop] at *
    omega

end Renumber.Diff
