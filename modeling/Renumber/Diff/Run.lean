/-!
# Runs of an edit script

An edit script is a list of runs: lines that stay, old lines that go, new lines that come. A run knows
where it is in both texts. On the side that it has no lines of, its position is where it would be; when
runs change places, that position is left as it was.
-/

namespace Renumber.Diff

/-- What happens to the lines of a run. -/
inductive Fate where
  | keep
  | delete
  | insert
deriving DecidableEq, Repr

/-- Some consecutive lines with one fate: where they are in the old text and in the new one, and how
many they are. -/
structure Run where
  fate : Fate
  old : Nat
  new : Nat
  length : Nat
deriving DecidableEq, Repr

/-- A script: runs in order. -/
abbrev Script := List Run

namespace Run

/-- How many old lines a run has. -/
def oldLength (r : Run) : Nat := if r.fate = .insert then 0 else r.length

/-- How many new lines a run has. -/
def newLength (r : Run) : Nat := if r.fate = .delete then 0 else r.length

/-- The old lines of a run. -/
def oldLines {α : Type} (r : Run) (old : List α) : List α := (old.drop r.old).take r.oldLength

/-- The new lines of a run. -/
def newLines {α : Type} (r : Run) (new : List α) : List α := (new.drop r.new).take r.newLength

/-- How many lines some runs have. -/
def totalLength : List Run → Nat
  | [] => 0
  | r :: rs => r.length + totalLength rs

/-- The run some lines further up. -/
def up (r : Run) (n : Nat) : Run := { r with old := r.old - n, new := r.new - n }

/-- The run some lines further down. -/
def down (r : Run) (n : Nat) : Run := { r with old := r.old + n, new := r.new + n }

/-- The run with more lines at its end. -/
def grow (r : Run) (n : Nat) : Run := { r with length := r.length + n }

/-- The run with fewer lines at its end. -/
def shrink (r : Run) (n : Nat) : Run := { r with length := r.length - n }

/-- The run with more lines at its start. -/
def growUp (r : Run) (n : Nat) : Run := (r.up n).grow n

/-- The run with fewer lines at its start. -/
def shrinkDown (r : Run) (n : Nat) : Run := (r.down n).shrink n

end Run

/-- The length of the longest common beginning. -/
def commonLength {α : Type} [DecidableEq α] : List α → List α → Nat
  | a :: as, b :: bs => if a = b then commonLength as bs + 1 else 0
  | _, _ => 0

theorem commonLength_le_left {α : Type} [DecidableEq α] (as bs : List α) :
    commonLength as bs ≤ as.length := by
  fun_induction commonLength as bs with
  | case1 as bs a ih => simpa using ih
  | case2 => simp
  | case3 => simp

theorem commonLength_le_right {α : Type} [DecidableEq α] (as bs : List α) :
    commonLength as bs ≤ bs.length := by
  fun_induction commonLength as bs with
  | case1 as bs a ih => simpa using ih
  | case2 => simp
  | case3 => simp

theorem take_commonLength {α : Type} [DecidableEq α] (as bs : List α) :
    as.take (commonLength as bs) = bs.take (commonLength as bs) := by
  fun_induction commonLength as bs with
  | case1 as bs a ih => simpa using ih
  | case2 => simp
  | case3 => simp

/-- The length of the longest common end. -/
def commonEnd {α : Type} [DecidableEq α] (as bs : List α) : Nat :=
  commonLength as.reverse bs.reverse

theorem commonEnd_le_left {α : Type} [DecidableEq α] (as bs : List α) :
    commonEnd as bs ≤ as.length := by
  simpa [commonEnd] using commonLength_le_left as.reverse bs.reverse

theorem commonEnd_le_right {α : Type} [DecidableEq α] (as bs : List α) :
    commonEnd as bs ≤ bs.length := by
  simpa [commonEnd] using commonLength_le_right as.reverse bs.reverse

end Renumber.Diff
