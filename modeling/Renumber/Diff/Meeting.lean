/-!
# Where two searches meet

A path through the grid of two lists leads from the upper left to the lower right corner. It goes right
over an old line that is deleted, down over a new line that is inserted, and diagonally, at no cost,
over a line that both have. The search for a cheapest path starts at both ends at once: a round takes
each search one costly step further on every diagonal. Where the two meet is in the middle of a
cheapest path.

The search from the end is the search from the start in the two lists read backwards.
-/

namespace Renumber.Diff

/-- A search from the corner where both lists start, and how far it got on each diagonal. The diagonal
of a point is the number of its column less that of its row. -/
structure Search (α : Type) where
  old : Array α
  new : Array α
  /-- How many diagonals there are on each side of the main one. -/
  breadth : Nat
  /-- The column reached on each diagonal, from the lowest diagonal to the highest. -/
  reached : Array Nat

namespace Search

variable {α : Type} [DecidableEq α]

/-- A search that has not started. -/
def start (old new : Array α) (breadth : Nat) : Search α :=
  ⟨old, new, breadth, Array.replicate (2 * breadth + 1) 0⟩

/-- The column reached on a diagonal. -/
def column (s : Search α) (k : Int) : Nat := s.reached.getD (k + s.breadth).toNat 0

/-- How many equal lines follow a point. -/
def slideFrom (old new : Array α) (x y : Nat) : Nat :=
  if hx : x < old.size then
    if hy : y < new.size then
      if old[x] = new[y] then slideFrom old new (x + 1) (y + 1) + 1 else 0
    else 0
  else 0
termination_by old.size - x

/-- Where the step onto a diagonal in a round leads, before any equal lines. -/
def entry (s : Search α) (round : Nat) (k : Int) : Nat :=
  if k = -round ∨ (k ≠ round ∧ s.column (k - 1) < s.column (k + 1)) then s.column (k + 1)
  else s.column (k - 1) + 1

/-- Steps onto a diagonal: the column of the step and the search afterwards. -/
def step (s : Search α) (round : Nat) (k : Int) : Nat × Search α :=
  let x := s.entry round k
  let y := (x : Int) - k
  let far := if y < 0 then x else x + slideFrom s.old s.new x y.toNat
  (x, { s with reached := s.reached.setIfInBounds (k + s.breadth).toNat far })

end Search

/-- A point of the grid. -/
structure Point where
  old : Nat
  new : Nat
deriving DecidableEq, Repr

/-- The diagonals that a round steps onto, from the highest to the lowest. -/
def diagonals (round : Nat) : List Int :=
  (List.range (round + 1)).map fun (i : Nat) => (round : Int) - 2 * (i : Int)

namespace Meeting

variable {α : Type} [DecidableEq α]

/-- One round of the search from the start. It meets the other one if the way lengths differ by an odd
number; the answer is where the step that met it began to run over equal lines. -/
def forward (round : Nat) (back : Search α) :
    List Int → Search α → Except Point (Search α)
  | [], s => .ok s
  | k :: ks, s =>
    let (x, s') := s.step round k
    let delta := (s'.old.size : Int) - s'.new.size
    if delta % 2 ≠ 0 ∧ (k - delta).natAbs < round ∧
        s'.old.size ≤ s'.column k + back.column (delta - k) then
      .error ⟨x, ((x : Int) - k).toNat⟩
    else forward round back ks s'

/-- One round of the search from the end. It meets the other one if the way lengths differ by an even
number; the answer is where the equal lines of the step that met it end, seen from the start. -/
def backward (round : Nat) (fore : Search α) :
    List Int → Search α → Except Point (Search α)
  | [], s => .ok s
  | k :: ks, s =>
    let (_, s') := s.step round k
    let delta := (s'.old.size : Int) - s'.new.size
    let x := s'.column k
    if delta % 2 = 0 ∧ (k - delta).natAbs ≤ round ∧
        s'.old.size ≤ x + fore.column (delta - k) then
      .error ⟨s'.old.size - x, ((s'.new.size : Int) - (x - k)).toNat⟩
    else backward round fore ks s'

/-- The rounds from one on, as many as the count says. -/
def rounds (fore back : Search α) (round : Nat) : Nat → Option Point
  | 0 => none
  | left + 1 =>
    match forward round back (diagonals round) fore with
    | .error p => some p
    | .ok fore' =>
      match backward round fore' (diagonals round) back with
      | .error p => some p
      | .ok back' => rounds fore' back' (round + 1) left

/-- The point in which the searches meet. A path costs no more steps than there are lines, and each
search needs half of them. -/
def find? (old new : List α) : Option Point :=
  let count := (old.length + new.length + 1) / 2 + 1
  rounds (.start old.toArray new.toArray count)
    (.start old.reverse.toArray new.reverse.toArray count) 0 count

end Meeting

end Renumber.Diff
