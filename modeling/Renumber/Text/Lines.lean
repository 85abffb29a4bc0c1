/-!
# Lines

Two ways to cut a text into lines, each line with its terminator. `feedLines` cuts after each line
feed; `breakLines` also after a carriage return, and takes a carriage return with the line feed after
it as one terminator. Both lose nothing (`flatten_feedLines`, `flatten_breakLines`).
-/

namespace Renumber.Text

/-- One of the two characters that end a physical line. -/
def isBreak (c : Char) : Bool := c == '\n' || c == '\r'

/-- Puts a character in front of the first line. -/
def prepend (c : Char) : List (List Char) → List (List Char)
  | [] => [[c]]
  | line :: lines => (c :: line) :: lines

@[simp] theorem flatten_prepend (c : Char) (ls : List (List Char)) :
    (prepend c ls).flatten = c :: ls.flatten := by
  cases ls <;> simp [prepend]

/-- The lines that a line feed ends, the last one perhaps without. -/
def feedLines : List Char → List (List Char)
  | [] => []
  | c :: cs => if c = '\n' then [c] :: feedLines cs else prepend c (feedLines cs)

theorem flatten_feedLines (cs : List Char) : (feedLines cs).flatten = cs := by
  induction cs with
  | nil => rfl
  | cons c cs ih => rw [feedLines]; split <;> simp [ih]

/-- The lines that a line feed, a carriage return or both together end. -/
def breakLines : List Char → List (List Char)
  | [] => []
  | '\r' :: '\n' :: cs => ['\r', '\n'] :: breakLines cs
  | c :: cs => if isBreak c then [c] :: breakLines cs else prepend c (breakLines cs)

theorem flatten_breakLines (cs : List Char) : (breakLines cs).flatten = cs := by
  fun_induction breakLines cs with
  | case1 => rfl
  | case2 cs ih => simp [ih]
  | case3 c cs _ _ ih => simp [ih]
  | case4 c cs _ _ ih => simp [ih]

end Renumber.Text
