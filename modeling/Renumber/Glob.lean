import Renumber.Failure

/-!
# Patterns of paths

A pattern is matched against the whole text of a path. A star stands for any text and a question mark
for any character, slashes and leading dots among them; brackets list characters and ranges, an
exclamation mark in front takes all others. Two stars stand for any number of components: they make up
a whole component of the pattern, and what is matched after them starts where they start, behind a
slash, or at the end.
-/

namespace Renumber

/-- What a part of a pattern stands for. -/
inductive Glob.Part where
  | char (c : Char)
  | anyChar
  /-- One character in one of the ranges, or in none of them. -/
  | among (negated : Bool) (ranges : List (Char × Char))
  | anyText
  | anyComponents
deriving DecidableEq, Repr

/-- A pattern. -/
abbrev Glob := List Glob.Part

namespace Glob

/-- What is wrong with a pattern. -/
inductive Cause where
  | tooManyStars
  | starsInComponent
  | badRange
deriving DecidableEq, Repr

/-- A fault of a pattern and the number of the character it is at. -/
structure Fault where
  cause : Cause
  position : Nat
deriving DecidableEq, Repr

/-- The wording of a cause. -/
def Cause.message : Cause → String
  | .tooManyStars => "wildcards are either regular `*` or recursive `**`"
  | .starsInComponent => "recursive wildcards must form a single path component"
  | .badRange => "invalid range pattern"

/-- How a fault is told. -/
def Fault.message (f : Fault) : String :=
  "Pattern syntax error near position " ++ toString f.position ++ ": " ++ f.cause.message

/-! ## Reading a pattern -/

/-- The characters and ranges between brackets. -/
def rangesOf : List Char → List (Char × Char)
  | a :: '-' :: b :: cs => (a, b) :: rangesOf cs
  | a :: cs => (a, a) :: rangesOf cs
  | [] => []

/-- What stands between brackets and what comes after them. The first character is never the closing
bracket. -/
def bracket : List Char → Option (List Char × List Char)
  | [] => none
  | c :: cs =>
    match cs.dropWhile (· ≠ ']') with
    | [] => none
    | _ :: rest => some (c :: cs.takeWhile (· ≠ ']'), rest)

theorem length_bracket {cs inside rest : List Char} (h : bracket cs = some (inside, rest)) :
    rest.length < cs.length := by
  unfold bracket at h
  split at h
  · cases h
  · rename_i c cs
    split at h
    · cases h
    · rename_i d rest' hd
      simp only [Option.some.injEq, Prod.mk.injEq] at h
      obtain ⟨-, rfl⟩ := h
      have := (List.dropWhile_sublist (· ≠ ']') (l := cs)).length_le
      simp_all
      omega

/-- A character class and what comes after it. -/
def classOf (cs : List Char) : Option (Part × List Char) :=
  match cs with
  | '!' :: body => (bracket body).map fun (inside, rest) => (.among true (rangesOf inside), rest)
  | body => (bracket body).map fun (inside, rest) => (.among false (rangesOf inside), rest)

theorem length_classOf {cs rest : List Char} {p : Part} (h : classOf cs = some (p, rest)) :
    rest.length < cs.length := by
  unfold classOf at h
  split at h
  all_goals
    obtain ⟨⟨inside, rest'⟩, hb, he⟩ := Option.map_eq_some_iff.1 h
    simp only [Prod.mk.injEq] at he
    obtain ⟨-, rfl⟩ := he
    have := length_bracket hb
    simp_all
  omega

/-- What may come in front of two stars: a slash or nothing. -/
def opensComponent : Option Char → Bool
  | none => true
  | some c => c == '/'

/-- The parts of a pattern from a position on, after a character. -/
def partsFrom (i : Nat) (before : Option Char) (cs : List Char) : Except Fault Glob :=
  match cs with
  | [] => .ok []
  | '*' :: '*' :: '*' :: _ => .error ⟨.tooManyStars, i + 2⟩
  | '*' :: '*' :: rest =>
    if opensComponent before then
      match rest with
      | [] => .ok [.anyComponents]
      | '/' :: rest => (partsFrom (i + 3) (some '/') rest).map (.anyComponents :: ·)
      | _ => .error ⟨.starsInComponent, i + 2⟩
    else .error ⟨.starsInComponent, i - 1⟩
  | '*' :: rest => (partsFrom (i + 1) (some '*') rest).map (.anyText :: ·)
  | '?' :: rest => (partsFrom (i + 1) (some '?') rest).map (.anyChar :: ·)
  | '[' :: rest =>
    match h : classOf rest with
    | none => .error ⟨.badRange, i⟩
    | some (p, rest') =>
      (partsFrom (i + 1 + (rest.length - rest'.length)) (some ']') rest').map (p :: ·)
  | c :: rest => (partsFrom (i + 1) (some c) rest).map (.char c :: ·)
termination_by cs.length
decreasing_by
  rotate_left 3
  · have hlt := length_classOf h
    simp only [List.length_cons]
    omega
  all_goals
    simp only [List.length_cons]
    omega

/-- The pattern that a text is. -/
def parse (pattern : String) : Except Fault Glob := partsFrom 0 none pattern.toList

/-- The exclude patterns that some texts are. -/
def parseAll (patterns : List String) : Except Failure (List Glob) :=
  patterns.mapM fun p =>
    (parse p).mapError fun e =>
      .config ("invalid exclude pattern '" ++ p ++ "': " ++ e.message)

/-! ## Matching -/

/-- The text and all that is left of it after dropping characters. -/
def suffixes : List Char → List (List Char)
  | [] => [[]]
  | c :: cs => (c :: cs) :: suffixes cs

/-- What follows each slash of a text, and the end of it. -/
def behindSlashes : List Char → List (List Char)
  | [] => [[]]
  | c :: cs => if c = '/' then cs :: behindSlashes cs else behindSlashes cs

/-- A part that stands for one character stands for this one. -/
def Part.holds (c : Char) : Part → Bool
  | .char d => c == d
  | .anyChar => true
  | .among negated ranges => negated != ranges.any fun (a, b) => a ≤ c && c ≤ b
  | .anyText => false
  | .anyComponents => false

/-- The pattern stands for the whole text. -/
def matchesText : Glob → List Char → Bool
  | [], cs => cs.isEmpty
  | .anyText :: ps, cs => (suffixes cs).any (matchesText ps)
  | .anyComponents :: ps, cs => (cs :: behindSlashes cs).any (matchesText ps)
  | _ :: _, [] => false
  | p :: ps, c :: cs => p.holds c && matchesText ps cs

/-- The pattern stands for the path. -/
def matchesPath (g : Glob) (p : Path) : Bool := matchesText g p.text.toList

end Glob

end Renumber
