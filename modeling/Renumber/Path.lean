/-!
# Paths

A path is a text cut into segments at slashes. An empty segment, and a segment of one dot after the
first, only fill: they name nothing. What is left over are the components: the root of an absolute
path, a leading dot of a relative one, steps up, and names. Two paths with the same components are
the same path to every function here that compares; the functions that take a path apart keep the
text of what they keep, fill included, but for fill at the end.
-/

namespace Renumber

/-- A path as it is written. -/
structure Path where
  text : String
deriving DecidableEq, Repr, Inhabited

namespace Path

/-- Cuts a text at each slash. -/
def cut : List Char → List (List Char)
  | [] => [[]]
  | c :: cs =>
    if c = '/' then [] :: cut cs
    else
      match cut cs with
      | [] => [[c]]
      | s :: ss => (c :: s) :: ss

/-- What a path starts with, apart from its segments. -/
inductive Anchor where
  | root
  | here
  | bare
deriving DecidableEq, Repr

/-- One step of a path. -/
inductive Component where
  | root
  | here
  | up
  | name (s : String)
deriving DecidableEq, Repr

/-- A segment that names nothing. -/
def isFill (s : String) : Bool := s == "" || s == "."

/-- The segments without the fill at the end. -/
def trimRight (segments : List String) : List String :=
  (segments.reverse.dropWhile isFill).reverse

/-- The segments without the fill at both ends. -/
def trim (segments : List String) : List String := trimRight (segments.dropWhile isFill)

/-- A path as an anchor and the segments after it. -/
def parts (p : Path) : Anchor × List String :=
  match (cut p.text.toList).map String.ofList with
  | "" :: s :: rest => (.root, s :: rest)
  | "." :: rest => (.here, rest)
  | segments => (.bare, segments)

/-- The path that an anchor and segments make. -/
def ofParts : Anchor → List String → Path
  | .root, segments => ⟨"/" ++ "/".intercalate segments⟩
  | .here, segments => ⟨String.join ("." :: segments.map ("/" ++ ·))⟩
  | .bare, segments => ⟨"/".intercalate segments⟩

/-- The components that an anchor stands for. -/
def Anchor.components : Anchor → List Component
  | .root => [.root]
  | .here => [.here]
  | .bare => []

/-- The component that a segment stands for. -/
def componentOf (s : String) : Component := if s == ".." then .up else .name s

/-- The components of segments. -/
def componentsOf (segments : List String) : List Component :=
  (segments.filter fun s => !isFill s).map componentOf

/-- The steps of a path. -/
def components (p : Path) : List Component :=
  p.parts.1.components ++ componentsOf p.parts.2

/-- The path starts at the root. -/
def isAbsolute (p : Path) : Bool := p.parts.1 == .root

/-- The path without its last component. -/
def parent? (p : Path) : Option Path :=
  let (anchor, segments) := p.parts
  match trimRight segments, anchor with
  | [], .here => some ⟨""⟩
  | [], _ => none
  | s :: ss, anchor => some (ofParts anchor (trimRight (s :: ss).dropLast))

/-- The last component, if it is a name. -/
def fileName? (p : Path) : Option String :=
  match (trimRight p.parts.2).getLast? with
  | some s => if s == ".." then none else some s
  | none => none

/-- A file name before and after its last dot. A name without a dot after its first character has
nothing after it. -/
def splitName (name : String) : String × Option String :=
  let cs := name.toList.reverse
  let after := cs.takeWhile (· ≠ '.')
  match cs.dropWhile (· ≠ '.') with
  | _ :: c :: before =>
    (String.ofList (c :: before).reverse, some (String.ofList after.reverse))
  | _ => (name, none)

/-- The file name without its extension. -/
def stem? (p : Path) : Option String := p.fileName?.map fun n => (splitName n).1

/-- What stands behind the last dot of the file name. -/
def extension? (p : Path) : Option String := p.fileName?.bind fun n => (splitName n).2

/-- One path below another; an absolute one stands alone. -/
def join (p q : Path) : Path :=
  if q.isAbsolute then q
  else if p.text == "" || p.text.toList.getLast? == some '/' then ⟨p.text ++ q.text⟩
  else ⟨p.text ++ "/" ++ q.text⟩

/-- The path with another file name; a path without one gets the name as one more component. -/
def withFileName (p : Path) (name : String) : Path :=
  match p.fileName?, p.parent? with
  | some _, some d => d.join ⟨name⟩
  | _, _ => p.join ⟨name⟩

/-- The path at which a copy of a file is kept. -/
def backup (p : Path) : Path := ⟨p.text ++ ".bak"⟩

/-- The path that is left of one path below another. -/
def stripBase? (p base : Path) : Option Path :=
  let (anchor, segments) := p.parts
  match base.components with
  | [] => some (ofParts anchor (trimRight segments))
  | b :: bs =>
    match anchor.components, b :: bs with
    | [], bs => (below segments bs).map (ofParts .bare)
    | a :: _, b :: bs => if a = b then (below segments bs).map (ofParts .bare) else none
    | _ :: _, [] => none
where
  /-- The segments after those that stand for the components. -/
  below (segments : List String) : List Component → Option (List String)
    | [] => some (trim segments)
    | c :: cs =>
      match segments.dropWhile isFill with
      | [] => none
      | s :: rest => if componentOf s = c then below rest cs else none

end Path

end Renumber
