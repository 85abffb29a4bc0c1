import Renumber.Document.Json
import Renumber.Document.Toml
import Renumber.Settings

/-!
# Settings in a document

A document of settings is a table with a field for each setting that it changes. Each field may occur
once, there are no others, and its value has to be of the kind of the setting. A document may also be a
list; then its values are those of the fields in the order of `Settings.fields`.
-/

namespace Renumber.Settings

open Document (Value Format)

/-- The integer of a setting. -/
def word? : Value → Option UInt64
  | .integer n => if 0 ≤ n ∧ n < UInt64.size then some n.toNat.toUInt64 else none
  | _ => none

/-- The text of a setting. -/
def text? : Value → Option String
  | .text s => some s
  | _ => none

/-- The truth value of a setting. -/
def boolean? : Value → Option Bool
  | .boolean b => some b
  | _ => none

/-- The texts of a setting. -/
def texts? : Value → Option (List String)
  | .list vs => vs.mapM text?
  | _ => none

/-- The scope of a setting: its name, or a table with the name as its only key and nothing there. -/
def scope? (isVoid : Value → Bool) : Value → Option Scope
  | .text s => Scope.ofName? s
  | .table [(s, v)] => if isVoid v then Scope.ofName? s else none
  | _ => none

/-- A value that may be absent. -/
def optional {α : Type} (read : Value → Option α) : Value → Option (Option α)
  | .null => some none
  | v => (read v).map some

/-- A setting in a document: its name, and how its value changes the settings. -/
structure Field where
  name : String
  set : Settings → Value → Option Settings

/-- The fields of a document in their order. -/
def fields (isVoid : Value → Bool) : List Field := [
  ⟨"error_series", fun s v => (optional word? v).map fun x => { s with seed? := x }⟩,
  ⟨"series_scope", fun s v => (scope? isVoid v).map fun x => { s with scope := x }⟩,
  ⟨"extensions", fun s v => (texts? v).map fun x => { s with extensions := x }⟩,
  ⟨"exclude", fun s v => (texts? v).map fun x => { s with exclude := x }⟩,
  ⟨"write", fun s v => (boolean? v).map fun x => { s with write := x }⟩,
  ⟨"backup", fun s v => (boolean? v).map fun x => { s with backup := x }⟩,
  ⟨"append_suffix", fun s v => (optional text? v).map fun x => { s with suffix? := x }⟩,
  ⟨"output_dir", fun s v =>
    (optional text? v).map fun x => { s with directory? := x.map Path.mk }⟩,
  ⟨"dedent", fun s v => (boolean? v).map fun x => { s with dedent := x }⟩,
  ⟨"threads", fun s v => (optional word? v).map fun x => { s with threads? := x }⟩]

/-- Sets the fields of a table, each of which may be set once. -/
def setEntries (unset : List Field) (s : Settings) : List (String × Value) → Option Settings
  | [] => some s
  | (name, v) :: rest => do
    let f ← unset.find? fun f => f.name == name
    setEntries (unset.filter fun f => f.name != name) (← f.set s v) rest

/-- Sets the fields in their order. -/
def setInOrder (s : Settings) : List Field → List Value → Option Settings
  | _, [] => some s
  | [], _ :: _ => none
  | f :: fs, v :: vs => do setInOrder (← f.set s v) fs vs

/-- The settings that a value stands for. -/
def ofValue? (isVoid : Value → Bool) : Value → Option Settings
  | .table entries => setEntries (fields isVoid) default entries
  | .list vs => setInOrder default (fields isVoid) vs
  | _ => none

/-- The settings that a document stands for. -/
def ofDocument? (f : Format) (text : String) : Option Settings :=
  (f.read text.toList).bind (ofValue? f.isVoid)

/-- The format of a file. -/
def formatOf (p : Path) : Format :=
  if p.extension? == some "json" then Document.Json.format else Document.Toml.format

end Renumber.Settings
