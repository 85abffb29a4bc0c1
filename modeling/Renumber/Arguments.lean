import Renumber.Run

/-!
# Command lines

What the words of a command line ask for. The words are read from left to right. A switch holds from
where it stands. An option that takes values collects the words after it, and its values are used when
the next option comes or the line ends (`Arguments.Reading.settle`). The first word that breaks a rule
decides, so help that is asked for before such a word is given and help asked for after it is not.
-/

namespace Renumber

/-- What a command line asks for. -/
inductive Request where
  | help
  | version
  /-- A run, and whether it tells without colours. -/
  | run (command : Command) (plain : Bool)
deriving DecidableEq, Repr

namespace Arguments

/-- An option that takes values. -/
inductive Key where
  | inputs
  | directory
  | suffix
  | seed
  | scope
  | threads
  | settings
deriving DecidableEq, Repr

/-- An option that takes no values. -/
inductive Switch where
  | write
  | noWrite
  | backup
  | noDedent
  | verbose
  | noColour
  | help
  | version
deriving DecidableEq, Repr

/-- An option. -/
inductive Mark where
  | key (k : Key)
  | switch (s : Switch)
deriving DecidableEq, Repr

/-- The long names of the options; of two for one option the first is the usual one. -/
def longNames : List (String × Mark) := [
  ("input", .key .inputs), ("input_directory", .key .inputs),
  ("output-dir", .key .directory), ("output_directory", .key .directory),
  ("append-suffix", .key .suffix), ("append_suffix", .key .suffix),
  ("error-series", .key .seed), ("error_series", .key .seed),
  ("series-scope", .key .scope), ("threads", .key .threads), ("config", .key .settings),
  ("write", .switch .write), ("no-write", .switch .noWrite), ("backup", .switch .backup),
  ("no-dedent", .switch .noDedent), ("verbose", .switch .verbose),
  ("no-color", .switch .noColour), ("help", .switch .help), ("version", .switch .version)]

/-- The letters of the options that have one. -/
def letters : List (Char × Mark) := [
  ('i', .key .inputs), ('o', .key .directory), ('a', .key .suffix), ('e', .key .seed),
  ('j', .key .threads), ('c', .key .settings), ('w', .switch .write), ('b', .switch .backup),
  ('v', .switch .verbose), ('h', .switch .help), ('V', .switch .version)]

/-- The option of a long name. -/
def Mark.ofLong? (name : String) : Option Mark := longNames.lookup name

/-- The option of a letter. -/
def Mark.ofLetter? (c : Char) : Option Mark := letters.lookup c

/-- The usual name of an option. -/
def Mark.name (m : Mark) : String :=
  match longNames.find? fun (_, n) => n = m with
  | some (name, _) => "--" ++ name
  | none => ""

/-- Why a command line asks for nothing. -/
inductive Misuse where
  | unknownOption (name : String)
  /-- No option takes this word. -/
  | strayWord (word : String)
  | missingValue (k : Key)
  | uselessValue (k : Key) (value : String)
  | unwantedValue (s : Switch) (value : String)
  | repeated (m : Mark)
  | noInputs
deriving DecidableEq, Repr

/-- How a misuse is told. -/
def Misuse.message : Misuse → String
  | .unknownOption name => "there is no option '" ++ name ++ "'"
  | .strayWord word => "no option takes '" ++ word ++ "'"
  | .missingValue k => (Mark.key k).name ++ " needs a value"
  | .uselessValue k value => (Mark.key k).name ++ " has no use for '" ++ value ++ "'"
  | .unwantedValue s value => (Mark.switch s).name ++ " takes no value, but '" ++ value ++ "' is given"
  | .repeated m => m.name ++ " is given twice"
  | .noInputs => (Mark.key .inputs).name ++ " has to be given"

/-- Why no more words are read. -/
inductive Stop where
  /-- A switch that needs no other word. -/
  | asked (r : Request)
  | misused (m : Misuse)
deriving DecidableEq, Repr

/-- The value of decimal digits. -/
def decimal (digits : List Char) : Nat := digits.foldl (fun n c => 10 * n + (c.toNat - 48)) 0

/-- The number that a value stands for: decimal digits, with or without a plus sign. -/
def number? (value : String) : Option UInt64 :=
  let digits := match value.toList with
    | '+' :: cs => cs
    | cs => cs
  if digits.isEmpty || !digits.all Char.isDigit then none
  else
    let n := decimal digits
    if n < UInt64.size then some (.ofNat n) else none

/-- The path that a value stands for. -/
def path? (value : String) : Option Path := if value == "" then none else some ⟨value⟩

/-- A command that nothing is said of. -/
def blank : Command := ⟨[], none, {}⟩

/-- The option has a value, and takes no other. -/
def Key.settled (c : Command) : Key → Bool
  | .inputs => false
  | .directory => c.overrides.directory?.isSome
  | .suffix => c.overrides.suffix?.isSome
  | .seed => c.overrides.seed?.isSome
  | .scope => c.overrides.scope?.isSome
  | .threads => c.overrides.threads?.isSome
  | .settings => c.settingsFile?.isSome

/-- The command with a value of an option, unless the option has no use for it. -/
def Key.set? (c : Command) (value : String) : Key → Option Command
  | .inputs => (path? value).map fun p => { c with inputs := c.inputs ++ [p] }
  | .directory => (path? value).map fun p =>
    { c with overrides := { c.overrides with directory? := some p } }
  | .suffix => some { c with overrides := { c.overrides with suffix? := some value } }
  | .seed => do
    let n ← number? value
    guard (n ≠ 0)
    return { c with overrides := { c.overrides with seed? := some n } }
  | .scope => (Scope.ofName? value).map fun s =>
    { c with overrides := { c.overrides with scope? := some s } }
  | .threads => (number? value).map fun n =>
    { c with overrides := { c.overrides with threads? := some n } }
  | .settings => (path? value).map fun p => { c with settingsFile? := some p }

/-- What the words read so far ask for. -/
structure Reading where
  command : Command
  plain : Bool
  /-- The option that collects values, with those that it has. -/
  collecting? : Option (Key × List String)

namespace Reading

/-- Nothing is read so far. -/
def start : Reading := ⟨blank, false, none⟩

/-- Uses a value of an option. -/
def use (r : Reading) (k : Key) (value : String) : Except Stop Reading :=
  if k.settled r.command then .error (.misused (.repeated (.key k)))
  else
    match k.set? r.command value with
    | some c => .ok { r with command := c }
    | none => .error (.misused (.uselessValue k value))

/-- Uses the values that were collected. -/
def settle (r : Reading) : Except Stop Reading :=
  match r.collecting? with
  | none => .ok r
  | some (k, []) => .error (.misused (.missingValue k))
  | some (k, values) => values.foldlM (fun r v => r.use k v) { r with collecting? := none }

/-- An option that collects values from here on. -/
def collect (r : Reading) (k : Key) : Except Stop Reading := do
  return { ← r.settle with collecting? := some (k, []) }

/-- An option with a value in the same word. -/
def attach (r : Reading) (k : Key) (value : String) : Except Stop Reading := do
  (← r.settle).use k value

/-- The overrides with a switch, unless they have it. -/
def override (r : Reading) (s : Switch) (isOn : Settings.Overrides → Bool)
    (on : Settings.Overrides → Settings.Overrides) : Except Stop Reading :=
  if isOn r.command.overrides then .error (.misused (.repeated (.switch s)))
  else .ok { r with command := { r.command with overrides := on r.command.overrides } }

/-- A switch. The two that speak of writing undo each other. -/
def flip (r : Reading) (s : Switch) : Except Stop Reading := do
  let r ← r.settle
  match s with
  | .write => r.override s (·.write? == some true) ({ · with write? := some true })
  | .noWrite => r.override s (·.write? == some false) ({ · with write? := some false })
  | .backup => r.override s (·.backup?.isSome) ({ · with backup? := some true })
  | .noDedent => r.override s (·.dedent?.isSome) ({ · with dedent? := some false })
  | .verbose => return r
  | .noColour =>
    if r.plain then throw (.misused (.repeated (.switch s)))
    return { r with plain := true }
  | .help => throw (.asked .help)
  | .version => throw (.asked .version)

/-- A word without a hyphen in front is a value of the option that collects values. One value is enough
for every option but the inputs. -/
def value (r : Reading) (word : String) : Except Stop Reading :=
  match r.collecting? with
  | some (k, values) =>
    if k = .inputs ∨ values = [] then .ok { r with collecting? := some (k, values ++ [word]) }
    else .error (.misused (.strayWord word))
  | none => .error (.misused (.strayWord word))

/-- A long name, with a value after an equals sign or without one. -/
def long (r : Reading) (text : List Char) : Except Stop Reading :=
  let name := String.ofList (text.takeWhile (· ≠ '='))
  match Mark.ofLong? name, text.dropWhile (· ≠ '=') with
  | none, _ => .error (.misused (.unknownOption name))
  | some (.switch s), [] => r.flip s
  | some (.switch s), _ :: v => .error (.misused (.unwantedValue s (.ofList v)))
  | some (.key k), [] => r.collect k
  | some (.key k), _ :: v => r.attach k (.ofList v)

/-- Letters, each of them an option; what follows the letter of an option that takes values is its value. -/
def cluster (r : Reading) : List Char → Except Stop Reading
  | [] => .ok r
  | c :: cs =>
    match Mark.ofLetter? c, cs with
    | none, _ => .error (.misused (.unknownOption (String.singleton c)))
    | some (.switch s), cs => do cluster (← r.flip s) cs
    | some (.key k), [] => r.collect k
    | some (.key k), '=' :: v => r.attach k (.ofList v)
    | some (.key k), v => r.attach k (.ofList v)

/-- One word. -/
def word (r : Reading) (w : String) : Except Stop Reading :=
  match w.toList with
  | '-' :: '-' :: text => r.long text
  | '-' :: c :: cs => r.cluster (c :: cs)
  | _ => r.value w

/-- All words. Nothing may follow two hyphens that stand alone. -/
def words (r : Reading) : List String → Except Stop Reading
  | [] => .ok r
  | "--" :: [] => .ok r
  | "--" :: w :: _ => .error (.misused (.strayWord w))
  | w :: rest => do words (← r.word w) rest

/-- The end of the line. -/
def finish (r : Reading) : Except Stop Request := do
  let r ← r.settle
  if r.command.inputs = [] then throw (.misused .noInputs)
  return .run r.command r.plain

end Reading

end Arguments

/-- What some words ask for. -/
def Request.ofWords (words : List String) : Except Arguments.Misuse Request :=
  match Arguments.Reading.start.words words >>= Arguments.Reading.finish with
  | .ok r => .ok r
  | .error (.asked r) => .ok r
  | .error (.misused m) => .error m

end Renumber
