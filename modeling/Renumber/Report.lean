import Renumber.Diff.Review
import Renumber.Run

/-!
# Reports

How the notices of a run are shown. Changes and the reminder go to the standard output, warnings and
errors to the standard error. Colours mark the lines by what they are; without colours the same lines
are shown plain.
-/

namespace Renumber.Report

/-- A look that text can have. -/
inductive Style where
  | plain
  | bold
  | red
  | green
  | yellow
  | cyan
  | boldRed
  | boldYellow
deriving DecidableEq, Repr

/-- The number of a style in an escape sequence. -/
def Style.code? : Style → Option String
  | .plain => none
  | .bold => some "1"
  | .red => some "31"
  | .green => some "32"
  | .yellow => some "33"
  | .cyan => some "36"
  | .boldRed => some "1;31"
  | .boldYellow => some "1;33"

/-- The escape sequence that ends a style. -/
def reset : String := "\x1b[0m"

/-- Text in a style. Where the text itself ends a style, the style starts again. -/
def paint (colours : Bool) (s : Style) (text : String) : String :=
  match colours, s.code? with
  | true, some code =>
    let start := "\x1b[" ++ code ++ "m"
    start ++ text.replace reset (reset ++ start) ++ reset
  | _, _ => text

/-- The style of a line of a review. -/
def styleOf (line : String) : Style :=
  if line.startsWith "---" || line.startsWith "+++" then .bold
  else if line.startsWith "@@" then .cyan
  else if line.startsWith "-" then .red
  else if line.startsWith "+" then .green
  else .plain

/-- The version of the program. -/
def version : String := "0.1.0"

/-- The answer to a question for the version. -/
def versionText : String := "errfix " ++ version ++ "\n"

/-- The answer to a question for help. -/
def usage : String :=
  "Gives every error call in Python sources a fresh number.\n\n" ++
  "Usage: errfix [OPTIONS] --input <PATH>...\n\n" ++
  "Options:\n" ++
  "  -i, --input <PATH>...        files, or directories to look through\n" ++
  "  -e, --error-series <SEED>    the first number is one more than the seed\n" ++
  "      --series-scope <SCOPE>   per-file or shared\n" ++
  "  -w, --write                  write over the sources (default)\n" ++
  "      --no-write               leave the sources as they are\n" ++
  "  -o, --output-dir <DIR>       without writing over the sources, write below this directory\n" ++
  "  -a, --append-suffix <SUFFIX> put _SUFFIX behind the name of every file that is written\n" ++
  "  -b, --backup                 keep a copy of every source that is written over\n" ++
  "      --no-dedent              read sources with the margin that their lines share\n" ++
  "  -c, --config <FILE>          read settings from this file\n" ++
  "  -j, --threads <COUNT>        at most so many threads\n" ++
  "  -v, --verbose                tell more\n" ++
  "      --no-color               no colours\n" ++
  "  -h, --help                   this text\n" ++
  "  -V, --version                the version\n"

/-- What is asked for once files were written. -/
def reminder : String :=
  "Please verify modified files and add files by running `git add .` to approve modified files."

/-- The lines on the standard output for a notice. -/
def outputLines (colours : Bool) : Notice → List String
  | .changed path before after =>
    paint colours .yellow ("Fixing error numbers: [" ++ path.text ++ "]") ::
      ((Diff.reviewLines before after).map fun l => paint colours (styleOf l) l) ++ [""]
  | .reminder => [paint colours .yellow reminder]
  | .noSources => []
  | .failure _ => []

/-- The lines on the standard error for a notice. -/
def errorLines (colours : Bool) : Notice → List String
  | .changed .. => []
  | .reminder => []
  | .noSources =>
    [paint colours .boldYellow "warning" ++ ": No source files found in the given inputs"]
  | .failure f => [paint colours .boldRed "error" ++ ": " ++ f.message]

/-- Lines as text, each with a line feed. -/
def textOf (lines : List String) : String := String.join (lines.map (· ++ "\n"))

/-- The standard output of a run. -/
def output (colours : Bool) (ns : List Notice) : String := textOf (ns.flatMap (outputLines colours))

/-- The standard error of a run. -/
def errors (colours : Bool) (ns : List Notice) : String := textOf (ns.flatMap (errorLines colours))

/-- Colours are shown where they are forced, and never where they are turned off. -/
def showsColours (forced off : Bool) : Bool := forced && !off

end Renumber.Report
