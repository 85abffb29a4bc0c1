import Renumber.Arguments
import Renumber.Diff.Review
import Renumber.Proofs.Diff.Review
import Renumber.Discovery
import Renumber.Disk.Write
import Renumber.Main
import Renumber.Numbering
import Renumber.Proofs.Brackets
import Renumber.Proofs.Concatenation
import Renumber.Proofs.Delimited
import Renumber.Proofs.Disk.Atomic
import Renumber.Proofs.Disk.Backup
import Renumber.Proofs.Disk.Frame
import Renumber.Proofs.Disk.Holding
import Renumber.Proofs.Disk.Location
import Renumber.Proofs.Disk.Over
import Renumber.Proofs.Formatting
import Renumber.Proofs.Grammar.Argument
import Renumber.Proofs.Grammar.Balance
import Renumber.Proofs.Grammar.Bare
import Renumber.Proofs.Grammar.Brackets
import Renumber.Proofs.Grammar.Clean
import Renumber.Proofs.Grammar.Descent
import Renumber.Proofs.Grammar.Fixed
import Renumber.Proofs.Grammar.Formed
import Renumber.Proofs.Grammar.Kinds
import Renumber.Proofs.Grammar.Leading
import Renumber.Proofs.Grammar.Line
import Renumber.Proofs.Grammar.Look
import Renumber.Proofs.Grammar.Makes
import Renumber.Proofs.Grammar.Progress
import Renumber.Proofs.Grammar.Regular
import Renumber.Proofs.Grammar.Seam
import Renumber.Proofs.Grammar.Survey
import Renumber.Proofs.Grammar.Taken
import Renumber.Proofs.Grammar.Tidy
import Renumber.Proofs.Layout.Blocks
import Renumber.Proofs.Layout.Columns
import Renumber.Proofs.Layout.Cut
import Renumber.Proofs.Layout.Groups
import Renumber.Proofs.Layout.Inside
import Renumber.Proofs.Layout.Lexemes
import Renumber.Proofs.Layout.Lines
import Renumber.Proofs.Layout.Nested
import Renumber.Proofs.Layout.Scan
import Renumber.Proofs.Layout.Seam
import Renumber.Proofs.Layout.Step
import Renumber.Proofs.LineEndings
import Renumber.Proofs.Lossless
import Renumber.Proofs.Margin
import Renumber.Proofs.Numbering.Alike
import Renumber.Proofs.Numbering.Apply
import Renumber.Proofs.Numbering.Behind
import Renumber.Proofs.Numbering.Dedent
import Renumber.Proofs.Numbering.Exhaust
import Renumber.Proofs.Numbering.Frame
import Renumber.Proofs.Numbering.Kept
import Renumber.Proofs.Numbering.Line
import Renumber.Proofs.Numbering.Overwrite
import Renumber.Proofs.Numbering.Patch
import Renumber.Proofs.Numbering.Quiet
import Renumber.Proofs.Numbering.Recode
import Renumber.Proofs.Numbering.Refused
import Renumber.Proofs.Numbering.Relex
import Renumber.Proofs.Numbering.Reparse
import Renumber.Proofs.Numbering.Reread
import Renumber.Proofs.Numbering.Site
import Renumber.Proofs.Numbering.Twin
import Renumber.Proofs.Numbering.Walk
import Renumber.Proofs.Output
import Renumber.Proofs.Positions
import Renumber.Proofs.Recovery
import Renumber.Proofs.RoundTrip
import Renumber.Proofs.Run.Backups
import Renumber.Proofs.Run.InPlace
import Renumber.Proofs.Run.InTurn
import Renumber.Proofs.Run.Settle
import Renumber.Proofs.Run.Sources
import Renumber.Proofs.Run.Targets
import Renumber.Proofs.Run.Told
import Renumber.Proofs.Seed
import Renumber.Proofs.Sound
import Renumber.Proofs.Strings
import Renumber.Proofs.Suffix
import Renumber.Proofs.Tree.Path
import Renumber.Proofs.Tree.Prefix
import Renumber.Proofs.Tree.Splice
import Renumber.Proofs.WellFormed
import Renumber.Report
import Renumber.Run
import Renumber.Seed
import Renumber.Settings.File
import Renumber.Source
import Renumber.Tree.Outline
