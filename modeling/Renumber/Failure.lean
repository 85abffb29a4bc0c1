import Renumber.Path

/-!
# Failures

What can stop a file or a whole run, and how it is told. A failure that concerns one file only is
recoverable: the other files of a run are not affected (`Failure.recoverable`).
-/

namespace Renumber

/-- Why the system refuses an operation on a file. -/
inductive SystemError where
  | notFound
  | busy
  | alreadyExists
  | notDirectory
  | isDirectory
  | nameTooLong
  | notText
  | notRegular
  | other (text : String)
deriving DecidableEq, Repr

/-- The wording of a system error. -/
def SystemError.message : SystemError → String
  | .notFound => "No such file or directory (os error 2)"
  | .busy => "Device or resource busy (os error 16)"
  | .alreadyExists => "File exists (os error 17)"
  | .notDirectory => "Not a directory (os error 20)"
  | .isDirectory => "Is a directory (os error 21)"
  | .nameTooLong => "File name too long (os error 36)"
  | .notText => "stream did not contain valid UTF-8"
  | .notRegular => "the source path is neither a regular file nor a symlink to a regular file"
  | .other text => text

/-- What was tried on a file. -/
inductive Operation where
  | read
  | removeBackup
  | backUp
  | createDirectory
  | createTemporary
  | write
  | copyPermissions
  | persist
deriving DecidableEq, Repr

/-- An operation in the words of a message. -/
def Operation.phrase : Operation → String
  | .read => "read"
  | .removeBackup => "remove backup"
  | .backUp => "back up"
  | .createDirectory => "create directory"
  | .createTemporary => "create temp file in"
  | .write => "write"
  | .copyPermissions => "copy permissions to"
  | .persist => "persist"

/-- Why a file or a run could not be dealt with. -/
inductive Failure where
  | parse (origin : String) (message : String) (line column : Nat)
  | config (message : String)
  | input (path : Path) (message : String)
  | io (operation : Operation) (path : Path) (cause : SystemError)
  | internal (message : String)
  | interrupted
  | seriesExhausted (last : UInt64)
deriving DecidableEq, Repr

namespace Failure

/-- How a failure is told. -/
def message : Failure → String
  | parse origin message line column =>
    "Parse error in " ++ origin ++ ": " ++ message ++ " at line " ++ toString line ++
      ", column " ++ toString column
  | config message => "Configuration error: " ++ message
  | input path message => "Input error for path '" ++ path.text ++ "': " ++ message
  | io operation path cause =>
    "Failed to " ++ operation.phrase ++ " '" ++ path.text ++ "': " ++ cause.message
  | internal message => "Internal error: " ++ message
  | interrupted => "Interrupted"
  | seriesExhausted last =>
    "Error series exhausted: no code follows " ++ toString last.toNat

/-- The failure concerns one file only. -/
def recoverable : Failure → Bool
  | parse .. | io .. => true
  | _ => false

/-- The system error behind a failure. -/
def cause? : Failure → Option SystemError
  | io _ _ cause => some cause
  | _ => none

/-- The origin of a text that comes from no file. -/
def inMemory : String := "<source>"

/-- Names the file that a text came from. Only a parse failure has an origin. -/
def withOrigin (f : Failure) (path : Path) : Failure :=
  match f with
  | parse _ message line column => parse path.text message line column
  | f => f

end Failure

/-- A failed step of a batch gives nothing; the batch goes on. -/
def continued {α : Type} : Except Failure α → Option α
  | .ok a => some a
  | .error _ => none

end Renumber
