import Homonym.Failure.Causes
import Homonym.Json.Writer

/-!
# Exit codes

How a run ends, as a number for the shell and as a code in front of an error message.
-/

namespace Homonym

/-- How a run ends. -/
inductive ExitCode where
  | success
  | duplicatesFound
  | generalError
  | interrupted
deriving DecidableEq

namespace ExitCode

/-- The number for the shell. -/
def number : ExitCode → Nat
  | .success => 0
  | .duplicatesFound => 1
  | .generalError => 2
  | .interrupted => 130

/-- The code in front of a message. -/
def code : ExitCode → String
  | .success => "ND000"
  | .duplicatesFound => "ND001"
  | .generalError => "ND002"
  | .interrupted => "ND130"

/-- The end of a scan that gave a report. -/
def ofDuplicates (found : Bool) : ExitCode :=
  if found then .duplicatesFound else .success

/-- The end of a run that failed. -/
def ofFailure (f : RunFailure) : ExitCode :=
  if f.failure = .scan .interrupted then .interrupted else .generalError

end ExitCode

namespace RunFailure

/-- A failure as JSON. -/
def toJson (f : RunFailure) : Json :=
  let exit := ExitCode.ofFailure f
  .obj [("code", .str exit.code), ("exit_code", .nat exit.number), ("message", .str f.message),
    ("interrupted", .bool (exit == .interrupted))]

/-- A failure as it is shown to the user. -/
def display (f : RunFailure) (asJson : Bool) : String :=
  if asJson then f.toJson.pretty
  else "[" ++ (ExitCode.ofFailure f).code ++ "] Error: " ++ f.message

end RunFailure

end Homonym
