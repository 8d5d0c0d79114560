import Homonym.Scan.Result

/-!
# Failures and their causes

What may end a run without a result. `Failure.causes` tells a failure in words, from what was
attempted down to what the system said; a cause that is quoted by the one above it is told twice.
A `RunFailure` adds what the run was about, the outermost first.
-/

namespace Homonym

/-- Why settings were not written. -/
inductive WriteFailure where
  | alreadyExists (path : String)
  | io (path : String) (text : String)
deriving DecidableEq

/-- The failure in words. -/
def WriteFailure.message : WriteFailure → String
  | .alreadyExists path =>
    "Configuration file already exists: " ++ path ++ " (use --force to overwrite)"
  | .io path text => "I/O error for " ++ path ++ ": " ++ text

/-- Why a report was not put out. -/
inductive OutputFailure where
  /-- The report could not be rendered. -/
  | render (text : String)
  /-- The report could not be written. -/
  | write (path : String) (text : String)
deriving DecidableEq

/-- The failure in words. -/
def OutputFailure.message : OutputFailure → String
  | .render text => "I/O error: " ++ text
  | .write path text => "Failed to write report to " ++ path ++ ": " ++ text

/-- What may end a run. -/
inductive Failure where
  | scan (failure : ScanFailure)
  | file (error : FileError)
  | settings (failure : WriteFailure)
  | output (failure : OutputFailure)
  | other (text : String)
deriving DecidableEq

/-- What the system said of a file, if that is known. -/
def FileError.cause? : FileError → Option String
  | .io _ text => some text
  | _ => none

/-- What the system said of a failed scan, if that is known. -/
def ScanFailure.cause? : ScanFailure → Option String
  | .io text => some text
  | .file error => error.cause?
  | _ => none

/-- What the system said of settings that were not written, if that is known. -/
def WriteFailure.cause? : WriteFailure → Option String
  | .alreadyExists _ => none
  | .io _ text => some text

/-- What the system said of a report that was not put out. -/
def OutputFailure.cause : OutputFailure → String
  | .render text => text
  | .write _ text => text

/-- A failure and its causes in words. -/
def Failure.causes : Failure → List String
  | .scan failure => failure.message :: failure.cause?.toList
  | .file error => error.message :: error.cause?.toList
  | .settings failure => failure.message :: failure.cause?.toList
  | .output failure => [failure.message, failure.cause]
  | .other text => [text]

/-- A failure with what the run was about, the outermost first. -/
structure RunFailure where
  contexts : List String := []
  failure : Failure
deriving DecidableEq

namespace RunFailure

/-- The same failure within something larger. -/
def within (f : RunFailure) (context : String) : RunFailure :=
  { f with contexts := context :: f.contexts }

/-- The whole story, from the outermost on. -/
def chain (f : RunFailure) : List String :=
  f.contexts ++ f.failure.causes

/-- The outermost part of the story. -/
def summary (f : RunFailure) : String :=
  f.chain.headD ""

/-- The whole story in one line. -/
def message (f : RunFailure) : String :=
  ": ".intercalate f.chain

end RunFailure

end Homonym
