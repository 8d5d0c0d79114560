/-!
# Failures of file operations

Failures of paths (`OsError`) and, above them, failures with a kind and a text (`IoError`).
-/

namespace Homonym

/-- Why an operation on a path is refused. -/
inductive OsError where
  | notFound
  | exists
  | notADirectory
  | isADirectory
  | nameTooLong
  | linkLoop
  /-- No path holds the null character, so the system is not even asked. -/
  | nullInPath
deriving DecidableEq

/-- The failure in words, with the system's number for it if it is one of the system's. -/
def OsError.message : OsError → String
  | .notFound => "No such file or directory (os error 2)"
  | .exists => "File exists (os error 17)"
  | .notADirectory => "Not a directory (os error 20)"
  | .isADirectory => "Is a directory (os error 21)"
  | .nameTooLong => "File name too long (os error 36)"
  | .linkLoop => "Too many levels of symbolic links (os error 40)"
  | .nullInPath => "file name contained an unexpected NUL byte"

/-- The kinds of failures that are told apart. -/
inductive IoKind where
  | permissionDenied
  | notFound
  | invalidData
  | invalidInput
  | alreadyExists
  | notADirectory
  | isADirectory
  | interrupted
  | unexpectedEnd
  | invalidFilename
  | filesystemLoop
  | other
deriving DecidableEq

/-- A failure of a file operation. -/
structure IoError where
  kind : IoKind
  message : String
deriving DecidableEq

/-- The failure with its kind. -/
def OsError.toIoError (e : OsError) : IoError :=
  { kind :=
      match e with
      | .notFound => .notFound
      | .exists => .alreadyExists
      | .notADirectory => .notADirectory
      | .isADirectory => .isADirectory
      | .nameTooLong => .invalidFilename
      | .linkLoop => .filesystemLoop
      | .nullInPath => .invalidInput
    message := e.message }

end Homonym
