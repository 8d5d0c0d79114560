import Homonym.FileTree.OsError

/-!
# Files that cannot be used
-/

namespace Homonym

/-- Why a file or directory could not be used. -/
inductive FileError where
  | permissionDenied (path : String)
  | notFound (path : String)
  | notADirectory (path : String)
  | notText (path : String)
  | io (path : String) (text : String)
deriving DecidableEq

namespace FileError

/-- The failure in words. -/
def message : FileError → String
  | .permissionDenied path => "Permission denied: " ++ path
  | .notFound path => "Path not found: " ++ path
  | .notADirectory path => "Not a directory: " ++ path
  | .notText path => "Not valid UTF-8: " ++ path
  | .io path text => "I/O error for " ++ path ++ ": " ++ text

/-- What a failed operation on a path means for it. -/
def ofIo (path : String) (e : IoError) : FileError :=
  match e.kind with
  | .permissionDenied => .permissionDenied path
  | .notFound => .notFound path
  | .invalidData => .notText path
  | _ => .io path e.message

end FileError

end Homonym
