import Homonym.Discovery.FileError
import Homonym.Discovery.Options
import Homonym.Duplicates.Report

/-!
# What a scan is asked for and what it gives
-/

namespace Homonym

/-- What is asked of a scan, apart from its root. -/
structure ScanRequest where
  filter : Filter := {}
  rules : RuleSet := {}
  discovery : DiscoveryOptions := {}
  /-- The first file that cannot be used ends the scan. -/
  strict : Bool := false

/-- Why a scan gives no report. -/
inductive ScanFailure where
  | interrupted
  | pathNotFound (path : String)
  | notADirectory (path : String)
  | io (text : String)
  | file (error : FileError)
deriving DecidableEq

/-- The failure in words. -/
def ScanFailure.message : ScanFailure → String
  | .interrupted => "Scan interrupted by user"
  | .pathNotFound path => "Path not found: " ++ path
  | .notADirectory path => "Not a directory: " ++ path
  | .io text => "I/O error: " ++ text
  | .file error => error.message

/-- The books of a scan. -/
structure ScanBooks where
  totalFiles : Nat
  /-- The files that could be read. -/
  filesScanned : Nat
  occurrences : Nat
  grouping : Tally
  errors : List FileError
deriving DecidableEq

/-- The outcome of a scan. -/
structure ScanResult where
  report : Report
  books : ScanBooks
deriving DecidableEq

/-- The outcome for the occurrences of some files. -/
def ScanResult.of (request : ScanRequest) (totalFiles filesScanned : Nat) (errors : List FileError)
    (occurrences : List Occurrence) : ScanResult :=
  let (groups, grouping) := Grouping.of request.filter occurrences
  { report := .build request.rules totalFiles groups
    books :=
      { totalFiles, filesScanned, occurrences := occurrences.length, grouping, errors } }

end Homonym
