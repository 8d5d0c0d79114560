import Homonym.FileTree.Resolve
import Homonym.Scan.Monitor
import Homonym.Source.Extraction

/-!
# Reading files side by side

The files of a scan are read by workers that go on independently of each other. The work on a file
is a row of actions: the worker asks whether the scan is to stop and, if it is not, reads the file,
then takes the next number of a count that all workers share, and then tells the monitor. Between
two actions on one file there may be any on others. The turns of a pool say whose action is next,
action after action.

What was read is handed on in the order of the files, whatever the turns were.
-/

namespace Homonym

/-- A file to be scanned: its name in reports, and the path that leads to it. -/
structure SourceFile where
  name : String
  path : String
deriving DecidableEq

/-- What reading a file gives: its occurrences, or why it cannot be used. -/
abbrev Reading := Except FileError (List Occurrence)

/-- The occurrences of a file, if it can be read as text. -/
def SourceFile.occurrences (tree : FileTree) (file : SourceFile) : Reading :=
  match tree.readText file.path with
  | .ok text => .ok (Source.extract text file.name)
  | .error e => .error (.ofIo file.path e)

namespace Scan

/-- How far the work on a file has come. -/
inductive Stage where
  | waiting
  /-- The file was not read, as the scan was to stop. -/
  | dropped
  | read (reading : Reading)
  /-- The file has this number among the files that were read. -/
  | counted (number : Nat) (reading : Reading)
  /-- The monitor knows of the file. -/
  | done (reading : Reading)

/-- The reading of a file whose work is done. -/
def Stage.reading? : Stage → Option Reading
  | .done reading => some reading
  | _ => none

/-- The work on a file. -/
structure Job where
  file : SourceFile
  stage : Stage := .waiting

/-- The work on some files, and how many of them were counted. -/
structure Pool where
  count : Nat := 0
  jobs : List Job

namespace Pool

/-- The pool whose work has not begun. -/
def of (files : List SourceFile) : Pool :=
  { jobs := files.map fun file => { file } }

/-- What was read, in the order of the files. -/
def readings (pool : Pool) : List Reading :=
  pool.jobs.filterMap fun job => job.stage.reading?

/-- The pool after an action on the file with a given number. -/
def put (pool : Pool) (number : Nat) (job : Job) (stage : Stage) : Pool :=
  { pool with jobs := pool.jobs.set number { job with stage } }

variable {σ : Type} (monitor : Monitor σ)

/-- The next action on the file with a given number. -/
def turn (tree : FileTree) (pool : Pool) (number : Nat) : ScanM σ Pool :=
  match pool.jobs[number]? with
  | none => pure pool
  | some job =>
    match job.stage with
    | .waiting => do
      if ← isStopped monitor then return pool.put number job .dropped
      else return pool.put number job (.read (job.file.occurrences tree))
    | .read reading =>
      let count := pool.count + 1
      return { pool.put number job (.counted count reading) with count }
    | .counted current reading => do
      emit monitor (.progress .extracting current job.file.name)
      return pool.put number job (.done reading)
    | .dropped | .done _ => pure pool

/-- Takes the turns of a list. -/
def run (tree : FileTree) : List Nat → Pool → ScanM σ Pool
  | [], pool => pure pool
  | number :: rest, pool => do run tree rest (← pool.turn monitor tree number)

end Pool

/-- The turns that bring the work on a file to its end. -/
def allTurns (number : Nat) : List Nat :=
  List.replicate 3 number

/-- Has the files read. The turns that are left when the given ones were taken follow in the order
of the files. -/
def readAll {σ : Type} (monitor : Monitor σ) (tree : FileTree) (turns : List Nat)
    (files : List SourceFile) : ScanM σ (List Reading) := do
  let left := (List.range files.length).flatMap allTurns
  let pool ← (Pool.of files).run monitor tree (turns ++ left)
  return pool.readings

end Scan

end Homonym
