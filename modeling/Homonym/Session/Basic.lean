import Homonym.CommandLine.Arguments
import Homonym.Failure.ExitCode
import Homonym.Scan.Run
import Homonym.Settings.Load
import Homonym.Settings.Overrides
import Homonym.Settings.Write

/-!
# A run of the program

`run` does what an invocation asks, within a file tree. Its `Outcome` holds everything that the run
leaves behind: how it ended, what it put out, what it logged and the tree afterwards.
-/

namespace Homonym.Session

open CommandLine

/-- What a run finds around it, besides the tree. -/
structure Surroundings where
  /-- The environment variables. -/
  environment : List (String × String) := []
  /-- The settings file of the user. -/
  user : Option Located := none
  /-- Standard output is a terminal. -/
  terminal : Bool := false
  /-- Standard error, where the log goes, is a terminal. -/
  logTerminal : Bool := false

/-- What a run leaves behind. -/
structure Outcome where
  result : Except RunFailure ExitCode
  /-- The text on standard output. -/
  stdout : String := ""
  log : List Log.Entry := []
  tree : FileTree

/-- The settings of a scan, with what was logged while they were loaded. -/
def scanSettings (around : Surroundings) (a : ScanArguments) (tree : FileTree) :
    Settings × List Log.Entry :=
  let (settings, log) := Settings.loadOrDefault tree
    { root := a.path, asked := a.settingsFile, user := around.user,
      environment := around.environment }
  (settings.withArguments a, log)

/-- What is asked of a scan with given settings. -/
def scanRequest (settings : Settings) (strict : Bool) : ScanRequest :=
  { filter := settings.filter
    rules := settings.rules
    discovery := settings.discovery
    strict }

/-- The scan of a run: nobody watches it, and its files are read in their order. -/
def scanTree (tree : FileTree) (request : ScanRequest) (root : String) :
    Except ScanFailure ScanResult × List Log.Entry :=
  let (result, trace) := (scan Monitor.silent List.range tree request root).start ()
  (result, trace.log)

/-- The warning for files that could not be used. -/
def lossWarning (errors : List FileError) : List Log.Entry :=
  if errors.isEmpty then []
  else [Log.warning .app (toString errors.length ++ " files could not be read")]

/-- The report is painted: it goes to a terminal, and colour is not turned off. -/
def isColored (around : Surroundings) (i : Invocation) (a : ScanArguments) : Bool :=
  !i.noColor && a.output.isNone && around.terminal

/-- Puts a rendered report where it is wanted. -/
def deliver (text : String) (output : Option String) (exit : ExitCode) (tree : FileTree) :
    Outcome :=
  match output with
  | none => { result := .ok exit, stdout := text, tree }
  | some path =>
    match tree.write path (.text text) with
    | .error e => { result := .error { failure := .output (.write path e.message) }, tree }
    | .ok written =>
      { result := .ok exit
        log := [Log.remark .output ("Report written to " ++ path)]
        tree := written }

/-- Scans and reports. -/
def runScan (around : Surroundings) (i : Invocation) (a : ScanArguments) (tree : FileTree) :
    Outcome :=
  let (settings, loading) := scanSettings around a tree
  let (scanned, scanning) := scanTree tree (scanRequest settings a.strict) a.path
  match scanned with
  | .error failure =>
    { result := .error { failure := .scan failure }, log := loading ++ scanning, tree }
  | .ok { report, books } =>
    let text := report.render a.format (isColored around i a)
    let outcome := deliver text a.output (.ofDuplicates report.hasDuplicates) tree
    { outcome with log := loading ++ scanning ++ lossWarning books.errors ++ outcome.log }

/-- Writes a settings file that holds the defaults. -/
def runInit (a : InitArguments) (tree : FileTree) : Outcome :=
  match Settings.save {} tree a.path a.force with
  | (.ok (), written) =>
    { result := .ok .success
      log := [Log.remark .app ("Wrote default configuration to " ++ a.path)]
      tree := written }
  | (.error failure, left) =>
    let stopped : RunFailure := { failure := .settings failure }
    { result := .error (stopped.within ("Failed to initialize " ++ a.path)), tree := left }

/-- Does what an invocation asks. -/
def run (around : Surroundings) (i : Invocation) (tree : FileTree) : Outcome :=
  match i.command with
  | .scan a => runScan around i a tree
  | .init a => runInit a tree

end Homonym.Session
