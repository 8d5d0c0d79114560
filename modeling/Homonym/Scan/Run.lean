import Homonym.Discovery.Walk
import Homonym.Scan.Workers

/-!
# Scanning a project

`scan` walks a root, reads the files it finds and reports on their declarations. Files are taken in
the order of their paths as seen from the root, whatever order the walk finds them in and whatever
order the workers read them in, so the report does not depend on either.

A file or entry that cannot be used is noted and passed over or, in a strict scan, ends it. When the
monitor asks to stop, the work that is left is dropped, and the next checkpoint ends the scan.
-/

namespace Homonym

open Discovery

/-- Files in the order of their names. -/
def sortFiles (files : List SourceFile) : List SourceFile :=
  files.mergeSort fun a b => a.name ≤ b.name

namespace Scan

variable {σ : Type} (monitor : Monitor σ)

/-- Takes in the outcomes of a walk, of which `count` files were taken in before. -/
def collect (strict : Bool) (root : String) :
    Nat → List Outcome → ScanM σ (List SourceFile × List FileError)
  | _, [] => pure ([], [])
  | count, outcome :: rest => do
    if ← isStopped monitor then collect strict root count rest
    else
      match outcome with
      | .ok path =>
        let file : SourceFile := { name := Path.relative root path, path }
        emit monitor (.progress .walking (count + 1) file.name)
        let (files, errors) ← collect strict root (count + 1) rest
        return (file :: files, errors)
      | .error e =>
        say [Log.warning .discovery e.message]
        if strict then throw (.file e)
        let (files, errors) ← collect strict root count rest
        return (files, e :: errors)

/-- The walking phase. -/
def walking (tree : FileTree) (request : ScanRequest) (root : String) :
    ScanM σ (List SourceFile × List FileError) := do
  emit monitor (.start .walking 0)
  let (walk, warnings) := prepare tree request.discovery root
  say warnings
  let (files, errors) ← collect monitor request.strict root 0 walk.outcomes
  emit monitor (.finish .walking)
  return (sortFiles files, errors)

/-- Takes in what reading the files gave: how many could be read, the occurrences in them, and the
failures. -/
def takeIn (strict : Bool) :
    List Reading → ScanM σ (Nat × List Occurrence × List FileError)
  | [] => pure (0, [], [])
  | .ok found :: rest => do
    let (count, occurrences, errors) ← takeIn strict rest
    return (count + 1, found ++ occurrences, errors)
  | .error e :: rest => do
    if strict then throw (.file e)
    say [Log.warning .scan ("Skipping file: " ++ e.message)]
    let (count, occurrences, errors) ← takeIn strict rest
    return (count, occurrences, e :: errors)

/-- The extracting phase, with given turns of the workers. -/
def extracting (tree : FileTree) (request : ScanRequest) (turns : List Nat)
    (files : List SourceFile) : ScanM σ (Nat × List Occurrence × List FileError) := do
  emit monitor (.start .extracting files.length)
  let readings ← readAll monitor tree turns files
  emit monitor (.finish .extracting)
  checkpoint monitor
  let (count, occurrences, errors) ← takeIn request.strict readings
  say [Log.remark .scan ("Extracted " ++ toString occurrences.length ++ " declarations from " ++
    toString count ++ " files")]
  return (count, occurrences, errors)

/-- What the phases of a scan find. -/
structure Findings where
  totalFiles : Nat
  /-- The files that could be read. -/
  filesScanned : Nat
  errors : List FileError
  occurrences : List Occurrence

/-- Both phases. For every number of files, `turns` says how the workers take turns. -/
def gather (turns : Nat → List Nat) (tree : FileTree) (request : ScanRequest) (root : String) :
    ScanM σ Findings := do
  say [Log.remark .scan ("Starting declaration scan of " ++ root)]
  checkpoint monitor
  let (files, walkErrors) ← walking monitor tree request root
  say [Log.timedRemark .scan ("Found " ++ toString files.length ++ " source files")]
  checkpoint monitor
  let (filesScanned, occurrences, readErrors) ←
    extracting monitor tree request (turns files.length) files
  return {
    totalFiles := files.length
    filesScanned
    errors := walkErrors ++ readErrors
    occurrences }

end Scan

/-- Scans the project at a root, the workers taking turns as given for every number of files. -/
def scanInTurns {σ : Type} (monitor : Monitor σ) (turns : Nat → List Nat) (tree : FileTree)
    (request : ScanRequest) (root : String) : ScanM σ ScanResult := do
  if !tree.pathExists root then throw (.pathNotFound root)
  if !tree.isDir root then throw (.notADirectory root)
  let found ← Scan.gather monitor turns tree request root
  checkpoint monitor
  let result :=
    ScanResult.of request found.totalFiles found.filesScanned found.errors found.occurrences
  say [Log.timedRemark .scan ("Scan complete: " ++ toString result.report.summary.duplicateGroups ++
    " duplicate groups (" ++ toString result.report.summary.duplicateDeclarations ++
    " declarations)")]
  return result

/-- Scans the project at a root, one file after the other in a given order of their numbers. -/
def scan {σ : Type} (monitor : Monitor σ) (order : Nat → List Nat) (tree : FileTree)
    (request : ScanRequest) (root : String) : ScanM σ ScanResult :=
  scanInTurns monitor (fun count => (order count).flatMap Scan.allTurns) tree request root

/-- Scans texts that are given with their names. -/
def scanSources {σ : Type} (monitor : Monitor σ) (request : ScanRequest)
    (sources : List (String × String)) : ScanM σ ScanResult := do
  checkpoint monitor
  let occurrences := sources.flatMap fun (name, text) => Source.extract text name
  checkpoint monitor
  return .of request sources.length sources.length [] occurrences

end Homonym
