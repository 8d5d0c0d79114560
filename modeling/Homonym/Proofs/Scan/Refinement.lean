import Homonym.Proofs.Duplicates.Tally
import Homonym.Proofs.Scan.Outcome

/-!
# Scans of trees and scans of texts

A scan of a tree that runs to its end gives what a scan of the texts in it gives
(`scanInTurns_refines_scanSources`). The texts are those of the walked files that can be read, in
the order of the files' names; the files that cannot be read only add to the count of files and to
the errors. The books balance: what was scanned and what could not be read make up the files, and
what was admitted and what was dropped make up the occurrences.
-/

namespace Homonym

namespace Scan

variable (tree : FileTree) (files : List SourceFile)

/-- The files that can be read as text: their names with their texts. -/
def readable : List (String × String) :=
  files.filterMap fun file =>
    match tree.readText file.path with
    | .ok text => some (file.name, text)
    | .error _ => none

/-- The errors of the files that cannot be read as text. -/
def unreadable : List FileError :=
  files.filterMap fun file =>
    match tree.readText file.path with
    | .ok _ => none
    | .error e => some (.ofIo file.path e)

theorem foundIn_eq :
    foundIn tree files = (readable tree files).map fun source =>
      Source.extract source.2 source.1 := by
  rw [foundIn, successes, readable, List.filterMap_map, List.map_filterMap]
  refine List.filterMap_congr fun file _ => ?_
  simp only [Function.comp_apply, SourceFile.occurrences]
  cases tree.readText file.path with
  | ok text => rfl
  | error e => rfl

theorem length_foundIn : (foundIn tree files).length = (readable tree files).length := by
  rw [foundIn_eq, List.length_map]

theorem readErrors_eq : readErrors tree files = unreadable tree files := by
  rw [readErrors, failures, unreadable, List.filterMap_map]
  refine List.filterMap_congr fun file _ => ?_
  simp only [Function.comp_apply, SourceFile.occurrences]
  cases tree.readText file.path with
  | ok text => rfl
  | error e => rfl

theorem length_readable_add :
    (readable tree files).length + (unreadable tree files).length = files.length := by
  induction files with
  | nil => rfl
  | cons file rest ih =>
    simp only [readable, unreadable, List.filterMap_cons] at ih ⊢
    cases tree.readText file.path with
    | ok text =>
      simp only [List.length_cons]
      omega
    | error e =>
      simp only [List.length_cons]
      omega

theorem pairwise_sortFiles : (sortFiles files).Pairwise fun a b => a.name ≤ b.name := by
  have hSorted : (sortFiles files).Pairwise fun a b => decide (a.name ≤ b.name) = true := by
    refine List.pairwise_mergeSort (fun a b c hab hbc => ?_) (fun a b => ?_) files
    · exact decide_eq_true (String.le_trans (of_decide_eq_true hab) (of_decide_eq_true hbc))
    · simpa using String.le_total a.name b.name
  exact hSorted.imp of_decide_eq_true

end Scan

open Discovery

/-- The result of scanning files of a tree, against the result of scanning the texts of those that
can be read. -/
structure Refines (tree : FileTree) (files : List SourceFile) (walkErrors : List FileError)
    (result inMemory : ScanResult) : Prop where
  report_eq : result.report = { inMemory.report with summary.totalFiles := files.length }
  totalFiles_eq : result.books.totalFiles = files.length
  filesScanned_eq : result.books.filesScanned = (Scan.readable tree files).length
  filesScanned_add :
    result.books.filesScanned + (Scan.unreadable tree files).length = result.books.totalFiles
  errors_eq : result.books.errors = walkErrors ++ Scan.unreadable tree files
  occurrences_eq : result.books.occurrences = result.books.grouping.total
  total_eq :
    result.books.grouping.total = result.books.grouping.admitted + result.books.grouping.dropped
  totalDeclarations_eq :
    result.report.summary.totalDeclarations = result.books.grouping.admitted

theorem refines_of (tree : FileTree) (request : ScanRequest) (files : List SourceFile)
    (walkErrors : List FileError) (occurrences : List Occurrence) :
    Refines tree files walkErrors
      (.of request files.length (Scan.readable tree files).length
        (walkErrors ++ Scan.unreadable tree files) occurrences)
      (.of request (Scan.readable tree files).length (Scan.readable tree files).length []
        occurrences) := by
  have hBalanced := Grouping.balanced_of request.filter occurrences
  exact
    { report_eq := rfl
      totalFiles_eq := rfl
      filesScanned_eq := rfl
      filesScanned_add := Scan.length_readable_add tree files
      errors_eq := rfl
      occurrences_eq := hBalanced.total_eq.symm
      total_eq := hBalanced.admitted_add.symm
      totalDeclarations_eq := hBalanced.members_eq }

theorem wholeScan_eq_ok {tree : FileTree} {request : ScanRequest} {root : String}
    (hDir : tree.isDir root = true) (hLenient : request.strict = false) :
    wholeScan tree request root =
      .ok (.of request (Scan.walkedFiles tree request root).length
        (Scan.readable tree (Scan.walkedFiles tree request root)).length
        (Scan.walkErrors tree request root ++
          Scan.unreadable tree (Scan.walkedFiles tree request root))
        (Scan.foundIn tree (Scan.walkedFiles tree request root)).flatten) := by
  have hFindings : Scan.allFindings tree request root =
      .ok (Scan.findingsIn tree (Scan.walkedFiles tree request root)
        (Scan.walkErrors tree request root)) := by
    refine Scan.heed_eq_ok (fun hStrict => ?_) _
    rw [hLenient] at hStrict
    cases hStrict
  rw [wholeScan, if_neg (by simp [pathExists_of_isDir hDir]), if_neg (by simp [hDir]), hFindings,
    ← Scan.readErrors_eq, ← Scan.length_foundIn]
  rfl

theorem start_scanSources {σ : Type} {monitor : Monitor σ}
    (hQuiet : ∀ state, ¬monitor.Raised state) (request : ScanRequest)
    (sources : List (String × String)) (state : σ) :
    ((scanSources monitor request sources).start state).1 =
      .ok (.of request sources.length sources.length []
        (sources.flatMap fun source => Source.extract source.2 source.1)) := by
  have hLatched := Monitor.latched_of_quiet hQuiet
  have hEnds := Scan.settles_checkpoint hLatched
    (Scan.settles_checkpoint hLatched (Scan.settles_pure
      (ScanResult.of request sources.length sources.length []
        (sources.flatMap fun source => Source.extract source.2 source.1))).endsWith).endsWith
  exact hEnds.endsWith.eq_of_quiet hQuiet _

/-- **A scan of a tree refines the scan of its texts.** Unless it is strict or stopped, the scan of
a directory succeeds, however the workers take turns. -/
theorem scanInTurns_refines_scanSources {σ : Type} {monitor : Monitor σ}
    (hQuiet : ∀ state, ¬monitor.Raised state) (turns : Nat → List Nat) {tree : FileTree}
    {request : ScanRequest} {root : String} (hDir : tree.isDir root = true)
    (hLenient : request.strict = false) (state : σ) :
    let walked := walk tree request.discovery root
    let files := Scan.walkedFiles tree request root
    files.Perm ((Scan.successes walked).map (Scan.fileBelow root)) ∧
      (files.Pairwise fun a b => a.name ≤ b.name) ∧
      ∃ result inMemory,
        ((scanInTurns monitor turns tree request root).start state).1 = .ok result ∧
        ((scanSources monitor request (Scan.readable tree files)).start state).1 = .ok inMemory ∧
        Refines tree files (Scan.failures walked) result inMemory := by
  intro walked files
  refine ⟨List.mergeSort_perm _ _, Scan.pairwise_sortFiles _, _, _, ?_,
    start_scanSources hQuiet request _ state, refines_of tree request files _ _⟩
  rw [start_eq_wholeScan hQuiet, wholeScan_eq_ok hDir hLenient, Scan.foundIn_eq, List.flatMap]
  rfl

/-- One file that is text, one that is not, and one that is passed over. -/
theorem refines_with_broken_file :
    let tree : FileTree :=
      .dir [("notes.md", .file (.text "# A")),
        ("src", .dir [("a.ts", .file (.text "class A \x7b\x7d")), ("b.ts", .file (.bytes [0xFF]))])]
    let walked := walk tree {} "."
    let files := Scan.walkedFiles tree {} "."
    tree.isDir "." = true ∧
      files.Perm ((Scan.successes walked).map (Scan.fileBelow ".")) ∧
      (files.Pairwise fun a b => a.name ≤ b.name) ∧
      ∃ result inMemory,
        ((scanInTurns Monitor.silent List.range tree {} ".").start ()).1 = .ok result ∧
        ((scanSources Monitor.silent {} (Scan.readable tree files)).start ()).1 = .ok inMemory ∧
        Refines tree files (Scan.failures walked) result inMemory := by
  intro tree walked files
  have hDir : tree.isDir "." = true := isDir_dot _
  exact ⟨hDir, scanInTurns_refines_scanSources Monitor.not_raised_silent List.range hDir rfl ()⟩

end Homonym
