import Homonym.Proofs.Discovery.Reach
import Homonym.Proofs.Scan.Refinement

/-!
# Strict scans

A scan that is not strict passes over every file and entry that cannot be used, and keeps the errors
in its books: those of the walk in its order, then those of the files in the order of their names. A
strict scan gives up at an error of the walk before it reads anything, and at an error of a file
only after all files were read. Both ways it ends with the first error that the books of the lenient
scan hold, and so it is the lenient scan cut there (`strict_eq_cutAtError`).
-/

namespace Homonym

open Discovery

/-- The outcome of a scan, cut at the first error in its books. -/
def cutAtError : Except ScanFailure ScanResult → Except ScanFailure ScanResult
  | .error failure => .error failure
  | .ok result =>
    match result.books.errors with
    | [] => .ok result
    | e :: _ => .error (.file e)

theorem cutAtError_of (request : ScanRequest) (found : Scan.Findings) :
    cutAtError (.ok (.of request found.totalFiles found.filesScanned found.errors
        found.occurrences)) =
      (Scan.heed true found.errors found >>= fun found =>
        .ok (.of request found.totalFiles found.filesScanned found.errors found.occurrences)) := by
  obtain ⟨totalFiles, filesScanned, errors, occurrences⟩ := found
  cases errors with
  | nil => rfl
  | cons e rest => rfl

theorem wholeScan_strict (tree : FileTree) (request : ScanRequest) (root : String) :
    wholeScan tree { request with strict := true } root =
      cutAtError (wholeScan tree { request with strict := false } root) := by
  unfold wholeScan
  by_cases hExists : tree.pathExists root = false
  · rw [if_pos hExists, if_pos hExists]
    rfl
  rw [if_neg hExists, if_neg hExists]
  by_cases hDir : tree.isDir root = false
  · rw [if_pos hDir, if_pos hDir]
    rfl
  rw [if_neg hDir, if_neg hDir]
  -- Being strict changes nothing in what there is to be found, only how errors are heeded.
  exact (cutAtError_of { request with strict := false }
    (Scan.findingsIn tree (Scan.walkedFiles tree request root)
      (Scan.walkErrors tree request root))).symm

/-- **A strict scan is the lenient scan cut at its first error.** It fails where the lenient scan
fails and gives the same result where that has no errors in its books. The two scans may be watched
by different monitors, as long as nobody stops them, and their workers may take different turns. -/
theorem strict_eq_cutAtError {σ τ : Type} {monitor : Monitor σ} {monitor' : Monitor τ}
    (hQuiet : ∀ state, ¬monitor.Raised state) (hQuiet' : ∀ state, ¬monitor'.Raised state)
    (turns turns' : Nat → List Nat) (tree : FileTree) (request : ScanRequest) (root : String)
    (state : σ) (state' : τ) :
    ((scanInTurns monitor turns tree { request with strict := true } root).start state).1 =
      cutAtError
        ((scanInTurns monitor' turns' tree { request with strict := false } root).start state').1 := by
  rw [start_eq_wholeScan hQuiet, start_eq_wholeScan hQuiet']
  exact wholeScan_strict tree request root

/-- A file that is no text is in the books of the lenient scan, and it ends the strict one. -/
theorem strict_stops_at_broken_file :
    let tree : FileTree := .dir [("a.ts", .file (.bytes [0xFF]))]
    let request : ScanRequest := { discovery := { respectIgnoreFile := false } }
    let lenient := ((scanInTurns Monitor.silent List.range tree request ".").start ()).1
    (∀ state, ¬Monitor.silent.Raised state) ∧
      (∃ result, lenient = .ok result ∧ result.books.errors = [.notText "./a.ts"]) ∧
      ((scanInTurns Monitor.silent List.range tree { request with strict := true } ".").start ()).1 =
        .error (.file (.notText "./a.ts")) := by
  intro tree request lenient
  have hWalk : walk tree request.discovery "." = [.ok "./a.ts"] := by
    rw [walk, prepare_fst]
    refine (Walk.outcomes_eq (w := ⟨tree, ".", false, true, _⟩) rfl
      (FileTree.lookup_here _)).trans ?_
    decide +kernel
  have hLookup : tree.lookup "./a.ts" = .ok (.file (.bytes [0xFF])) := by
    have hRefusal : pathRefusal? "./a.ts" = none := by decide
    have hRelative : Path.isAbsolute "./a.ts" = false := by decide
    have hMoves : moves "./a.ts" = [.stay, .down "a.ts"] := by decide
    have hFollow : tree.follow .look linkLimit [] [.stay, .down "a.ts"] =
        .ok (.found ["a.ts"]) := by
      rw [FileTree.follow]
      simp only [tree, Node.at?]
      rw [FileTree.follow_down rfl (by decide) (FileTree.entry?_single _) rfl, FileTree.follow]
      rfl
    rw [FileTree.lookup, FileTree.resolve, hRefusal]
    simp only [hRelative, hMoves, hFollow]
    rfl
  have hRead : tree.readText "./a.ts" =
      .error ⟨.invalidData, "stream did not contain valid UTF-8"⟩ := by
    rw [FileTree.readText, FileTree.read, hLookup]
  have hLenient : ∃ result, lenient = .ok result ∧ result.books.errors = [.notText "./a.ts"] := by
    have hScan := start_eq_wholeScan Monitor.not_raised_silent List.range tree request "." ()
    refine ⟨_, hScan.trans (wholeScan_eq_ok (isDir_dot _) rfl), ?_⟩
    simp [ScanResult.of, Scan.walkErrors, Scan.walkedFiles, Scan.successes, Scan.failures,
      Scan.unreadable, Scan.fileBelow, sortFiles, hWalk, hRead, Except.toOption, FileError.ofIo]
  have hStrict := strict_eq_cutAtError Monitor.not_raised_silent Monitor.not_raised_silent
    List.range List.range tree request "." () ()
  refine ⟨Monitor.not_raised_silent, hLenient, hStrict.trans ?_⟩
  obtain ⟨result, hResult, hErrors⟩ := hLenient
  have hCut : cutAtError (.ok result) = .error (.file (.notText "./a.ts")) := by
    rw [cutAtError, hErrors]
  exact (congrArg cutAtError hResult).trans hCut

end Homonym
