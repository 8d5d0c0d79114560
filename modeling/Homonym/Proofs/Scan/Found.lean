import Homonym.Proofs.Scan.Refinement
import Homonym.Text.Lossy

/-!
# Reporting on the files that were found

What a scan reports depends on the files that its walk finds, in the order in which it finds them:
on their paths from the root and on their texts. A path is made of names of the file system, so its
bytes need not be text. It is shown with what cannot be read replaced, and the files are sorted and
their declarations are reported under the names that are shown (`reportOn`).

A `FileTree` has only names that are text, and these are shown as they are, so what a scan of one
reports is the report on the files that it finds (`report_eq_reportOn`).
-/

namespace Homonym

open Discovery

namespace Scan

/-- How the bytes of a path are shown. -/
def shownName (path : List UInt8) : String :=
  String.ofList (Text.decodeLossy path)

/-- A file that was found. -/
structure FoundFile where
  /-- The bytes of its path from the root. -/
  path : List UInt8
  /-- What it holds, if it can be read as text. -/
  text? : Option String

namespace FoundFile

/-- The name that the file is shown under. -/
def name (file : FoundFile) : String :=
  shownName file.path

/-- The name and the text of the file, if it can be read. -/
def source? (file : FoundFile) : Option (String × String) :=
  file.text?.map fun text => (file.name, text)

end FoundFile

/-- Files in the order of the names that are shown. Those that are shown under one name stay in the
order in which they were found. -/
def sortFound (files : List FoundFile) : List FoundFile :=
  files.mergeSort fun a b => a.name ≤ b.name

theorem name_le_trans (a b c : FoundFile) (hab : decide (a.name ≤ b.name) = true)
    (hbc : decide (b.name ≤ c.name) = true) : decide (a.name ≤ c.name) = true :=
  decide_eq_true (String.le_trans (of_decide_eq_true hab) (of_decide_eq_true hbc))

theorem name_le_total (a b : FoundFile) :
    (decide (a.name ≤ b.name) || decide (b.name ≤ a.name)) = true := by
  simpa using String.le_total a.name b.name

/-- The declarations in some files. -/
def declarationsIn (files : List FoundFile) : List Occurrence :=
  ((sortFound files).filterMap FoundFile.source?).flatMap fun source =>
    Source.extract source.2 source.1

/-- The report on some files. -/
def reportOn (request : ScanRequest) (files : List FoundFile) : Report :=
  .build request.rules files.length (Grouping.of request.filter (declarationsIn files)).1

/-! ## Trees -/

/-- Text is shown as it is. -/
theorem shownName_bytes (name : String) : shownName (Pattern.bytes name.toList) = name := by
  rw [shownName, Pattern.bytes, Text.decodeLossy_encode, String.ofList_toList]

/-- The files that a walk finds in a tree. -/
def found (tree : FileTree) (request : ScanRequest) (root : String) : List FoundFile :=
  (successes (walk tree request.discovery root)).map fun path =>
    { path := Pattern.bytes (Path.relative root path).toList
      text? := (tree.readText path).toOption }

variable {tree : FileTree} {request : ScanRequest} {root : String}

theorem map_name_found :
    (found tree request root).map FoundFile.name =
      (successes (walk tree request.discovery root)).map (Path.relative root) := by
  rw [found, List.map_map]
  exact List.map_congr_left fun path _ => shownName_bytes _

theorem declarationsIn_found :
    declarationsIn (found tree request root) =
      (foundIn tree (walkedFiles tree request root)).flatten := by
  have hSorted : sortFound (found tree request root) =
      (walkedFiles tree request root).map fun file =>
        { path := Pattern.bytes file.name.toList
          text? := (tree.readText file.path).toOption } := by
    rw [sortFound, found, walkedFiles, sortFiles, List.map_mergeSort, List.map_map]
    · rfl
    · intro a _ b _
      simp only [FoundFile.name, shownName_bytes]
  rw [foundIn_eq, ← List.flatMap_def, declarationsIn, hSorted, readable, List.filterMap_map]
  refine congrArg (List.flatMap _) (List.filterMap_congr fun file _ => ?_)
  simp only [Function.comp_apply, FoundFile.source?, FoundFile.name, shownName_bytes]
  cases tree.readText file.path <;> rfl

theorem eq_of_heed {α : Type} {strict : Bool} {errors : List FileError} {value a : α}
    (hHeeded : heed strict errors value = .ok a) : a = value := by
  unfold heed at hHeeded
  split at hHeeded
  · cases hHeeded
  · exact (Except.ok.inj hHeeded).symm

end Scan

/-- Strict or not, a scan reports on the occurrences of the files that it walks. -/
theorem report_of_wholeScan {tree : FileTree} {request : ScanRequest} {root : String}
    {result : ScanResult} (hWhole : wholeScan tree request root = .ok result) :
    let files := Scan.walkedFiles tree request root
    result.report = .build request.rules files.length
      (Grouping.of request.filter (Scan.foundIn tree files).flatten).1 := by
  simp only [wholeScan] at hWhole
  split at hWhole
  · cases hWhole
  · split at hWhole
    · cases hWhole
    · cases hFound : Scan.allFindings tree request root with
      | error failure =>
        rw [hFound] at hWhole
        cases hWhole
      | ok found =>
        rw [hFound, Scan.eq_of_heed hFound] at hWhole
        cases hWhole
        rfl

/-- **A scan of a tree reports on the files that it finds.** -/
theorem report_eq_reportOn {tree : FileTree} {request : ScanRequest} {root : String}
    {result : ScanResult} (hWhole : wholeScan tree request root = .ok result) :
    result.report = Scan.reportOn request (Scan.found tree request root) := by
  have hLength : (Scan.found tree request root).length =
      (Scan.walkedFiles tree request root).length := by
    rw [Scan.found, Scan.walkedFiles, sortFiles, List.length_mergeSort, List.length_map,
      List.length_map]
  rw [report_of_wholeScan hWhole, Scan.reportOn, Scan.declarationsIn_found, hLength]

end Homonym
