import Homonym.Proofs.Discovery.Reach
import Homonym.Proofs.Duplicates.Listed
import Homonym.Proofs.Duplicates.ReportText
import Homonym.Proofs.Scan.Found
import Homonym.Session.Basic

/-!
# What the exit code tells

The exit code of a scan tells whether its report lists a duplicate, and nothing else. Two runs are
compared here: one on a command line and one on another that asks for the same scan, but shows it
differently or cuts the groups of its report at another length.

* `run_of_scanned`: where a report can be delivered, the exit code is read off it. The format, the
  place and the colour do not enter.
* `hasDuplicates_wholeScan`: a cap other than one leaves every reportable group reportable, so the
  cap decides how much is listed of a group and not whether something is.

Main statement: `exit_tells_duplicates`.
-/

namespace Homonym

/-! ## The cap -/

/-- The rules with another limit on the members that are listed. -/
def RuleSet.withCap (rules : RuleSet) (cap : Int64) : RuleSet :=
  { rules with maxDuplicatesPerName := cap }

theorem toInt_ne_one {n : Int64} (h : n ≠ 1) : n.toInt ≠ 1 := by
  intro hOne
  exact h (Int64.toInt_inj.1 hOne)

namespace Report

theorem isSome_duplicate?_withCap {rules : RuleSet} {cap : Int64}
    (hOld : rules.maxDuplicatesPerName ≠ 1) (hNew : cap ≠ 1) (g : Group) :
    (duplicate? (rules.withCap cap) g).isSome = (duplicate? rules g).isSome := by
  have hNew' : (rules.withCap cap).maxDuplicatesPerName.toInt ≠ 1 := toInt_ne_one hNew
  have hCountable : (rules.withCap cap).countable = rules.countable := rfl
  have hCross : (rules.withCap cap).allowCrossModuleDuplicates = rules.allowCrossModuleDuplicates :=
    rfl
  rw [duplicate?_eq, duplicate?_eq, hCountable, hCross]
  simp only [hNew', toInt_ne_one hOld, ne_eq, not_false_eq_true, true_and]
  split
  · rw [Option.isSome_some, Option.isSome_some]
  · rfl

theorem hasDuplicates_build (rules : RuleSet) (totalFiles : Nat) (groups : List Group) :
    (build rules totalFiles groups).hasDuplicates =
      groups.any fun g => (duplicate? rules g).isSome := by
  have hPerm : (build rules totalFiles groups).duplicates.Perm
      (groups.filterMap (duplicate? rules)) := List.mergeSort_perm _ _
  rw [hasDuplicates, hPerm.isEmpty_eq, Bool.eq_iff_iff, List.any_eq_true, Bool.not_eq_true',
    List.isEmpty_eq_false_iff, ne_eq, List.filterMap_eq_nil_iff]
  simp only [not_forall, exists_prop, ← ne_eq, Option.ne_none_iff_isSome]

theorem hasDuplicates_build_withCap {rules : RuleSet} {cap : Int64}
    (hOld : rules.maxDuplicatesPerName ≠ 1) (hNew : cap ≠ 1) (totalFiles : Nat)
    (groups : List Group) :
    (build (rules.withCap cap) totalFiles groups).hasDuplicates =
      (build rules totalFiles groups).hasDuplicates := by
  simp only [hasDuplicates_build, isSome_duplicate?_withCap hOld hNew]

end Report

/-- The settings with another limit on the members that are listed. -/
def Settings.withCap (s : Settings) (cap : Int64) : Settings :=
  { s with rules := s.rules.withCap cap }

/-- The request with another limit on the members that are listed. -/
def ScanRequest.withCap (request : ScanRequest) (cap : Int64) : ScanRequest :=
  { request with rules := request.rules.withCap cap }

theorem hasDuplicates_wholeScan {tree : FileTree} {request : ScanRequest} {root : String}
    {result : ScanResult} (hWhole : wholeScan tree request root = .ok result) {cap : Int64}
    (hOld : request.rules.maxDuplicatesPerName ≠ 1) (hNew : cap ≠ 1) :
    ∃ result', wholeScan tree (request.withCap cap) root = .ok result' ∧
      result'.report.hasDuplicates = result.report.hasDuplicates := by
  have hFindings : Scan.allFindings tree (request.withCap cap) root =
      Scan.allFindings tree request root := rfl
  simp only [wholeScan] at hWhole ⊢
  rw [hFindings]
  split at hWhole
  · cases hWhole
  · rename_i hExists
    split at hWhole
    · cases hWhole
    · rename_i hDir
      rw [if_neg hExists, if_neg hDir]
      cases hFound : Scan.allFindings tree request root with
      | error failure =>
        rw [hFound] at hWhole
        cases hWhole
      | ok found =>
        rw [hFound] at hWhole
        cases hWhole
        exact ⟨_, rfl, Report.hasDuplicates_build_withCap hOld hNew _ _⟩

/-! ## The report as JSON -/

/-- The member of an object with a given name. -/
def Json.member? (name : String) : Json → Option Json
  | .obj members => lastNamed? name members
  | _ => none

theorem Report.read?_render_json {r : Report} (h : r.InWords) (colored : Bool) :
    Json.read? (r.render .json colored).toList = some r.toJson := by
  have hLayout := (writable_toJson h 122).pretty 0
  rw [render, Json.pretty, String.toList_append, String.toList_ofList]
  exact Json.read?_of_layout hLayout (Json.isGap_newLine 0)

theorem Report.exit_iff (r : Report) :
    (ExitCode.ofDuplicates r.hasDuplicates = .duplicatesFound ↔ r.duplicates ≠ []) ∧
      (ExitCode.ofDuplicates r.hasDuplicates = .success ↔ r.duplicates = []) := by
  cases hList : r.duplicates with
  | nil => simp [ExitCode.ofDuplicates, hasDuplicates, hList]
  | cons d rest => simp [ExitCode.ofDuplicates, hasDuplicates, hList]

/-! ## Settings -/

/-- Of the environment, only the variables that hold settings matter. -/
theorem Settings.loadOrDefault_variables {environment environment' : List (String × String)}
    (h : Variables.settings environment' = Variables.settings environment) (tree : FileTree)
    (root : String) (asked : Option String) (user : Option Located) :
    loadOrDefault tree { root, asked, user, environment := environment' } =
      loadOrDefault tree { root, asked, user, environment } := by
  have hLoad : load tree { root, asked, user, environment := environment' } =
      load tree { root, asked, user, environment } := by
    simp only [load, h]
    rfl
  rw [loadOrDefault, hLoad, loadOrDefault]

/-- Without any source of settings, the defaults hold. -/
theorem Settings.loadOrDefault_of_no_file {tree : FileTree} {root : String}
    (h : ∀ name ∈ projectFileNames, tree.isFile (Path.join root name) = false) :
    loadOrDefault tree { root } = ({}, []) := by
  have hNone : projectFile? tree root none = none := by
    rw [projectFile?, List.find?_eq_none]
    intro path hMem
    obtain ⟨name, hName, rfl⟩ := List.mem_map.1 hMem
    rw [h name hName]
    exact Bool.false_ne_true
  have hEmpty : ofLayers [.dict [], .dict [], Variables.settings []] = .ok {} := rfl
  simp only [loadOrDefault, load, userLayer, projectLayer, hNone, hEmpty]

/-! ## Delivery -/

/-- Whether a file can be written does not depend on what it is to hold. -/
theorem FileTree.exists_write {tree written : FileTree} {path : String} {content : Content}
    (h : tree.write path content = .ok written) (content' : Content) :
    ∃ written', tree.write path content' = .ok written' := by
  unfold write at h ⊢
  split at h
  · cases h
  · exact ⟨_, rfl⟩
  · split at h
    · exact ⟨_, rfl⟩
    · cases h

namespace Session

open CommandLine

/-- A report can be put where it is wanted: on standard output, or into a file that can be
written. -/
def Deliverable (tree : FileTree) (output : Option String) : Prop :=
  ∀ path ∈ output, ∃ content written, tree.write path content = .ok written

theorem result_deliver {tree : FileTree} {output : Option String} (h : Deliverable tree output)
    (text : String) (exit : ExitCode) : (deliver text output exit tree).result = .ok exit := by
  cases output with
  | none => rfl
  | some path =>
    obtain ⟨content, written, hWrite⟩ := h path rfl
    obtain ⟨written', hWrite'⟩ := FileTree.exists_write hWrite (.text text)
    rw [deliver, hWrite']

/-- What the scan of a command line gives. -/
def scanned (around : Surroundings) (a : ScanArguments) (tree : FileTree) :
    Except ScanFailure ScanResult :=
  (scanTree tree (scanRequest (scanSettings around a tree).1 a.strict) a.path).1

theorem scanned_eq_wholeScan (around : Surroundings) (a : ScanArguments) (tree : FileTree) :
    scanned around a tree =
      wholeScan tree (scanRequest (scanSettings around a tree).1 a.strict) a.path := by
  unfold scanned scanTree scan
  exact start_eq_wholeScan Monitor.not_raised_silent _ tree _ a.path ()

theorem duplicateGroups_of_scanned {around : Surroundings} {a : ScanArguments} {tree : FileTree}
    {result : ScanResult} (hScan : scanned around a tree = .ok result) :
    result.report.summary.duplicateGroups = result.report.duplicates.length := by
  rw [scanned_eq_wholeScan] at hScan
  rw [report_of_wholeScan hScan]
  rfl

theorem run_of_scanned {around : Surroundings} {i : Invocation} {a : ScanArguments}
    {tree : FileTree} {result : ScanResult} (hCommand : i.command = .scan a)
    (hScan : scanned around a tree = .ok result) (hOutput : Deliverable tree a.output) :
    (run around i tree).result = .ok (.ofDuplicates result.report.hasDuplicates) := by
  rw [run, hCommand]
  simp only [runScan]
  rw [scanned] at hScan
  rw [hScan]
  exact result_deliver hOutput _ _

theorem stdout_of_scanned {around : Surroundings} {i : Invocation} {a : ScanArguments}
    {tree : FileTree} {result : ScanResult} (hCommand : i.command = .scan a)
    (hScan : scanned around a tree = .ok result) (hOutput : a.output = none) :
    (run around i tree).stdout = result.report.render a.format (isColored around i a) := by
  rw [run, hCommand]
  simp only [runScan]
  rw [scanned] at hScan
  rw [hScan]
  dsimp only
  rw [hOutput]
  rfl

/-! ## Two runs -/

theorem scanned_of_shown {around around' : Surroundings} (hUser : around'.user = around.user)
    (hVariables : Variables.settings around'.environment = Variables.settings around.environment)
    (a : ScanArguments) (format : OutputFormat) (output : Option String) (tree : FileTree) :
    scanned around' { a with format := format, output := output } tree = scanned around a tree := by
  have hSettings : (scanSettings around' { a with format := format, output := output } tree).1 =
      (scanSettings around a tree).1 := by
    simp only [scanSettings, hUser, Settings.loadOrDefault_variables hVariables]
    rfl
  rw [scanned, scanned, hSettings]

/-- A cap on the command line is the one that counts. -/
theorem scanSettings_maxDuplicates (around : Surroundings) (a : ScanArguments) (cap : Int64)
    (tree : FileTree) :
    (scanSettings around { a with maxDuplicates := some cap } tree).1 =
      (scanSettings around a tree).1.withCap cap := rfl

theorem scanned_of_withCap {around around' : Surroundings} {a a' : ScanArguments}
    {tree : FileTree} {result : ScanResult} {cap : Int64}
    (hScan : scanned around a tree = .ok result) (hPath : a'.path = a.path)
    (hStrict : a'.strict = a.strict)
    (hSettings : (scanSettings around' a' tree).1 = (scanSettings around a tree).1.withCap cap)
    (hOld : (scanSettings around a tree).1.rules.maxDuplicatesPerName ≠ 1) (hNew : cap ≠ 1) :
    ∃ result', scanned around' a' tree = .ok result' ∧
      result'.report.hasDuplicates = result.report.hasDuplicates := by
  rw [scanned_eq_wholeScan] at hScan ⊢
  rw [hPath, hStrict, hSettings]
  exact hasDuplicates_wholeScan hScan hOld hNew

/-- The invocation that prints the report of a scan as JSON. -/
def inJson (i : Invocation) (a : ScanArguments) : Invocation :=
  { i with command := .scan { a with format := .json, output := none } }

/-- An exit code against the JSON text of the same scan, and against the exit codes of other
runs. -/
structure TellsDuplicates (around : Surroundings) (i : Invocation) (a : ScanArguments)
    (tree : FileTree) (report : Report) (exit : ExitCode) (json : Json)
    (duplicates : List Json) : Prop where
  result_eq : (run around i tree).result = .ok exit
  printed_eq : (run around (inJson i a) tree).stdout = json.pretty ++ "\n"
  read_printed : report.InWords →
    Json.read? (run around (inJson i a) tree).stdout.toList = some json
  duplicates_eq : json.member? "duplicates" = some (.arr duplicates)
  count_eq : (json.member? "summary").bind (Json.member? "duplicateGroupCount") =
    some (.nat duplicates.length)
  duplicatesFound_iff : exit = .duplicatesFound ↔ duplicates ≠ []
  success_iff : exit = .success ↔ duplicates = []
  /-- Runs of the same scan that show it differently. -/
  same_if_shown : ∀ around' i' format output, around'.user = around.user →
    Variables.settings around'.environment = Variables.settings around.environment →
    i'.command = .scan { a with format := format, output := output } →
    Deliverable tree output → (run around' i' tree).result = .ok exit
  /-- Runs of the same scan but for its cap. -/
  same_if_capped : ∀ around' i' a' cap, i'.command = .scan a' → a'.path = a.path →
    a'.strict = a.strict →
    (scanSettings around' a' tree).1 = (scanSettings around a tree).1.withCap cap →
    (scanSettings around a tree).1.rules.maxDuplicatesPerName ≠ 1 → cap ≠ 1 →
    Deliverable tree a'.output → (run around' i' tree).result = .ok exit

/-- **The exit code tells whether there are duplicates, and nothing else.** Of a scan that gives a
report which can be delivered, the run ends with an exit code. The code says whether the list of
duplicates in the JSON text of the same scan is empty, as does the count of groups there. Another
run has the same code if it shows the same scan in another format, at another place or in other
colours, and also if its cap differs, unless one of the two caps is one. -/
theorem exit_tells_duplicates {around : Surroundings} {i : Invocation} {a : ScanArguments}
    {tree : FileTree} {result : ScanResult} (hCommand : i.command = .scan a)
    (hScan : scanned around a tree = .ok result) (hOutput : Deliverable tree a.output) :
    ∃ exit json duplicates,
      TellsDuplicates around i a tree result.report exit json duplicates := by
  have hScanJson := (scanned_of_shown rfl rfl a .json none tree).trans hScan
  have hJson := stdout_of_scanned (i := inJson i a) rfl hScanJson rfl
  refine ⟨.ofDuplicates result.report.hasDuplicates, result.report.toJson,
    result.report.duplicates.map Duplicate.toJson, ?_⟩
  exact
    { result_eq := run_of_scanned hCommand hScan hOutput
      printed_eq := hJson
      read_printed := fun hWords => by
        rw [hJson]
        exact Report.read?_render_json hWords _
      duplicates_eq := rfl
      count_eq := by
        rw [List.length_map, ← duplicateGroups_of_scanned hScan]
        rfl
      duplicatesFound_iff := by
        rw [result.report.exit_iff.1, ne_eq, ne_eq, List.map_eq_nil_iff]
      success_iff := by
        rw [result.report.exit_iff.2, List.map_eq_nil_iff]
      same_if_shown := by
        intro around' i' format output hUser hVariables hCommand' hOutput'
        have hScan' := (scanned_of_shown hUser hVariables a format output tree).trans hScan
        exact run_of_scanned hCommand' hScan' hOutput'
      same_if_capped := by
        intro around' i' a' cap hCommand' hPath hStrict hSettings hOld hNew hOutput'
        obtain ⟨result', hScan', hSame⟩ :=
          scanned_of_withCap hScan hPath hStrict hSettings hOld hNew
        rw [← hSame]
        exact run_of_scanned hCommand' hScan' hOutput' }

/-- Two files that export one class. -/
theorem exit_of_class_in_two_files :
    let tree : FileTree := .dir [("p", .dir [("a.ts", .file (.text "export class A")),
      ("b.ts", .file (.text "export class A"))])]
    let a : ScanArguments := { path := "p", noIgnoreFile := true }
    (∃ result, scanned {} a tree = .ok result) ∧ Deliverable tree none ∧
      (run {} { command := .scan a } tree).result = .ok .duplicatesFound ∧
      (run { environment := [("NO_COLOR", "1")], terminal := true }
        { noColor := true, command := .scan { a with format := .csv } } tree).result =
          .ok .duplicatesFound ∧
      (run {} { command := .scan { a with maxDuplicates := some 5 } } tree).result =
        .ok .duplicatesFound := by
  intro tree a
  have hNoFile : ∀ name ∈ projectFileNames, tree.isFile (Path.join "p" name) = false := by
    intro name hMem
    simp only [projectFileNames, List.mem_cons, List.not_mem_nil, or_false] at hMem
    obtain rfl | rfl | rfl | rfl := hMem <;>
      rw [FileTree.isFile, FileTree.lookup_child (by decide) (by decide) (by decide)] <;> rfl
  have hSettings : (scanSettings {} a tree).1 = { respectIgnoreFile := false } := by
    rw [scanSettings, Settings.loadOrDefault_of_no_file hNoFile]
    rfl
  have hWalk : Discovery.walk tree { respectIgnoreFile := false } "p" =
      [.ok "p/a.ts", .ok "p/b.ts"] := by
    rw [Discovery.walk, Discovery.prepare_fst]
    refine (Discovery.Walk.outcomes_eq (w := ⟨tree, "p", false, true, _⟩) rfl
      (FileTree.lookup_named (by decide) (by decide))).trans ?_
    decide +kernel
  let request : ScanRequest := { discovery := { respectIgnoreFile := false } }
  have hFiles : Scan.walkedFiles tree request "p" = [⟨"a.ts", "p/a.ts"⟩, ⟨"b.ts", "p/b.ts"⟩] := by
    have hBelow : (Scan.successes (Discovery.walk tree request.discovery "p")).map
        (Scan.fileBelow "p") = [⟨"a.ts", "p/a.ts"⟩, ⟨"b.ts", "p/b.ts"⟩] := by
      rw [hWalk]
      decide
    rw [Scan.walkedFiles, hBelow]
    exact List.mergeSort_of_pairwise (by decide)
  have hRead : ∀ name ∈ ["a.ts", "b.ts"],
      tree.readText (Path.join "p" name) = .ok "export class A" := by
    intro name hMem
    simp only [List.mem_cons, List.not_mem_nil, or_false] at hMem
    obtain rfl | rfl := hMem <;>
      rw [FileTree.readText, FileTree.read,
        FileTree.lookup_child (by decide) (by decide) (by decide)] <;> rfl
  have hDir : tree.isDir "p" = true := by
    rw [FileTree.isDir, FileTree.lookup_named (by decide) (by decide)]
    rfl
  have hFound : (Scan.foundIn tree (Scan.walkedFiles tree request "p")).flatten =
      ["a.ts", "b.ts"].map fun file =>
        { name := "A", kind := .classType, file, line := 1, column := 1,
          context := some "export class A" } := by
    have hFirst : tree.readText "p/a.ts" = .ok "export class A" := hRead "a.ts" (by decide)
    have hSecond : tree.readText "p/b.ts" = .ok "export class A" := hRead "b.ts" (by decide)
    rw [hFiles]
    simp only [Scan.foundIn, Scan.successes, SourceFile.occurrences, List.map_cons, List.map_nil,
      hFirst, hSecond]
    rfl
  obtain ⟨result, hScan, hDuplicates⟩ : ∃ result, scanned {} a tree = .ok result ∧
      result.report.hasDuplicates = true := by
    have hSame : scanned {} a tree = wholeScan tree request "p" := by
      rw [scanned_eq_wholeScan, hSettings]
      rfl
    obtain ⟨result, hWhole⟩ : ∃ result, wholeScan tree request "p" = .ok result :=
      ⟨_, wholeScan_eq_ok hDir rfl⟩
    refine ⟨result, hSame.trans hWhole, ?_⟩
    rw [report_of_wholeScan hWhole, Report.hasDuplicates_build, hFound]
    decide +kernel
  have hOutput : Deliverable tree none := by
    intro path hPath
    cases hPath
  have hRun := run_of_scanned (i := { command := .scan a }) rfl hScan hOutput
  rw [hDuplicates] at hRun
  obtain ⟨exit, json, duplicates, hTells⟩ :=
    exit_tells_duplicates (i := { command := .scan a }) rfl hScan hOutput
  obtain rfl : ExitCode.duplicatesFound = exit := Except.ok.inj (hRun.symm.trans hTells.result_eq)
  refine ⟨⟨result, hScan⟩, hOutput, hTells.result_eq, ?_, ?_⟩
  · exact hTells.same_if_shown _ _ .csv none rfl rfl rfl hOutput
  · exact hTells.same_if_capped _ _ _ 5 rfl rfl rfl (scanSettings_maxDuplicates _ _ _ _)
      (by rw [hSettings]; decide) (by decide) hOutput

end Session

end Homonym
