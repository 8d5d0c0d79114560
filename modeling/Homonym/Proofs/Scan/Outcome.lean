import Homonym.Proofs.FileTree.Plain
import Homonym.Proofs.Scan.Turns
import Homonym.Scan.Run

/-!
# What a scan gives

`wholeScan` is the outcome of a scan that nobody stops, without monitor, workers or log: the files
and errors of the walk, what can be read of the files in the order of their names, and, in a strict
scan, the first of all errors. Every phase settles on its part of it (`settles_walking`,
`settles_extracting`, `settles_gather`), and so a scan gives `wholeScan` or ends as interrupted
(`concludes_scanInTurns`). In particular the turns of the workers do not matter to it.
-/

namespace Homonym

open Discovery

namespace Scan

variable {σ α : Type}

/-! ## The outcome that is not cut short -/

/-- The values among some results. -/
def successes {ε α : Type} (results : List (Except ε α)) : List α :=
  results.filterMap Except.toOption

/-- The failures among some results. -/
def failures {ε α : Type} (results : List (Except ε α)) : List ε :=
  results.filterMap fun
    | .ok _ => none
    | .error e => some e

/-- A value that comes with errors. In a strict scan the first of them ends it. -/
def heed (strict : Bool) (errors : List FileError) (value : α) : Except ScanFailure α :=
  match strict, errors with
  | true, e :: _ => .error (.file e)
  | _, _ => .ok value

/-- The file at a path below a root. -/
def fileBelow (root path : String) : SourceFile :=
  { name := Path.relative root path, path }

section Descriptions

variable (tree : FileTree) (request : ScanRequest) (root : String)

/-- The files of a walk, in the order of their names. -/
def walkedFiles : List SourceFile :=
  sortFiles ((successes (walk tree request.discovery root)).map (fileBelow root))

/-- The errors of a walk, in its order. -/
def walkErrors : List FileError :=
  failures (walk tree request.discovery root)

/-- The occurrences of each file that can be read. -/
def foundIn (files : List SourceFile) : List (List Occurrence) :=
  successes (files.map (SourceFile.occurrences tree))

/-- The errors of the files that cannot be read. -/
def readErrors (files : List SourceFile) : List FileError :=
  failures (files.map (SourceFile.occurrences tree))

/-- What there is to be found in some files, when these errors came before. -/
def findingsIn (files : List SourceFile) (errors : List FileError) : Findings :=
  { totalFiles := files.length
    filesScanned := (foundIn tree files).length
    errors := errors ++ readErrors tree files
    occurrences := (foundIn tree files).flatten }

/-- What the phases find when nobody stops them. -/
def allFindings : Except ScanFailure Findings :=
  let findings := findingsIn tree (walkedFiles tree request root) (walkErrors tree request root)
  heed request.strict findings.errors findings

end Descriptions

variable {monitor : Monitor σ} {β : Type}

theorem heed_bind (strict : Bool) (errors : List FileError) (value : α) (f : α → β) :
    (heed strict errors value >>= fun a => .ok (f a)) = heed strict errors (f value) := by
  cases strict <;> cases errors <;> rfl

/-- The errors of two parts are heeded one after the other. -/
theorem heed_bind_heed (strict : Bool) (errors : List FileError) (value : α)
    (errors' : α → List FileError) (f : α → β) :
    (heed strict errors value >>= fun a => heed strict (errors' a) (f a)) =
      heed strict (errors ++ errors' value) (f value) := by
  cases strict <;> cases errors <;> rfl

theorem heed_eq_ok {strict : Bool} {errors : List FileError} (h : strict = true → errors = [])
    (value : α) : heed strict errors value = .ok value := by
  cases strict with
  | true => rw [h rfl]; rfl
  | false => rfl

/-! ## The phases -/

theorem EndsWith.map {x : ScanM σ α} {strict : Bool} {errors : List FileError} {value : α}
    (hx : EndsWith monitor x (heed strict errors value)) (f : α → β) :
    EndsWith monitor (do let a ← x; pure (f a)) (heed strict errors (f value)) := by
  rw [← heed_bind]
  exact hx.bind fun a => settles_pure (f a)

theorem Settles.map {x : ScanM σ α} {strict : Bool} {errors : List FileError} {value : α}
    (hx : Settles monitor x (heed strict errors value)) (f : α → β) :
    Settles monitor (do let a ← x; pure (f a)) (heed strict errors (f value)) :=
  ⟨hx.endsWith.map f, hx.givesWay.bind fun a => (settles_pure (f a)).givesWay⟩

/-- An error is passed over, or it ends a strict scan. -/
theorem endsWith_heed_cons {x : ScanM σ α} {strict : Bool} (e : FileError)
    (errors : List FileError) {value : α}
    (hx : strict = false → EndsWith monitor x (.ok value)) :
    EndsWith monitor (if strict = true then do throw (.file e); x else x)
      (heed strict (e :: errors) value) := by
  cases strict with
  | true => exact fun _ => .inl rfl
  | false => exact hx rfl

theorem settles_collect (hLatched : monitor.Latched) (strict : Bool) (root : String) (count : Nat)
    (outcomes : List Outcome) :
    Settles monitor (collect monitor strict root count outcomes)
      (heed strict (failures outcomes)
        ((successes outcomes).map (fileBelow root), failures outcomes)) := by
  induction outcomes generalizing count with
  | nil => exact heed_eq_ok (fun _ => rfl) _ ▸ settles_pure _
  | cons outcome rest ih =>
    refine settles_unless_stopped hLatched (ih count).givesWay ?_
    cases outcome with
    | ok path =>
      have hRest := (ih (count + 1)).map fun p => (fileBelow root path :: p.1, p.2)
      exact ((settles_emit hLatched _).bind fun _ => hRest).endsWith
    | error e =>
      refine EndsWith.say (endsWith_heed_cons e _ fun hLenient => ?_) _
      subst hLenient
      exact (ih count).endsWith.map fun p => (p.1, e :: p.2)

/-- Taking in the readings heeds no monitor. -/
theorem endsWith_takeIn (strict : Bool) (readings : List Reading) :
    EndsWith monitor (takeIn strict readings)
      (heed strict (failures readings)
        ((successes readings).length, (successes readings).flatten, failures readings)) := by
  induction readings with
  | nil => exact heed_eq_ok (fun _ => rfl) _ ▸ (settles_pure _).endsWith
  | cons reading rest ih =>
    cases reading with
    | ok found => exact ih.map fun p => (p.1 + 1, found ++ p.2.1, p.2.2)
    | error e =>
      refine endsWith_heed_cons e _ fun hLenient => EndsWith.say ?_ _
      subst hLenient
      exact ih.map fun p => (p.1, p.2.1, e :: p.2.2)

section Latched

variable (hLatched : monitor.Latched) (tree : FileTree) (request : ScanRequest) (root : String)
include hLatched

theorem settles_walking :
    Settles monitor (walking monitor tree request root)
      (heed request.strict (walkErrors tree request root)
        (walkedFiles tree request root, walkErrors tree request root)) := by
  have hCollect := settles_collect hLatched request.strict root 0
    (walk tree request.discovery root)
  have hSorted := heed_bind request.strict (walkErrors tree request root)
    ((successes (walk tree request.discovery root)).map (fileBelow root),
      walkErrors tree request root) fun p => (sortFiles p.1, p.2)
  rw [walkedFiles, ← hSorted]
  exact (settles_emit hLatched _).bind fun _ => (settles_say _).bind fun _ =>
    hCollect.bind fun p => (settles_emit hLatched _).bind fun _ => settles_pure _

theorem settles_extracting (turns : List Nat) (files : List SourceFile) :
    Settles monitor (extracting monitor tree request turns files)
      (heed request.strict (readErrors tree files)
        ((foundIn tree files).length, (foundIn tree files).flatten, readErrors tree files)) := by
  have hTaken := heed_bind request.strict (readErrors tree files)
    ((foundIn tree files).length, (foundIn tree files).flatten, readErrors tree files) fun p =>
      (p.1, p.2.1, p.2.2)
  rw [← hTaken]
  exact (settles_emit hLatched _).bind fun _ =>
    (settles_readAll hLatched tree turns files).bind fun readings =>
      (settles_emit hLatched _).bind fun _ =>
        settles_checkpoint hLatched ((endsWith_takeIn request.strict readings).bind fun p =>
          (settles_say _).bind fun _ => settles_pure (p.1, p.2.1, p.2.2))

theorem settles_gather (turns : Nat → List Nat) :
    Settles monitor (gather monitor turns tree request root) (allFindings tree request root) := by
  have hRead : ∀ files errors, Settles monitor
      (do
        let p ← extracting monitor tree request (turns files.length) files
        pure (Findings.mk files.length p.1 (errors ++ p.2.2) p.2.1))
      (heed request.strict (readErrors tree files) (findingsIn tree files errors)) := by
    intro files errors
    have hPhase := settles_extracting hLatched tree request (turns files.length) files
    exact hPhase.map fun p => Findings.mk files.length p.1 (errors ++ p.2.2) p.2.1
  have hBoth : (heed request.strict (walkErrors tree request root)
      (walkedFiles tree request root, walkErrors tree request root) >>= fun p =>
        heed request.strict (readErrors tree p.1) (findingsIn tree p.1 p.2)) =
      allFindings tree request root := heed_bind_heed _ _ _ _ _
  rw [← hBoth]
  exact (settles_say _).bind fun _ => settles_checkpoint hLatched
    ((settles_walking hLatched tree request root).bind fun p => (settles_say _).bind fun _ =>
      settles_checkpoint hLatched (hRead p.1 p.2).endsWith).endsWith

end Latched

end Scan

/-! ## The scan -/

/-- The outcome of a scan that nobody stops. -/
def wholeScan (tree : FileTree) (request : ScanRequest) (root : String) :
    Except ScanFailure ScanResult :=
  if tree.pathExists root = false then .error (.pathNotFound root)
  else if tree.isDir root = false then .error (.notADirectory root)
  else Scan.allFindings tree request root >>= fun found =>
    .ok (.of request found.totalFiles found.filesScanned found.errors found.occurrences)

/-- **A scan gives its whole outcome, or it ends as interrupted.** -/
theorem concludes_scanInTurns {σ : Type} {monitor : Monitor σ} (hLatched : monitor.Latched)
    (turns : Nat → List Nat) (tree : FileTree) (request : ScanRequest) (root : String) :
    Scan.Concludes monitor (scanInTurns monitor turns tree request root)
      (wholeScan tree request root) := by
  unfold scanInTurns wholeScan
  cases hExists : tree.pathExists root with
  | false => exact fun t => .inl rfl
  | true =>
    cases hDir : tree.isDir root with
    | false => exact fun t => .inl rfl
    | true =>
      have hGather := (Scan.settles_gather hLatched tree request root turns).endsWith
      exact hGather.conclude hLatched fun found t => rfl

theorem start_eq_wholeScan {σ : Type} {monitor : Monitor σ}
    (hQuiet : ∀ state, ¬monitor.Raised state) (turns : Nat → List Nat) (tree : FileTree)
    (request : ScanRequest) (root : String) (state : σ) :
    ((scanInTurns monitor turns tree request root).start state).1 =
      wholeScan tree request root := by
  rcases concludes_scanInTurns (Monitor.latched_of_quiet hQuiet) turns tree request root
    { state } with hWhole | ⟨hRaised, -⟩
  · exact hWhole
  · exact absurd hRaised (hQuiet _)

theorem pathExists_of_isDir {tree : FileTree} {path : String} (h : tree.isDir path = true) :
    tree.pathExists path = true := by
  unfold FileTree.isDir at h
  unfold FileTree.pathExists
  split at h
  · rfl
  · cases h

theorem isDir_dot (entries : List (String × Node)) :
    FileTree.isDir (.dir entries) "." = true := by
  rw [FileTree.isDir, FileTree.lookup_here]
  rfl

end Homonym
