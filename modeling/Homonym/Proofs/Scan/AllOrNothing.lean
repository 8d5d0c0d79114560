import Homonym.Proofs.Scan.Outcome

/-!
# No partial reports

A monitor may ask a scan to stop at any moment. The walk and the workers then drop what is left,
without a word, and it is up to the checkpoints to end the scan. The main result says that they do:
whatever the turns of the workers, a scan ends as interrupted or gives the whole outcome
(`outcome_whole_or_interrupted`).

The second half of it is about scans that run to their end. There each of the files is told to the
monitor once, and the numbers go from one to their count, though not in order: a worker may be
overtaken between counting its file and telling of it. `Tells` is what a part tells if it is not cut
short, and `TellsNothing` holds of the parts around the workers.
-/

namespace Homonym

namespace Scan

variable {σ α β : Type} {monitor : Monitor σ}

/-! ## Parts that tell of no file -/

/-- The part tells of no file as read. -/
def TellsNothing (part : ScanM σ α) : Prop :=
  ∀ t, stepsTold (part.runFrom t).2.events = stepsTold t.events

theorem TellsNothing.bind {x : ScanM σ α} {f : α → ScanM σ β} (hx : TellsNothing x)
    (hf : ∀ a, TellsNothing (f a)) : TellsNothing (x >>= f) := by
  intro t
  have hFirst := hx t
  obtain ⟨failure, t', hRun, hBind⟩ | ⟨a, t', hRun, hBind⟩ := ScanM.runFrom_bind_cases x f t
  · rw [hRun] at hFirst
    rw [hBind]
    exact hFirst
  · rw [hRun] at hFirst
    rw [hBind]
    exact (hf a t').trans hFirst

theorem tellsNothing_pure (a : α) : TellsNothing (pure a : ScanM σ α) := fun _ => rfl

theorem tellsNothing_throw (failure : ScanFailure) :
    TellsNothing (throw failure : ScanM σ α) := fun _ => rfl

theorem tellsNothing_say (entries : List Log.Entry) : TellsNothing (say entries : ScanM σ Unit) :=
  fun _ => rfl

theorem tellsNothing_isStopped : TellsNothing (isStopped monitor) := fun _ => rfl

theorem tellsNothing_emit {event : Event} (hEvent : stepsTold [event] = []) :
    TellsNothing (emit monitor event) := by
  intro t
  rw [ScanM.runFrom_emit, stepsTold, List.filterMap_append]
  exact (congrArg _ hEvent).trans (List.append_nil _)

theorem tellsNothing_checkpoint : TellsNothing (checkpoint monitor) := by
  refine tellsNothing_isStopped.bind fun stop => ?_
  cases stop with
  | true => exact tellsNothing_throw _
  | false => exact tellsNothing_pure ()

theorem tellsNothing_collect (strict : Bool) (root : String) (count : Nat)
    (outcomes : List Discovery.Outcome) :
    TellsNothing (collect monitor strict root count outcomes) := by
  induction outcomes generalizing count with
  | nil => exact tellsNothing_pure _
  | cons outcome rest ih =>
    refine tellsNothing_isStopped.bind fun stop => ?_
    cases stop with
    | true => exact ih count
    | false =>
      cases outcome with
      | ok path =>
        exact (tellsNothing_emit rfl).bind fun _ => (ih _).bind fun _ => tellsNothing_pure _
      | error e =>
        refine (tellsNothing_say _).bind fun _ => ?_
        cases strict with
        | true => exact tellsNothing_throw _
        | false => exact (ih _).bind fun _ => tellsNothing_pure _

theorem tellsNothing_walking (tree : FileTree) (request : ScanRequest) (root : String) :
    TellsNothing (walking monitor tree request root) :=
  (tellsNothing_emit rfl).bind fun _ => (tellsNothing_say _).bind fun _ =>
    (tellsNothing_collect _ _ _ _).bind fun _ => (tellsNothing_emit rfl).bind fun _ =>
      tellsNothing_pure _

theorem tellsNothing_takeIn (strict : Bool) (readings : List Reading) :
    TellsNothing (takeIn strict readings : ScanM σ _) := by
  induction readings with
  | nil => exact tellsNothing_pure _
  | cons reading rest ih =>
    cases reading with
    | ok found => exact ih.bind fun _ => tellsNothing_pure _
    | error e =>
      cases strict with
      | true => exact tellsNothing_throw _
      | false =>
        exact (tellsNothing_say _).bind fun _ => ih.bind fun _ => tellsNothing_pure _

/-! ## What an uncut part tells -/

/-- If the part is the first to tell of files and the monitor does not ask to stop by its end, then
what it tells is as stated. -/
def Tells (monitor : Monitor σ) (part : ScanM σ α) (told : List (Nat × String) → Prop) : Prop :=
  ∀ t, stepsTold t.events = [] → ¬monitor.Raised (part.runFrom t).2.state →
    told (stepsTold (part.runFrom t).2.events)

/-- If the monitor does not ask to stop at the end, it did not do so in between. -/
theorem not_raised_of_bind {x : ScanM σ α} {f : α → ScanM σ β} {t : Trace σ}
    (hf : ∀ a, GivesWay monitor (f a)) (hRaised : ¬monitor.Raised ((x >>= f).runFrom t).2.state) :
    ¬monitor.Raised (x.runFrom t).2.state := by
  intro hEarlier
  obtain ⟨failure, t', hRun, hBind⟩ | ⟨a, t', hRun, hBind⟩ := ScanM.runFrom_bind_cases x f t
  · rw [hRun] at hEarlier
    rw [hBind] at hRaised
    exact hRaised hEarlier
  · rw [hRun] at hEarlier
    rw [hBind] at hRaised
    exact hRaised (hf a t' hEarlier).1

theorem Tells.behind {x : ScanM σ α} {f : α → ScanM σ β} {a : α}
    {told : List (Nat × String) → Prop} (hf : Tells monitor (f a) told)
    (hx : EndsWith monitor x (.ok a)) (hNothing : TellsNothing x)
    (hWay : ∀ b, GivesWay monitor (f b)) : Tells monitor (x >>= f) told := by
  intro t hNone hRaised
  have hBetween := not_raised_of_bind hWay hRaised
  have hOutcome : (x.runFrom t).1 = .ok a := by
    rcases hx t with hOutcome | hCut
    · exact hOutcome
    · exact absurd hCut.1 hBetween
  have hEvents := (hNothing t).trans hNone
  obtain ⟨failure, t', hRun, -⟩ | ⟨b, t', hRun, hBind⟩ := ScanM.runFrom_bind_cases x f t
  · rw [hRun] at hOutcome
    cases hOutcome
  · rw [hRun] at hOutcome hEvents
    cases hOutcome
    rw [hBind] at hRaised ⊢
    exact hf t' hEvents hRaised

theorem Tells.before {x : ScanM σ α} {f : α → ScanM σ β} {told : List (Nat × String) → Prop}
    (hx : Tells monitor x told) (hNothing : ∀ a, TellsNothing (f a))
    (hWay : ∀ a, GivesWay monitor (f a)) : Tells monitor (x >>= f) told := by
  intro t hNone hRaised
  have hTold := hx t hNone (not_raised_of_bind hWay hRaised)
  obtain ⟨failure, t', hRun, hBind⟩ | ⟨a, t', hRun, hBind⟩ := ScanM.runFrom_bind_cases x f t
  · rw [hRun] at hTold
    rw [hBind]
    exact hTold
  · rw [hRun] at hTold
    rw [hBind, hNothing a t']
    exact hTold

section Latched

variable (hLatched : monitor.Latched) (tree : FileTree) (request : ScanRequest)
include hLatched

theorem endsWith_checkpoint : EndsWith monitor (checkpoint monitor) (.ok ()) := by
  have hAlone := (settles_checkpoint hLatched (settles_pure ()).endsWith).endsWith
  rwa [bind_pure_unit] at hAlone

theorem tells_readAll (turns : List Nat) (files : List SourceFile) :
    Tells monitor (readAll monitor tree turns files) (EachOnce files) :=
  fun _ hNone hRaised => eachOnce_readAll hLatched tree turns files hNone hRaised

theorem tells_extracting (turns : List Nat) (files : List SourceFile) :
    Tells monitor (extracting monitor tree request turns files) (EachOnce files) := by
  refine Tells.behind ?_ (settles_emit hLatched _).endsWith (tellsNothing_emit rfl) fun _ => ?_
  · refine (tells_readAll hLatched tree turns files).before (fun readings => ?_) fun readings => ?_
    · exact (tellsNothing_emit rfl).bind fun _ => tellsNothing_checkpoint.bind fun _ =>
        (tellsNothing_takeIn _ _).bind fun _ => (tellsNothing_say _).bind fun _ =>
          tellsNothing_pure _
    · exact (settles_emit hLatched _).givesWay.bind fun _ => givesWay_checkpoint hLatched _
  · exact (settles_readAll hLatched tree turns files).givesWay.bind fun _ =>
      (settles_emit hLatched _).givesWay.bind fun _ => givesWay_checkpoint hLatched _

/-- When the walk does not end the scan, every file that it found is told once. -/
theorem tells_gather (turns : Nat → List Nat) (root : String)
    (hWalk : request.strict = true → walkErrors tree request root = []) :
    Tells monitor (gather monitor turns tree request root)
      (EachOnce (walkedFiles tree request root)) := by
  have hWalking : EndsWith monitor (walking monitor tree request root)
      (.ok (walkedFiles tree request root, walkErrors tree request root)) := by
    have hSettles := settles_walking hLatched tree request root
    rw [heed_eq_ok hWalk] at hSettles
    exact hSettles.endsWith
  refine Tells.behind ?_ (settles_say _).endsWith (tellsNothing_say _) fun _ =>
    givesWay_checkpoint hLatched _
  refine Tells.behind ?_ (endsWith_checkpoint hLatched) tellsNothing_checkpoint fun _ =>
    (settles_walking hLatched tree request root).givesWay.bind fun _ =>
      (settles_say _).givesWay.bind fun _ => givesWay_checkpoint hLatched _
  refine Tells.behind ?_ hWalking (tellsNothing_walking tree request root) fun _ =>
    (settles_say _).givesWay.bind fun _ => givesWay_checkpoint hLatched _
  refine Tells.behind ?_ (settles_say _).endsWith (tellsNothing_say _) fun _ =>
    givesWay_checkpoint hLatched _
  have hExtracting := tells_extracting hLatched tree request
    (turns (walkedFiles tree request root).length) (walkedFiles tree request root)
  refine Tells.behind ?_ (endsWith_checkpoint hLatched) tellsNothing_checkpoint fun _ => ?_
  · exact hExtracting.before (fun _ => tellsNothing_pure _) fun _ => (settles_pure _).givesWay
  · exact (settles_extracting hLatched tree request _ _).givesWay.bind fun _ =>
      (settles_pure _).givesWay

end Latched

end Scan

/-! ## The scan -/

variable {σ : Type} {monitor : Monitor σ}

theorem tells_scanInTurns (hLatched : monitor.Latched) (turns : Nat → List Nat) {tree : FileTree}
    {request : ScanRequest} {root : String} (hDir : tree.isDir root = true)
    (hWalk : request.strict = true → Scan.walkErrors tree request root = []) :
    Scan.Tells monitor (scanInTurns monitor turns tree request root)
      (Scan.EachOnce (Scan.walkedFiles tree request root)) := by
  have hGather := Scan.tells_gather hLatched tree request turns root hWalk
  unfold scanInTurns
  simp only [hDir, pathExists_of_isDir hDir]
  exact hGather.before
    (fun _ => Scan.tellsNothing_checkpoint.bind fun _ => (Scan.tellsNothing_say _).bind fun _ =>
      Scan.tellsNothing_pure _)
    fun _ => Scan.givesWay_checkpoint hLatched _

/-- **A scan that is asked to stop gives no partial report.** Whenever the monitor begins to ask,
and however the workers take turns, the scan ends as interrupted or gives the very outcome of a scan
that nobody watches. If the monitor never asks, it is the latter, and the files that the walk found,
if it did not end the scan, are told once each, under the numbers from one on. -/
theorem outcome_whole_or_interrupted (hLatched : monitor.Latched) (turns turns' : Nat → List Nat)
    (tree : FileTree) (request : ScanRequest) (root : String) (state : σ) :
    let ended := (scanInTurns monitor turns tree request root).start state
    let whole := ((scanInTurns Monitor.silent turns' tree request root).start ()).1
    (ended.1 = .error .interrupted ∨ ended.1 = whole) ∧
      (¬monitor.Raised ended.2.state →
        ended.1 = whole ∧
        (tree.isDir root = true →
          (request.strict = true → Scan.walkErrors tree request root = []) →
          Scan.EachOnce (Scan.walkedFiles tree request root) (Scan.stepsTold ended.2.events))) := by
  intro ended whole
  have hWhole : whole = wholeScan tree request root :=
    start_eq_wholeScan Monitor.not_raised_silent turns' tree request root ()
  have hEnds := concludes_scanInTurns hLatched turns tree request root { state }
  refine ⟨?_, fun hRaised => ⟨?_, fun hDir hWalk => ?_⟩⟩
  · rcases hEnds with hOutcome | ⟨-, hInterrupted⟩
    · exact .inr (hOutcome.trans hWhole.symm)
    · exact .inl hInterrupted
  · rcases hEnds with hOutcome | ⟨hStopped, -⟩
    · exact hOutcome.trans hWhole.symm
    · exact absurd hStopped hRaised
  · exact tells_scanInTurns hLatched turns hDir hWalk { state } rfl hRaised

/-- The monitor that asks to stop when it was polled this often. -/
def Monitor.raisedAfter (polls : Nat) : Monitor Nat where
  observe := fun state _ => state
  poll := fun state => (polls ≤ state, state + 1)

theorem Monitor.latched_raisedAfter (polls : Nat) : (raisedAfter polls).Latched where
  observe := fun _ hRaised => hRaised
  poll := by
    intro state hRaised
    simp only [Raised, raisedAfter, decide_eq_true_eq] at hRaised ⊢
    omega

/-- Two files that are read side by side: the second is the first to be counted, the first the first
to be told. One scan is stopped when the files are to be read, the other is not. -/
theorem side_by_side_whole_or_interrupted :
    let tree : FileTree :=
      .dir [("a.ts", .file (.text "class A \x7b\x7d")), ("b.ts", .file (.bytes [0xFF]))]
    let turns : Nat → List Nat := fun _ => [0, 1, 1, 0, 0, 1]
    let stopped := (scanInTurns (Monitor.raisedAfter 4) turns tree {} ".").start 0
    let quiet := (scanInTurns Monitor.silent turns tree {} ".").start ()
    let whole := ((scanInTurns Monitor.silent List.range tree {} ".").start ()).1
    (Monitor.raisedAfter 4).Latched ∧
      (stopped.1 = .error .interrupted ∨ stopped.1 = whole) ∧
      tree.isDir "." = true ∧ quiet.1 = whole ∧
      Scan.EachOnce (Scan.walkedFiles tree {} ".") (Scan.stepsTold quiet.2.events) := by
  intro tree turns stopped quiet whole
  have hLatched := Monitor.latched_raisedAfter 4
  have hDir : tree.isDir "." = true := isDir_dot _
  have hStopped := (outcome_whole_or_interrupted hLatched turns List.range tree {} "." 0).1
  have hQuiet := (outcome_whole_or_interrupted
    (Monitor.latched_of_quiet Monitor.not_raised_silent) turns List.range tree {} "." ()).2
    (Monitor.not_raised_silent _)
  exact ⟨hLatched, hStopped, hDir, hQuiet.1, hQuiet.2 hDir fun hStrict => nomatch hStrict⟩

end Homonym
