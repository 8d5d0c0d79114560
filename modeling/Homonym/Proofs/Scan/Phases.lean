import Homonym.Proofs.Discovery.Reach
import Homonym.Proofs.FileTree.Growth
import Homonym.Proofs.Scan.Outcome

/-!
# Phases that are closed

A scan tells its monitor of each phase when it starts and when it ends. Every way out of a phase
passes its end, but for one: an error of the walk ends a strict scan at once, and the walking phase
is left open.

* `Reports` says of a part what events it tells and how that goes with its outcome. It does not ask
  when the monitor wants to stop, so that it covers a stop at any moment.
* `scanTold_scanInTurns`: the events of a scan are those of whole phases (`Stretch`), or those of a
  walk without its end.
* `phases_closed`: exactly when the phases of all scans of a project are closed. The numbers of the
  walking phase count up from one in every scan.
-/

namespace Homonym

namespace Scan

open Discovery

variable {σ α β : Type} {monitor : Monitor σ}

/-! ## Events -/

/-- The event begins a phase. -/
def isStart : Event → Bool
  | .start _ _ => true
  | _ => false

/-- Every start of a phase is followed by exactly one end of this phase before the next start, or
before the events are over. -/
def PhasesClosed (events : List Event) : Prop :=
  ∀ front phase total rest, events = front ++ .start phase total :: rest →
    (rest.takeWhile fun e => !isStart e).count (.finish phase) = 1

/-- The numbers of the walking phase. -/
def walkedNumbers (events : List Event) : List Nat :=
  events.filterMap fun
    | .progress .walking number _ => some number
    | _ => none

/-- Numbered steps of a phase. -/
def steps (phase : Phase) (numbered : List (Nat × String)) : List Event :=
  numbered.map fun step => .progress phase step.1 step.2

/-- A phase from its start to its end. -/
structure Stretch where
  phase : Phase
  total : Nat
  numbered : List (Nat × String)

namespace Stretch

/-- The events of a phase without its end. -/
def begun (s : Stretch) : List Event :=
  .start s.phase s.total :: steps s.phase s.numbered

/-- The events of a phase. -/
def events (s : Stretch) : List Event :=
  s.begun ++ [.finish s.phase]

end Stretch

theorem isStart_of_mem_steps {phase : Phase} {numbered : List (Nat × String)} {event : Event}
    (hMem : event ∈ steps phase numbered) : isStart event = false := by
  obtain ⟨step, -, rfl⟩ := List.mem_map.1 hMem
  rfl

theorem count_finish_steps (phase other : Phase) (numbered : List (Nat × String)) :
    (steps phase numbered).count (.finish other) = 0 := by
  rw [List.count_eq_zero]
  intro hMem
  obtain ⟨step, -, hStep⟩ := List.mem_map.1 hMem
  cases hStep

theorem takeWhile_steps_append (phase : Phase) (numbered : List (Nat × String))
    (rest : List Event) :
    (steps phase numbered ++ rest).takeWhile (fun e => !isStart e) =
      steps phase numbered ++ rest.takeWhile fun e => !isStart e := by
  rw [List.takeWhile_append_of_pos]
  intro event hMem
  rw [isStart_of_mem_steps hMem]
  rfl

/-- Behind a whole phase nothing comes, or the start of a phase. -/
theorem takeWhile_stretches (stretches : List Stretch) :
    (stretches.flatMap Stretch.events).takeWhile (fun e => !isStart e) = [] := by
  cases stretches <;> rfl

/-- **Whole phases are closed.** -/
theorem phasesClosed_stretches (stretches : List Stretch) :
    PhasesClosed (stretches.flatMap Stretch.events) := by
  induction stretches with
  | nil =>
    intro front phase total rest hEvents
    simp at hEvents
  | cons s stretches ih =>
    intro front phase total rest hEvents
    rw [List.flatMap_cons, Stretch.events, Stretch.begun, List.append_assoc, List.cons_append,
      List.singleton_append] at hEvents
    cases front with
    | nil =>
      obtain ⟨hStart, rfl⟩ := List.cons.inj hEvents
      cases hStart
      rw [takeWhile_steps_append, List.takeWhile_cons_of_pos rfl, takeWhile_stretches,
        List.count_append, count_finish_steps, Nat.zero_add, List.count_singleton_self]
    | cons first front =>
      obtain ⟨-, hLater⟩ := List.cons.inj hEvents
      rw [← List.singleton_append, ← List.append_assoc] at hLater
      rcases List.append_eq_append_iff.1 hLater with
        ⟨between, hFront, hRest⟩ | ⟨between, hOwn, hRest⟩
      · exact ih between phase total rest hRest
      · cases between with
        | nil => exact ih [] phase total rest hRest.symm
        | cons event between =>
          -- A start among the steps and the end of the phase.
          obtain ⟨rfl, -⟩ := List.cons.inj hRest
          have hMem : .start phase total ∈ steps s.phase s.numbered ++ [.finish s.phase] := by
            rw [hOwn]
            simp
          rcases List.mem_append.1 hMem with hStep | hEnd
          · cases isStart_of_mem_steps hStep
          · simp at hEnd

/-- A phase without its end is not closed. -/
theorem not_phasesClosed_begun (s : Stretch) : ¬PhasesClosed s.begun := by
  intro hClosed
  have hCount := hClosed [] s.phase s.total (steps s.phase s.numbered) rfl
  rw [← List.append_nil (steps s.phase s.numbered), takeWhile_steps_append, List.takeWhile_nil,
    List.append_nil, count_finish_steps] at hCount
  cases hCount

/-! ## What a part reports -/

/-- The part adds events to those that were told before it, and they go with its outcome. -/
def Reports (part : ScanM σ α) (shape : Except ScanFailure α → List Event → Prop) : Prop :=
  ∀ t, ∃ told, (part.runFrom t).2.events = t.events ++ told ∧ shape (part.runFrom t).1 told

section Parts

variable {shape : Except ScanFailure β → List Event → Prop}

theorem reports_pure {b : β} (hShape : shape (.ok b) []) : Reports (pure b : ScanM σ β) shape :=
  fun t => ⟨[], (List.append_nil t.events).symm, hShape⟩

theorem reports_throw {failure : ScanFailure} (hShape : shape (.error failure) []) :
    Reports (throw failure : ScanM σ β) shape :=
  fun t => ⟨[], (List.append_nil t.events).symm, hShape⟩

theorem Reports.bind {x : ScanM σ α} {f : α → ScanM σ β}
    {first : Except ScanFailure α → List Event → Prop} (hx : Reports x first)
    (hFail : ∀ failure told, first (.error failure) told → shape (.error failure) told)
    (hf : ∀ a told, first (.ok a) told →
      Reports (f a) fun outcome rest => shape outcome (told ++ rest)) :
    Reports (x >>= f) shape := by
  intro t
  obtain ⟨told, hEvents, hFirst⟩ := hx t
  obtain ⟨failure, t', hRun, hBind⟩ | ⟨a, t', hRun, hBind⟩ := ScanM.runFrom_bind_cases x f t
  · rw [hRun] at hEvents hFirst
    rw [hBind]
    exact ⟨told, hEvents, hFail failure told hFirst⟩
  · rw [hRun] at hEvents hFirst
    obtain ⟨rest, hRest, hShape⟩ := hf a told hFirst t'
    rw [hBind]
    refine ⟨told ++ rest, ?_, hShape⟩
    rw [hRest, hEvents, List.append_assoc]

theorem Reports.mono {part : ScanM σ β} {shape' : Except ScanFailure β → List Event → Prop}
    (hPart : Reports part shape)
    (hShape : ∀ outcome told, shape outcome told → shape' outcome told) :
    Reports part shape' := by
  intro t
  obtain ⟨told, hEvents, hTold⟩ := hPart t
  exact ⟨told, hEvents, hShape _ _ hTold⟩

theorem reports_emit {event : Event} {f : Unit → ScanM σ β}
    (hf : Reports (f ()) fun outcome told => shape outcome (event :: told)) :
    Reports (emit monitor event >>= f) shape := by
  intro t
  rw [ScanM.runFrom_bind, ScanM.runFrom_emit]
  obtain ⟨told, hEvents, hShape⟩ := hf _
  exact ⟨event :: told, by rw [hEvents, List.append_assoc, List.singleton_append], hShape⟩

theorem reports_say {entries : List Log.Entry} {f : Unit → ScanM σ β}
    (hf : Reports (f ()) shape) : Reports (say entries >>= f) shape := by
  intro t
  rw [ScanM.runFrom_bind, ScanM.runFrom_say]
  exact hf _

theorem reports_isStopped {f : Bool → ScanM σ β} (hf : ∀ stop, Reports (f stop) shape) :
    Reports (isStopped monitor >>= f) shape := by
  intro t
  rw [ScanM.runFrom_bind, ScanM.runFrom_isStopped]
  exact hf _ _

theorem reports_checkpoint {f : Unit → ScanM σ β} (hStop : shape (.error .interrupted) [])
    (hf : Reports (f ()) shape) : Reports (checkpoint monitor >>= f) shape := by
  rw [checkpoint, bind_assoc]
  refine reports_isStopped fun stop => ?_
  cases stop with
  | true => exact reports_throw hStop
  | false => exact hf

end Parts

/-! ## The walking phase -/

/-- The steps of a walk count up from a number, and only an error of a strict walk ends it early. -/
def Collected (strict : Bool) (errors : List FileError) (count : Nat)
    (outcome : Except ScanFailure α) (told : List Event) : Prop :=
  ∃ numbered, told = steps .walking numbered ∧
    numbered.map Prod.fst = List.range' (count + 1) numbered.length ∧
    ∀ failure, outcome = .error failure → strict = true ∧ ∃ e ∈ errors, failure = .file e

theorem collected_nil (strict : Bool) (errors : List FileError) (count : Nat) (a : α) :
    Collected strict errors count (.ok a) [] :=
  ⟨[], rfl, rfl, nofun⟩

theorem Collected.cons {strict : Bool} {errors : List FileError} {count : Nat}
    {outcome : Except ScanFailure α} {told : List Event}
    (hTold : Collected strict errors (count + 1) outcome told) (name : String) :
    Collected strict errors count outcome (.progress .walking (count + 1) name :: told) := by
  obtain ⟨numbered, rfl, hNumbers, hFail⟩ := hTold
  refine ⟨(count + 1, name) :: numbered, rfl, ?_, hFail⟩
  rw [List.map_cons, hNumbers, List.length_cons, List.range'_succ]

theorem Collected.later {strict : Bool} {errors : List FileError} {count : Nat}
    {outcome : Except ScanFailure α} {told : List Event}
    (hTold : Collected strict errors count outcome told) (e : FileError) :
    Collected strict (e :: errors) count outcome told := by
  obtain ⟨numbered, hEvents, hNumbers, hFail⟩ := hTold
  refine ⟨numbered, hEvents, hNumbers, fun failure hFailure => ?_⟩
  obtain ⟨hStrict, other, hMem, hOther⟩ := hFail failure hFailure
  exact ⟨hStrict, other, List.mem_cons_of_mem _ hMem, hOther⟩

/-- An outcome that fails in no other way goes with the same events. -/
theorem Collected.change {strict : Bool} {errors : List FileError} {count : Nat}
    {outcome : Except ScanFailure α} {outcome' : Except ScanFailure β} {told : List Event}
    (hTold : Collected strict errors count outcome told)
    (hSame : ∀ failure, outcome' = .error failure → outcome = .error failure) :
    Collected strict errors count outcome' told := by
  obtain ⟨numbered, hEvents, hNumbers, hFail⟩ := hTold
  exact ⟨numbered, hEvents, hNumbers, fun failure hFailure => hFail failure (hSame _ hFailure)⟩

/-- What is made of the outcome of a walk goes with the same events. -/
theorem Reports.collected {strict : Bool} {errors : List FileError} {count : Nat}
    {x : ScanM σ α} (hx : Reports x (Collected strict errors count)) (f : α → β) :
    Reports (do let a ← x; pure (f a)) (Collected strict errors count) := by
  refine hx.bind (fun failure told hTold => hTold.change fun other hOther => ?_)
    fun a told hTold => reports_pure ?_
  · cases hOther
    rfl
  · rw [List.append_nil]
    exact hTold.change nofun

theorem reports_collect (strict : Bool) (root : String) (count : Nat) (outcomes : List Outcome) :
    Reports (collect monitor strict root count outcomes)
      (Collected strict (failures outcomes) count) := by
  induction outcomes generalizing count with
  | nil => exact reports_pure (collected_nil _ _ _ _)
  | cons outcome rest ih =>
    refine reports_isStopped fun stop => ?_
    cases outcome with
    | ok path =>
      have hRest := (ih (count + 1)).collected fun p => (fileBelow root path :: p.1, p.2)
      cases stop with
      | true => exact ih count
      | false => exact reports_emit (hRest.mono fun _ _ hTold => hTold.cons _)
    | error e =>
      have hLater := (ih count).mono fun _ _ hTold => hTold.later e
      cases stop with
      | true => exact hLater
      | false =>
        refine reports_say ?_
        cases strict with
        | false => exact hLater.collected fun p => (p.1, e :: p.2)
        | true =>
          refine reports_throw ⟨[], rfl, rfl, fun failure hFailure => ?_⟩
          cases hFailure
          exact ⟨rfl, e, List.mem_cons_self, rfl⟩

/-- What a walk tells: the whole phase or, when an error ends it, the phase without its end. -/
inductive WalkTold (strict : Bool) (errors : List FileError) :
    Except ScanFailure α → List Event → Prop
  | closed {a : α} {numbered : List (Nat × String)}
      (hNumbers : numbered.map Prod.fst = List.range' 1 numbered.length) :
      WalkTold strict errors (.ok a) (Stretch.events ⟨.walking, 0, numbered⟩)
  | broken {e : FileError} {numbered : List (Nat × String)}
      (hNumbers : numbered.map Prod.fst = List.range' 1 numbered.length)
      (hStrict : strict = true) (hError : e ∈ errors) :
      WalkTold strict errors (.error (.file e)) (Stretch.begun ⟨.walking, 0, numbered⟩)

theorem reports_walking (monitor : Monitor σ) (tree : FileTree) (request : ScanRequest)
    (root : String) :
    Reports (walking monitor tree request root)
      (WalkTold request.strict (walkErrors tree request root)) := by
  refine reports_emit (reports_say ?_)
  refine (reports_collect request.strict root 0 (walk tree request.discovery root)).bind
    (fun failure told hTold => ?_) fun p told hTold => reports_emit (reports_pure ?_)
  · obtain ⟨numbered, rfl, hNumbers, hFail⟩ := hTold
    obtain ⟨hStrict, e, hMem, rfl⟩ := hFail failure rfl
    exact .broken hNumbers hStrict hMem
  · obtain ⟨numbered, rfl, hNumbers, -⟩ := hTold
    exact .closed hNumbers

/-! ## The extracting phase -/

/-- One action tells at most one step. -/
theorem Acts.events_eq {tree : FileTree} {file : SourceFile} {count count' : Nat}
    {stage stage' : Stage} {t t' : Trace σ}
    (h : Acts monitor tree file count stage t count' stage' t') :
    ∃ numbered, t'.events = t.events ++ steps .extracting numbered := by
  cases h with
  | drop | read | count => exact ⟨[], (List.append_nil _).symm⟩
  | tell => exact ⟨[(_, file.name)], rfl⟩

theorem reports_readAll (tree : FileTree) (turns : List Nat) (files : List SourceFile) :
    Reports (readAll monitor tree turns files) fun outcome told =>
      (∃ readings, outcome = .ok readings) ∧ ∃ numbered, told = steps .extracting numbered := by
  intro t
  obtain ⟨allTurns, pool, t', hRun, hRan, -⟩ := ran_readAll monitor tree turns files t
  let Adds (_ : Pool) (after : Trace σ) : Prop :=
    ∃ numbered, after.events = t.events ++ steps .extracting numbered
  have hTurn : ∀ number pool t₁ pool' t₂, Turned monitor tree number pool t₁ pool' t₂ →
      Adds pool t₁ → Adds pool' t₂ := by
    rintro number pool t₁ pool' t₂ hTurned ⟨numbered, hEvents⟩
    cases hTurned with
    | idle => exact ⟨numbered, hEvents⟩
    | act _ hActs =>
      obtain ⟨more, hMore⟩ := hActs.events_eq
      refine ⟨numbered ++ more, ?_⟩
      rw [hMore, hEvents, steps, steps, steps, List.map_append, List.append_assoc]
  obtain ⟨numbered, hEvents⟩ : Adds pool t' := hRan.keeps hTurn ⟨[], (List.append_nil _).symm⟩
  exact ⟨_, by rw [hRun, hEvents], ⟨_, by rw [hRun]⟩, numbered, rfl⟩

theorem Reports.map_quiet {x : ScanM σ α} (hx : Reports x fun _ told => told = []) (f : α → β) :
    Reports (do let a ← x; pure (f a)) fun _ told => told = [] := by
  refine hx.bind (fun _ _ hTold => hTold) fun a told hTold => reports_pure ?_
  rw [hTold]
  rfl

theorem reports_takeIn (strict : Bool) (readings : List Reading) :
    Reports (takeIn strict readings : ScanM σ _) fun _ told => told = [] := by
  induction readings with
  | nil => exact reports_pure rfl
  | cons reading rest ih =>
    cases reading with
    | ok found => exact ih.map_quiet fun p => (p.1 + 1, found ++ p.2.1, p.2.2)
    | error e =>
      cases strict with
      | true => exact reports_throw rfl
      | false =>
        exact reports_say (ih.map_quiet fun p => (p.1, p.2.1, e :: p.2.2))

/-- The extracting phase is always closed. -/
theorem reports_extracting (tree : FileTree) (request : ScanRequest) (turns : List Nat)
    (files : List SourceFile) :
    Reports (extracting monitor tree request turns files) fun _ told =>
      ∃ numbered, told = Stretch.events ⟨.extracting, files.length, numbered⟩ := by
  refine reports_emit ((reports_readAll tree turns files).bind ?_ ?_)
  · rintro failure told ⟨⟨readings, hOk⟩, -⟩
    cases hOk
  · rintro readings told ⟨-, numbered, rfl⟩
    refine reports_emit (reports_checkpoint ⟨numbered, rfl⟩ ?_)
    refine (reports_takeIn request.strict readings).bind ?_ ?_
    · rintro failure told rfl
      exact ⟨numbered, rfl⟩
    · rintro p told rfl
      exact reports_say (reports_pure ⟨numbered, rfl⟩)

/-! ## The scan -/

/-- What a scan tells: phases that are closed, or a walk without its end. -/
inductive ScanTold (strict : Bool) (errors : List FileError) :
    Except ScanFailure α → List Event → Prop
  | early {outcome : Except ScanFailure α} : ScanTold strict errors outcome []
  | walked {outcome : Except ScanFailure α} {numbered : List (Nat × String)}
      (hNumbers : numbered.map Prod.fst = List.range' 1 numbered.length) :
      ScanTold strict errors outcome (Stretch.events ⟨.walking, 0, numbered⟩)
  | extracted {outcome : Except ScanFailure α} {numbered read : List (Nat × String)} {total : Nat}
      (hNumbers : numbered.map Prod.fst = List.range' 1 numbered.length) :
      ScanTold strict errors outcome (Stretch.events ⟨.walking, 0, numbered⟩ ++
        Stretch.events ⟨.extracting, total, read⟩)
  | broken {e : FileError} {numbered : List (Nat × String)}
      (hNumbers : numbered.map Prod.fst = List.range' 1 numbered.length)
      (hStrict : strict = true) (hError : e ∈ errors) :
      ScanTold strict errors (.error (.file e)) (Stretch.begun ⟨.walking, 0, numbered⟩)

/-- What was told before a scan gave its findings goes with any outcome. -/
theorem ScanTold.of_ok {strict : Bool} {errors : List FileError} {a : α} {told : List Event}
    (hTold : ScanTold strict errors (.ok a) told) (outcome : Except ScanFailure β) :
    ScanTold strict errors outcome told := by
  cases hTold with
  | early => exact .early
  | walked hNumbers => exact .walked hNumbers
  | extracted hNumbers => exact .extracted hNumbers

theorem ScanTold.of_error {strict : Bool} {errors : List FileError} {failure : ScanFailure}
    {told : List Event} (hTold : ScanTold strict errors (.error failure : Except _ α) told) :
    ScanTold strict errors (.error failure : Except _ β) told := by
  cases hTold with
  | early => exact .early
  | walked hNumbers => exact .walked hNumbers
  | extracted hNumbers => exact .extracted hNumbers
  | broken hNumbers hStrict hError => exact .broken hNumbers hStrict hError

theorem reports_gather (turns : Nat → List Nat) (tree : FileTree) (request : ScanRequest)
    (root : String) :
    Reports (gather monitor turns tree request root)
      (ScanTold request.strict (walkErrors tree request root)) := by
  refine reports_say (reports_checkpoint .early ?_)
  refine (reports_walking monitor tree request root).bind ?_ ?_
  · intro failure told hTold
    cases hTold with
    | broken hNumbers hStrict hError => exact .broken hNumbers hStrict hError
  · intro p told hTold
    cases hTold with
    | closed hNumbers =>
      refine reports_say (reports_checkpoint (List.append_nil _ ▸ .walked hNumbers) ?_)
      refine (reports_extracting tree request _ _).bind ?_ ?_
      · rintro failure told ⟨read, rfl⟩
        exact .extracted hNumbers
      · rintro q told ⟨read, rfl⟩
        refine reports_pure ?_
        rw [List.append_nil]
        exact .extracted hNumbers

theorem ScanTold.phasesClosed_or {strict : Bool} {errors : List FileError}
    {outcome : Except ScanFailure α} {told : List Event}
    (hTold : ScanTold strict errors outcome told) :
    PhasesClosed told ∨ strict = true ∧ ∃ e ∈ errors, outcome = .error (.file e) := by
  cases hTold with
  | early => exact .inl (phasesClosed_stretches [])
  | @walked outcome numbered =>
    have hClosed := phasesClosed_stretches [⟨.walking, 0, numbered⟩]
    rw [List.flatMap_singleton] at hClosed
    exact .inl hClosed
  | @extracted outcome numbered read total =>
    have hClosed := phasesClosed_stretches [⟨.walking, 0, numbered⟩, ⟨.extracting, total, read⟩]
    rw [List.flatMap_cons, List.flatMap_singleton] at hClosed
    exact .inl hClosed
  | broken _ hStrict hError => exact .inr ⟨hStrict, _, hError, rfl⟩

theorem walkedNumbers_append (events events' : List Event) :
    walkedNumbers (events ++ events') = walkedNumbers events ++ walkedNumbers events' :=
  List.filterMap_append

theorem walkedNumbers_begun_walking (total : Nat) (numbered : List (Nat × String)) :
    walkedNumbers (Stretch.begun ⟨.walking, total, numbered⟩) = numbered.map Prod.fst := by
  have hSteps : walkedNumbers (steps .walking numbered) = numbered.map Prod.fst := by
    induction numbered with
    | nil => rfl
    | cons step numbered ih => exact congrArg (step.1 :: ·) ih
  exact hSteps

theorem walkedNumbers_begun_extracting (total : Nat) (numbered : List (Nat × String)) :
    walkedNumbers (Stretch.begun ⟨.extracting, total, numbered⟩) = [] := by
  have hSteps : walkedNumbers (steps .extracting numbered) = [] := by
    induction numbered with
    | nil => rfl
    | cons step numbered ih => exact ih
  exact hSteps

theorem walkedNumbers_events (s : Stretch) : walkedNumbers s.events = walkedNumbers s.begun := by
  rw [Stretch.events, walkedNumbers_append]
  exact List.append_nil _

/-- The numbers of the walking phase count up from one. -/
theorem ScanTold.countUp {strict : Bool} {errors : List FileError}
    {outcome : Except ScanFailure α} {told : List Event}
    (hTold : ScanTold strict errors outcome told) :
    ∃ count, walkedNumbers told = List.range' 1 count := by
  cases hTold with
  | early => exact ⟨0, rfl⟩
  | walked hNumbers =>
    exact ⟨_, by rw [walkedNumbers_events, walkedNumbers_begun_walking, hNumbers]⟩
  | @extracted outcome numbered =>
    refine ⟨numbered.length, ?_⟩
    rw [walkedNumbers_append, walkedNumbers_events, walkedNumbers_events,
      walkedNumbers_begun_walking, walkedNumbers_begun_extracting, List.append_nil]
    assumption
  | broken hNumbers => exact ⟨_, by rw [walkedNumbers_begun_walking, hNumbers]⟩

/-! ## A walk that is left open -/

theorem runFrom_bind_error {x : ScanM σ α} {t t' : Trace σ} {failure : ScanFailure}
    (hx : x.runFrom t = (.error failure, t')) (f : α → ScanM σ β) :
    (x >>= f).runFrom t = (.error failure, t') := by
  rw [ScanM.runFrom_bind, hx]

/-- When nobody stops it, a strict walk with an error is left open. -/
theorem walking_broken {tree : FileTree} {request : ScanRequest} {root : String}
    (hStrict : request.strict = true) (hErrors : walkErrors tree request root ≠ [])
    (t : Trace Unit) :
    ∃ e numbered t', (walking Monitor.silent tree request root).runFrom t = (.error (.file e), t') ∧
      t'.events = t.events ++ Stretch.begun ⟨.walking, 0, numbered⟩ := by
  obtain ⟨e, errors, hFirst⟩ := List.exists_cons_of_ne_nil hErrors
  have hSettles := settles_walking (Monitor.latched_of_quiet Monitor.not_raised_silent) tree request
    root
  have hOutcome := hSettles.endsWith.eq_of_quiet Monitor.not_raised_silent t
  rw [hStrict, hFirst, heed] at hOutcome
  obtain ⟨told, hEvents, hTold⟩ := reports_walking Monitor.silent tree request root t
  rw [hOutcome] at hTold
  cases hTold with
  | @broken _ numbered => exact ⟨e, numbered, _, Prod.ext hOutcome rfl, hEvents⟩

end Scan

open Scan Discovery

variable {σ : Type}

theorem reports_scanInTurns (monitor : Monitor σ) (turns : Nat → List Nat) (tree : FileTree)
    (request : ScanRequest) (root : String) :
    Reports (scanInTurns monitor turns tree request root)
      (ScanTold request.strict (walkErrors tree request root)) := by
  unfold scanInTurns
  cases tree.pathExists root with
  | false => exact reports_throw .early
  | true =>
    cases tree.isDir root with
    | false => exact reports_throw .early
    | true =>
      refine (reports_gather turns tree request root).bind (fun _ _ hTold => hTold.of_error)
        fun found told hTold => ?_
      refine reports_checkpoint ?_ (reports_say (reports_pure ?_)) <;> rw [List.append_nil] <;>
        exact hTold.of_ok _

/-- Nothing is told about a root that is no directory. -/
theorem reports_of_not_isDir (monitor : Monitor σ) (turns : Nat → List Nat) {tree : FileTree}
    (request : ScanRequest) {root : String} (hDir : tree.isDir root = false) :
    Reports (scanInTurns monitor turns tree request root) fun _ told => told = [] := by
  unfold scanInTurns
  rw [hDir]
  cases tree.pathExists root <;> exact reports_throw rfl

theorem not_phasesClosed_scanInTurns {tree : FileTree} {request : ScanRequest} {root : String}
    (hDir : tree.isDir root = true) (hStrict : request.strict = true)
    (hErrors : walkErrors tree request root ≠ []) (turns : Nat → List Nat) :
    ¬PhasesClosed ((scanInTurns Monitor.silent turns tree request root).start ()).2.events := by
  obtain ⟨e, numbered, t', hRun, hEvents⟩ := walking_broken hStrict hErrors
    { state := (), log := [Log.remark .scan ("Starting declaration scan of " ++ root)] }
  have hGather : (gather Monitor.silent turns tree request root).runFrom { state := () } =
      (.error (.file e), t') := by
    rw [gather, ScanM.runFrom_bind, ScanM.runFrom_say]
    exact (ScanM.runFrom_bind _ _ _).trans (runFrom_bind_error hRun _)
  have hScan : (scanInTurns Monitor.silent turns tree request root).start () =
      (.error (.file e), t') := by
    unfold scanInTurns
    rw [pathExists_of_isDir hDir, hDir]
    exact runFrom_bind_error hGather _
  rw [hScan, hEvents]
  exact not_phasesClosed_begun _

/-- **The phases of a scan are closed, unless an error of a strict walk ends it.** Whatever the
monitor does and however the workers take turns, the numbers of the walking phase count up from one,
and the phases are closed or an error of the walk is the outcome of a strict scan. All scans of a
project have closed phases if and only if the project has no such error. -/
theorem phases_closed (tree : FileTree) (request : ScanRequest) (root : String) :
    (∀ (σ : Type) (monitor : Monitor σ) (turns : Nat → List Nat) (state : σ),
      let ended := (scanInTurns monitor turns tree request root).start state
      (∃ count, walkedNumbers ended.2.events = List.range' 1 count) ∧
        (PhasesClosed ended.2.events ∨
          request.strict = true ∧ ∃ e ∈ walkErrors tree request root,
            ended.1 = .error (.file e))) ∧
      ((∀ (σ : Type) (monitor : Monitor σ) (turns : Nat → List Nat) (state : σ),
          PhasesClosed ((scanInTurns monitor turns tree request root).start state).2.events) ↔
        (tree.isDir root = true → request.strict = true → walkErrors tree request root = [])) := by
  refine ⟨fun σ monitor turns state => ?_, fun hClosed hDir hStrict => ?_,
    fun hNone σ monitor turns state => ?_⟩
  · obtain ⟨told, hEvents, hTold⟩ := reports_scanInTurns monitor turns tree request root { state }
    obtain rfl : _ = told := hEvents
    exact ⟨hTold.countUp, hTold.phasesClosed_or⟩
  · by_contra hErrors
    exact not_phasesClosed_scanInTurns hDir hStrict hErrors List.range (hClosed _ _ _ _)
  · cases hDir : tree.isDir root with
    | false =>
      obtain ⟨told, hEvents, rfl⟩ := reports_of_not_isDir monitor turns request hDir { state }
      have hEvents : ((scanInTurns monitor turns tree request root).start state).2.events = [] :=
        hEvents
      rw [hEvents]
      exact phasesClosed_stretches []
    | true =>
      obtain ⟨told, hEvents, hTold⟩ :=
        reports_scanInTurns monitor turns tree request root { state }
      obtain rfl : _ = told := hEvents
      rcases hTold.phasesClosed_or with hClosed | ⟨hStrict, e, hError, -⟩
      · exact hClosed
      · rw [hNone hDir hStrict] at hError
        cases hError

/-- A lenient scan passes over a link that leads nowhere. -/
theorem phases_closed_past_dangling_link :
    let tree : FileTree := .dir [("a.ts", .file (.text "")), ("c.ts", .link "missing.ts")]
    let request : ScanRequest :=
      { discovery := { followLinks := true, respectIgnoreFile := false } }
    request.strict = false ∧
      ∀ (σ : Type) (monitor : Monitor σ) (turns : Nat → List Nat) (state : σ),
        PhasesClosed ((scanInTurns monitor turns tree request ".").start state).2.events := by
  intro tree request
  exact ⟨rfl, (phases_closed tree request ".").2.2 fun _ hStrict => nomatch hStrict⟩

theorem lookup_dangling_link :
    FileTree.lookup (.dir [("c.ts", .link "missing.ts")]) "./c.ts" = .error .notFound := by
  have hMoves : moves "./c.ts" = [.stay, .down "c.ts"] := by decide
  have hResolve : FileTree.resolve (.dir [("c.ts", .link "missing.ts")]) .look "./c.ts" =
      .ok (.vacant [] "missing.ts") := by
    rw [FileTree.resolve_eq_ok_iff, hMoves]
    exact ⟨by decide, by decide, .stay rfl (.link (by decide) rfl rfl (by decide)
      (.vacant rfl (by decide) rfl))⟩
  rw [FileTree.lookup, hResolve]

/-- A walk that follows links fails at the link, whatever else it takes in. -/
theorem outcomes_dangling_link (selection : Selection) (hidden : Bool) :
    let w : Walk := ⟨.dir [("c.ts", .link "missing.ts")], ".", true, hidden, selection⟩
    w.enters w.rootEntry = true → w.outcomes = [.error (.notFound "./c.ts")] := by
  intro w hEnters
  have hEntry : w.entriesOf ["."] "." [("c.ts", .link "missing.ts")] =
      [("./c.ts", .error (.notFound "./c.ts"))] := by
    have hPath : Path.join "." "c.ts" = "./c.ts" := by decide
    have hHidden : Walk.isHidden "c.ts" = false := by decide
    have hResolved : w.resolveEntry ["."] "./c.ts" (.link "missing.ts") =
        .error (.notFound "./c.ts") := by
      simp only [Walk.resolveEntry, w, lookup_dangling_link]
      rfl
    simp [Walk.entriesOf, hHidden, hPath, hResolved]
  have hRoot : w.tree.lookup w.root = .ok w.tree := FileTree.lookup_here _
  have hAccepted : w.isRootRejected = false := by simp [Walk.isRootRejected, hEnters]
  have hBound : w.depthBound = 122 + 1 := rfl
  rw [Walk.outcomes, hRoot]
  simp only [w, hAccepted, hBound]
  rw [if_neg Bool.false_ne_true, Walk.below]
  simp only [List.nil_append]
  rw [hEntry]
  rfl

/-- A strict scan ends there, and leaves the walking phase open. -/
theorem phase_left_open_at_dangling_link :
    let tree : FileTree := .dir [("c.ts", .link "missing.ts")]
    let request : ScanRequest :=
      { discovery := { followLinks := true, respectIgnoreFile := false }, strict := true }
    ¬PhasesClosed ((scanInTurns Monitor.silent List.range tree request ".").start ()).2.events := by
  intro tree request
  have hErrors : walkErrors tree request "." ≠ [] := by
    let w : Walk := ⟨tree, ".", true, true, (selection tree request.discovery ".").1⟩
    have hEnters : w.enters w.rootEntry = true := by decide +kernel
    have hWalk : walk tree request.discovery "." = w.outcomes := by rw [walk, prepare_fst]
    rw [walkErrors, hWalk, outcomes_dangling_link _ _ hEnters]
    exact List.cons_ne_nil _ _
  exact not_phasesClosed_scanInTurns (isDir_dot _) rfl hErrors _

end Homonym
