import Homonym.Proofs.Scan.Interruption
import Homonym.Scan.Workers
import Mathlib.Data.List.Perm.Basic

/-!
# The workers' turns

`Acts` says what one action of a worker can do, `Turned` what one turn does to a pool, and `Ran` is
a row of turns. What holds of a pool and a trace whatever the turns are is shown of one turn
(`Turned`) and carried over to all of them (`Ran.keeps`):

* what was read is what the files hold, and a file is dropped only if the monitor asks to stop
  (`Sound`);
* the numbers that were told or are still held are those up to the count, each once, and the names
  that were told or are still to be told are those of the files (`Told`).

A file has at most three actions, so that the turns of `readAll` bring all work to its end
(`Ran.left_le`). Then, unless the monitor asks to stop, everything was read (`settles_readAll`) and
every file was told under a number of its own (`eachOnce_readAll`).
-/

namespace Homonym.Scan

variable {σ : Type}

/-- The numbers and the names of the files that were told as read. -/
def stepsTold (events : List Event) : List (Nat × String) :=
  events.filterMap fun
    | .progress .extracting number file => some (number, file)
    | _ => none

/-- How many actions are left. -/
def Stage.left : Stage → Nat
  | .waiting => 3
  | .read _ => 2
  | .counted _ _ => 1
  | .dropped => 0
  | .done _ => 0

/-- How many actions are left on the file with a given number. -/
def Pool.left (pool : Pool) (number : Nat) : Nat :=
  (pool.jobs[number]?.map fun job => job.stage.left).getD 0

/-! ## One turn -/

section Step

variable (monitor : Monitor σ) (tree : FileTree)

/-- One action on a file: the count, the stage and the trace before and after it. -/
inductive Acts (file : SourceFile) : Nat → Stage → Trace σ → Nat → Stage → Trace σ → Prop where
  | drop {count : Nat} {t : Trace σ} (hRaised : monitor.Raised t.state) :
      Acts file count .waiting t count .dropped { t with state := (monitor.poll t.state).2 }
  | read {count : Nat} {t : Trace σ} (hRaised : ¬monitor.Raised t.state) :
      Acts file count .waiting t count (.read (file.occurrences tree))
        { t with state := (monitor.poll t.state).2 }
  | count {count : Nat} {reading : Reading} {t : Trace σ} :
      Acts file count (.read reading) t (count + 1) (.counted (count + 1) reading) t
  | tell {count number : Nat} {reading : Reading} {t : Trace σ} :
      Acts file count (.counted number reading) t count (.done reading)
        { t with
          state := monitor.observe t.state (.progress .extracting number file.name)
          events := t.events ++ [.progress .extracting number file.name] }

/-- A turn of the file with a given number: nothing is left to do on it, or one action is done. -/
inductive Turned (number : Nat) : Pool → Trace σ → Pool → Trace σ → Prop where
  | idle {pool : Pool} {t : Trace σ} (hLeft : pool.left number = 0) :
      Turned number pool t pool t
  | act {file : SourceFile} {stage stage' : Stage} {count count' : Nat} {before after : List Job}
      {t t' : Trace σ} (hNumber : before.length = number)
      (hActs : Acts monitor tree file count stage t count' stage' t') :
      Turned number ⟨count, before ++ ⟨file, stage⟩ :: after⟩ t
        ⟨count', before ++ ⟨file, stage'⟩ :: after⟩ t'

/-- A row of turns. -/
inductive Ran : List Nat → Pool → Trace σ → Pool → Trace σ → Prop where
  | nil {pool : Pool} {t : Trace σ} : Ran [] pool t pool t
  | cons {number : Nat} {turns : List Nat} {pool pool' pool'' : Pool} {t t' t'' : Trace σ}
      (hTurned : Turned monitor tree number pool t pool' t')
      (hRan : Ran turns pool' t' pool'' t'') :
      Ran (number :: turns) pool t pool'' t''

end Step

variable {monitor : Monitor σ} {tree : FileTree}

theorem exists_append_of_getElem? {jobs : List Job} {number : Nat} {job : Job}
    (h : jobs[number]? = some job) :
    ∃ before after, jobs = before ++ job :: after ∧ before.length = number := by
  obtain ⟨hLt, rfl⟩ := List.getElem?_eq_some_iff.1 h
  exact ⟨jobs.take number, jobs.drop (number + 1), by simp, by simp; omega⟩

/-- A turn never fails, and does what `Turned` says. -/
theorem turned_turn (monitor : Monitor σ) (tree : FileTree) (pool : Pool) (number : Nat)
    (t : Trace σ) :
    ∃ pool' t', (pool.turn monitor tree number).runFrom t = (.ok pool', t') ∧
      Turned monitor tree number pool t pool' t' := by
  obtain ⟨count, jobs⟩ := pool
  cases hJob : jobs[number]? with
  | none =>
    exact ⟨_, t, by simp [Pool.turn, hJob], .idle (by simp [Pool.left, hJob])⟩
  | some job =>
    obtain ⟨file, stage⟩ := job
    obtain ⟨before, after, rfl, rfl⟩ := exists_append_of_getElem? hJob
    cases stage with
    | waiting =>
      cases hPoll : (monitor.poll t.state).1 with
      | true =>
        refine ⟨_, _, ?_, .act rfl (.drop hPoll)⟩
        simp [Pool.turn, Pool.put, ScanM.runFrom_bind, hPoll]
      | false =>
        refine ⟨_, _, ?_, .act rfl (.read (by simp [Monitor.Raised, hPoll]))⟩
        simp [Pool.turn, Pool.put, ScanM.runFrom_bind, hPoll]
    | read reading =>
      exact ⟨_, _, by simp [Pool.turn, Pool.put], .act rfl .count⟩
    | counted current reading =>
      refine ⟨_, _, ?_, .act rfl .tell⟩
      simp [Pool.turn, Pool.put, ScanM.runFrom_bind, -bind_pure_comp]
    | dropped =>
      exact ⟨_, t, by simp [Pool.turn], .idle (by simp [Pool.left, Stage.left])⟩
    | done reading =>
      exact ⟨_, t, by simp [Pool.turn], .idle (by simp [Pool.left, Stage.left])⟩

theorem ran_run (monitor : Monitor σ) (tree : FileTree) (turns : List Nat) (pool : Pool)
    (t : Trace σ) :
    ∃ pool' t', (pool.run monitor tree turns).runFrom t = (.ok pool', t') ∧
      Ran monitor tree turns pool t pool' t' := by
  induction turns generalizing pool t with
  | nil => exact ⟨pool, t, rfl, .nil⟩
  | cons number turns ih =>
    obtain ⟨pool', t', hTurn, hTurned⟩ := turned_turn monitor tree pool number t
    obtain ⟨pool'', t'', hRun, hRan⟩ := ih pool' t'
    refine ⟨pool'', t'', ?_, .cons hTurned hRan⟩
    rw [Pool.run, ScanM.runFrom_bind, hTurn]
    exact hRun

/-- What every turn keeps is kept by a row of turns. -/
theorem Ran.keeps {P : Pool → Trace σ → Prop}
    (hTurn : ∀ number pool t pool' t', Turned monitor tree number pool t pool' t' →
      P pool t → P pool' t')
    {turns : List Nat} {pool pool' : Pool} {t t' : Trace σ}
    (hRan : Ran monitor tree turns pool t pool' t') (hP : P pool t) : P pool' t' := by
  induction hRan with
  | nil => exact hP
  | cons hTurned _ ih => exact ih (hTurn _ _ _ _ _ hTurned hP)

/-! ## The actions that are left -/

theorem Acts.left_lt {file : SourceFile} {count count' : Nat} {stage stage' : Stage}
    {t t' : Trace σ} (h : Acts monitor tree file count stage t count' stage' t') :
    stage'.left < stage.left := by
  cases h <;> simp [Stage.left]

theorem Turned.left_le {number : Nat} {pool pool' : Pool} {t t' : Trace σ}
    (h : Turned monitor tree number pool t pool' t') (k : Nat) :
    pool'.left k ≤ pool.left k - [number].count k := by
  cases h with
  | idle hLeft =>
    by_cases hk : number = k
    · subst hk
      omega
    · simp [hk]
  | @act file stage stage' count count' before after _ _ hNumber hActs =>
    subst hNumber
    have hLt := hActs.left_lt
    rcases Nat.lt_trichotomy k before.length with hk | rfl | hk
    · have hNe : before.length ≠ k := by omega
      simp [Pool.left, List.getElem?_append_left hk, hNe]
    · simp [Pool.left]
      omega
    · obtain ⟨j, rfl⟩ : ∃ j, k = before.length + (j + 1) := ⟨k - before.length - 1, by omega⟩
      simp [Pool.left, List.getElem?_append_right]

/-- Every turn of a file does one of its actions, as long as there are any. -/
theorem Ran.left_le {turns : List Nat} {pool pool' : Pool} {t t' : Trace σ}
    (h : Ran monitor tree turns pool t pool' t') (k : Nat) :
    pool'.left k ≤ pool.left k - turns.count k := by
  induction h with
  | nil => simp
  | cons hTurned _ ih =>
    have hFirst := hTurned.left_le k
    rw [List.count_cons]
    simp only [List.count_singleton] at hFirst
    omega

/-- All work on the files comes to its end, whatever turns are given. -/
theorem ran_readAll (monitor : Monitor σ) (tree : FileTree) (turns : List Nat)
    (files : List SourceFile) (t : Trace σ) :
    ∃ allTurns pool t', (readAll monitor tree turns files).runFrom t = (.ok pool.readings, t') ∧
      Ran monitor tree allTurns (Pool.of files) t pool t' ∧ ∀ k, pool.left k = 0 := by
  obtain ⟨pool, t', hRun, hRan⟩ := ran_run monitor tree
    (turns ++ (List.range files.length).flatMap allTurns) (Pool.of files) t
  refine ⟨_, pool, t', ?_, hRan, fun k => ?_⟩
  · simp only [readAll]
    rw [ScanM.runFrom_bind, hRun]
    rfl
  -- The turns that are left hold three of every file, which is all that it can need.
  have hLeft := hRan.left_le k
  by_cases hk : k < files.length
  · have hSublist : (allTurns k).Sublist ((List.range files.length).flatMap allTurns) :=
      List.sublist_flatten_of_mem (List.mem_map_of_mem (List.mem_range.2 hk))
    have hThree : (allTurns k).count k = 3 := List.count_replicate_self
    have hCount := hSublist.count_le k
    have hOf : (Pool.of files).left k = 3 := by simp [Pool.left, Pool.of, hk, Stage.left]
    rw [List.count_append] at hLeft
    omega
  · have hOf : (Pool.of files).left k = 0 := by simp [Pool.left, Pool.of, hk]
    omega

/-! ## What was read -/

/-- What is known of a file at a stage. -/
def Stage.Sound (monitor : Monitor σ) (tree : FileTree) (file : SourceFile) (state : σ) :
    Stage → Prop
  | .waiting => True
  | .dropped => monitor.Raised state
  | .read reading => reading = file.occurrences tree
  | .counted _ reading => reading = file.occurrences tree
  | .done reading => reading = file.occurrences tree

theorem Stage.Sound.mono {file : SourceFile} {state state' : σ} {stage : Stage}
    (h : stage.Sound monitor tree file state)
    (hRaised : monitor.Raised state → monitor.Raised state') :
    stage.Sound monitor tree file state' := by
  cases stage with
  | dropped => exact hRaised h
  | waiting => exact trivial
  | read reading => exact h
  | counted number reading => exact h
  | done reading => exact h

/-- The pool works on the files, and no file is at a stage that it has no right to. -/
structure Sound (monitor : Monitor σ) (tree : FileTree) (files : List SourceFile) (pool : Pool)
    (t : Trace σ) : Prop where
  files_eq : pool.jobs.map Job.file = files
  stages : ∀ job ∈ pool.jobs, job.stage.Sound monitor tree job.file t.state

section Latched

variable (hLatched : monitor.Latched)
include hLatched

theorem Acts.raised {file : SourceFile} {count count' : Nat} {stage stage' : Stage}
    {t t' : Trace σ} (h : Acts monitor tree file count stage t count' stage' t')
    (hRaised : monitor.Raised t.state) : monitor.Raised t'.state := by
  cases h with
  | drop => exact hLatched.poll hRaised
  | read => exact hLatched.poll hRaised
  | count => exact hRaised
  | tell => exact hLatched.observe _ hRaised

theorem Acts.sound {file : SourceFile} {count count' : Nat} {stage stage' : Stage}
    {t t' : Trace σ} (h : Acts monitor tree file count stage t count' stage' t')
    (hSound : stage.Sound monitor tree file t.state) : stage'.Sound monitor tree file t'.state := by
  cases h with
  | drop hRaised => exact hLatched.poll hRaised
  | read => rfl
  | count => exact hSound
  | tell => exact hSound

theorem Turned.raised {number : Nat} {pool pool' : Pool} {t t' : Trace σ}
    (h : Turned monitor tree number pool t pool' t') (hRaised : monitor.Raised t.state) :
    monitor.Raised t'.state := by
  cases h with
  | idle => exact hRaised
  | act _ hActs => exact hActs.raised hLatched hRaised

theorem Turned.sound {files : List SourceFile} {number : Nat} {pool pool' : Pool} {t t' : Trace σ}
    (h : Turned monitor tree number pool t pool' t') (hSound : Sound monitor tree files pool t) :
    Sound monitor tree files pool' t' := by
  have hRaised := h.raised hLatched
  cases h with
  | idle => exact hSound
  | @act file stage stage' _ _ before after _ _ _ hActs =>
    obtain ⟨hFiles, hStages⟩ := hSound
    simp only [List.forall_mem_append, List.forall_mem_cons] at hStages
    obtain ⟨hBefore, hStage, hAfter⟩ := hStages
    refine ⟨by simpa using hFiles, ?_⟩
    simp only [List.forall_mem_append, List.forall_mem_cons]
    exact ⟨fun job hJob => (hBefore job hJob).mono hRaised, hActs.sound hLatched hStage,
      fun job hJob => (hAfter job hJob).mono hRaised⟩

end Latched

theorem sound_of (monitor : Monitor σ) (tree : FileTree) (files : List SourceFile) (t : Trace σ) :
    Sound monitor tree files (Pool.of files) t := by
  refine ⟨by simp [Pool.of, Function.comp_def], fun job hJob => ?_⟩
  obtain ⟨file, -, rfl⟩ := List.mem_map.1 hJob
  exact trivial

/-- When no action is left and the monitor does not ask to stop, the work on every file is done. -/
theorem Sound.done {files : List SourceFile} {pool : Pool} {t : Trace σ}
    (hSound : Sound monitor tree files pool t) (hLeft : ∀ k, pool.left k = 0)
    (hRaised : ¬monitor.Raised t.state) {job : Job} (hJob : job ∈ pool.jobs) :
    job.stage = .done (job.file.occurrences tree) := by
  have hStage := hSound.stages job hJob
  obtain ⟨k, hk, rfl⟩ := List.getElem_of_mem hJob
  have hEnded : (pool.jobs[k]).stage.left = 0 := by simpa [Pool.left, hk] using hLeft k
  cases hCase : (pool.jobs[k]).stage with
  | waiting => simp [hCase, Stage.left] at hEnded
  | read reading => simp [hCase, Stage.left] at hEnded
  | counted number reading => simp [hCase, Stage.left] at hEnded
  | dropped => exact absurd (by simpa [hCase, Stage.Sound] using hStage) hRaised
  | done reading =>
    rw [hCase] at hStage
    exact congrArg Stage.done hStage

theorem Sound.readings_eq {files : List SourceFile} {pool : Pool} {t : Trace σ}
    (hSound : Sound monitor tree files pool t) (hLeft : ∀ k, pool.left k = 0)
    (hRaised : ¬monitor.Raised t.state) :
    pool.readings = files.map (SourceFile.occurrences tree) := by
  have hDone : ∀ job ∈ pool.jobs,
      job.stage.reading? = some (job.file.occurrences tree) := by
    intro job hJob
    rw [hSound.done hLeft hRaised hJob]
    rfl
  rw [Pool.readings, List.filterMap_congr hDone, ← hSound.files_eq, List.map_map]
  exact congrFun List.filterMap_eq_map pool.jobs

/-- **Unless the monitor asks to stop, every file is read, in any turns.** -/
theorem settles_readAll (hLatched : monitor.Latched) (tree : FileTree) (turns : List Nat)
    (files : List SourceFile) :
    Settles monitor (readAll monitor tree turns files)
      (.ok (files.map (SourceFile.occurrences tree))) := by
  constructor
  · intro t
    obtain ⟨_, pool, t', hRun, hRan, hLeft⟩ := ran_readAll monitor tree turns files t
    have hSound := hRan.keeps (fun _ _ _ _ _ h => h.sound hLatched) (sound_of monitor tree files t)
    rw [hRun]
    by_cases hRaised : monitor.Raised t'.state
    · exact .inr (cutShort_ok hRaised _)
    · exact .inl (congrArg Except.ok (hSound.readings_eq hLeft hRaised))
  · intro t hRaised
    obtain ⟨_, pool, t', hRun, hRan, -⟩ := ran_readAll monitor tree turns files t
    rw [hRun]
    have hKept : monitor.Raised t'.state :=
      hRan.keeps (fun _ _ _ _ _ h => h.raised hLatched) hRaised
    exact cutShort_ok hKept _

/-! ## What was told -/

/-- The number that a file has and that was not told. -/
def Stage.number? : Stage → Option Nat
  | .counted number _ => some number
  | _ => none

/-- The numbers that were not told. -/
def heldNumbers (jobs : List Job) : List Nat :=
  jobs.filterMap fun job => job.stage.number?

/-- The names that were not told. -/
def untoldNames (jobs : List Job) : List String :=
  (jobs.filter fun job => job.stage.reading?.isNone).map fun job => job.file.name

/-- The numbers told and held, and the names told and not told. -/
structure Told (files : List SourceFile) (pool : Pool) (t : Trace σ) : Prop where
  numbers : ((stepsTold t.events).map Prod.fst ++ heldNumbers pool.jobs).Perm
    (List.range' 1 pool.count)
  names : ((stepsTold t.events).map Prod.snd ++ untoldNames pool.jobs).Perm
    (files.map SourceFile.name)

theorem heldNumbers_split (before after : List Job) (file : SourceFile) (stage : Stage) :
    heldNumbers (before ++ ⟨file, stage⟩ :: after) =
      heldNumbers before ++ (stage.number?.toList ++ heldNumbers after) := by
  rw [heldNumbers, List.filterMap_append, List.filterMap_cons]
  cases stage.number? <;> rfl

theorem untoldNames_split (before after : List Job) (file : SourceFile) (stage : Stage) :
    untoldNames (before ++ ⟨file, stage⟩ :: after) =
      untoldNames before ++
        ((if stage.reading?.isNone then [file.name] else []) ++ untoldNames after) := by
  rw [untoldNames, List.filter_append, List.filter_cons, List.map_append]
  cases stage.reading? <;> rfl

/-- What moves from the files to the events moves to the end of them. -/
theorem perm_told {α : Type} (x : α) (told before after : List α) :
    (told ++ [x] ++ (before ++ after)).Perm (told ++ (before ++ x :: after)) := by
  rw [List.append_assoc, List.singleton_append]
  exact List.perm_middle.symm.append_left told

theorem stepsTold_concat (events : List Event) (number : Nat) (file : String) :
    stepsTold (events ++ [.progress .extracting number file]) =
      stepsTold events ++ [(number, file)] := by
  simp [stepsTold]

/-- Counting moves the next number to a file, and telling moves number and name to the events. -/
theorem Turned.told {files : List SourceFile} {number : Nat} {pool pool' : Pool} {t t' : Trace σ}
    (h : Turned monitor tree number pool t pool' t') (hTold : Told files pool t) :
    Told files pool' t' := by
  cases h with
  | idle => exact hTold
  | @act file stage stage' count _ before after _ _ _ hActs =>
    obtain ⟨hNumbers, hNames⟩ := hTold
    rw [heldNumbers_split] at hNumbers
    rw [untoldNames_split] at hNames
    constructor
    · rw [heldNumbers_split]
      cases hActs with
      | drop => exact hNumbers
      | read => exact hNumbers
      | count =>
        have hNext : List.range' 1 (count + 1) = List.range' 1 count ++ [count + 1] := by
          rw [List.range'_concat, Nat.one_mul, Nat.add_comm]
        rw [hNext]
        refine (perm_told (count + 1) _ _ _).symm.trans ?_
        rw [List.append_assoc]
        refine (List.perm_append_comm.append_left _).trans ?_
        rw [← List.append_assoc]
        exact hNumbers.append_right [count + 1]
      | @tell current reading =>
        rw [stepsTold_concat, List.map_append]
        exact (perm_told current _ _ _).trans hNumbers
    · rw [untoldNames_split]
      cases hActs with
      | drop => exact hNames
      | read => exact hNames
      | count => exact hNames
      | tell =>
        rw [stepsTold_concat, List.map_append]
        exact (perm_told file.name _ _ _).trans hNames

theorem told_of {files : List SourceFile} {t : Trace σ} (hNone : stepsTold t.events = []) :
    Told files (Pool.of files) t := by
  have hHeld : heldNumbers (Pool.of files).jobs = [] := by
    rw [heldNumbers, Pool.of, List.filterMap_map]
    exact List.filterMap_eq_nil_iff.2 fun _ _ => rfl
  have hUntold : untoldNames (Pool.of files).jobs = files.map SourceFile.name := by
    rw [untoldNames, Pool.of, List.filter_eq_self.2, List.map_map]
    · rfl
    · intro job hJob
      obtain ⟨file, -, rfl⟩ := List.mem_map.1 hJob
      rfl
  constructor
  · rw [hNone, hHeld]
    exact .nil
  · rw [hNone, hUntold]
    exact .refl _

/-- Every file is told once, under the numbers from one on. -/
def EachOnce (files : List SourceFile) (told : List (Nat × String)) : Prop :=
  (told.map Prod.fst).Perm (List.range' 1 files.length) ∧
    (told.map Prod.snd).Perm (files.map SourceFile.name)

theorem Told.eachOnce {files : List SourceFile} {pool : Pool} {t : Trace σ}
    (h : Told files pool t) (hHeld : heldNumbers pool.jobs = [])
    (hUntold : untoldNames pool.jobs = []) : EachOnce files (stepsTold t.events) := by
  obtain ⟨hNumbers, hNames⟩ := h
  rw [hHeld, List.append_nil] at hNumbers
  rw [hUntold, List.append_nil] at hNames
  have hCount : pool.count = files.length := by
    have hTold := hNumbers.length_eq
    have hFiles := hNames.length_eq
    simp only [List.length_map, List.length_range'] at hTold hFiles
    omega
  rw [hCount] at hNumbers
  exact ⟨hNumbers, hNames⟩

/-- **Unless the monitor asks to stop, every file is told once, in any turns.** -/
theorem eachOnce_readAll (hLatched : monitor.Latched) (tree : FileTree) (turns : List Nat)
    (files : List SourceFile) {t : Trace σ} (hNone : stepsTold t.events = [])
    (hRaised : ¬monitor.Raised ((readAll monitor tree turns files).runFrom t).2.state) :
    EachOnce files (stepsTold ((readAll monitor tree turns files).runFrom t).2.events) := by
  obtain ⟨_, pool, t', hRun, hRan, hLeft⟩ := ran_readAll monitor tree turns files t
  rw [hRun] at hRaised ⊢
  have hSound := hRan.keeps (fun _ _ _ _ _ h => h.sound hLatched) (sound_of monitor tree files t)
  have hDone : ∀ job ∈ pool.jobs, job.stage = .done (job.file.occurrences tree) :=
    fun job hJob => hSound.done hLeft hRaised hJob
  have hTold := hRan.keeps (fun _ _ _ _ _ h => h.told) (told_of hNone)
  refine hTold.eachOnce (List.filterMap_eq_nil_iff.2 fun job hJob => ?_)
    (List.map_eq_nil_iff.2 (List.filter_eq_nil_iff.2 fun job hJob => ?_))
  · rw [hDone job hJob]
    rfl
  · rw [hDone job hJob]
    exact Bool.false_ne_true

end Homonym.Scan
