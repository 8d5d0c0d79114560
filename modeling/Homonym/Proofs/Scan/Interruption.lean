import Homonym.Scan.Monitor

/-!
# Scans that are asked to stop

A monitor is latched if it never takes back its wish to stop. A scan that it watches may be cut
short: the part that is running then ends with less than it would have found, or with the failure
`interrupted`. What such a part gives is worth nothing, but the monitor still asks to stop at its
end, so that the next checkpoint finds out.

`Settles` says this of a part: it gives its outcome or is cut short, and it is cut short if it
begins when the monitor already asks to stop. Parts that settle can be put one behind the other
(`Settles.bind`). The part behind a poll that said to go on need not heed the monitor again
(`settles_unless_stopped`); this is what makes checkpoints the only places that matter.
-/

namespace Homonym

variable {σ α β : Type}

/-! ## Runs -/

namespace ScanM

/-- What a scan gives when it begins with a trace, and the trace it leaves. -/
def runFrom (scan : ScanM σ α) (trace : Trace σ) : Except ScanFailure α × Trace σ :=
  scan.run.run trace

@[simp]
theorem runFrom_pure (a : α) (t : Trace σ) : (pure a : ScanM σ α).runFrom t = (.ok a, t) := rfl

@[simp]
theorem runFrom_throw (failure : ScanFailure) (t : Trace σ) :
    (throw failure : ScanM σ α).runFrom t = (.error failure, t) := rfl

theorem runFrom_bind (x : ScanM σ α) (f : α → ScanM σ β) (t : Trace σ) :
    (x >>= f).runFrom t =
      match x.runFrom t with
      | (.ok a, t') => (f a).runFrom t'
      | (.error failure, t') => (.error failure, t') := by
  unfold runFrom
  rw [ExceptT.run_bind, StateT.run_bind]
  rcases x.run.run t with ⟨_ | _, _⟩ <;> rfl

/-- Either the first part fails, or the second goes on from its end. -/
theorem runFrom_bind_cases (x : ScanM σ α) (f : α → ScanM σ β) (t : Trace σ) :
    (∃ failure t', x.runFrom t = (.error failure, t') ∧
        (x >>= f).runFrom t = (.error failure, t')) ∨
      ∃ a t', x.runFrom t = (.ok a, t') ∧ (x >>= f).runFrom t = (f a).runFrom t' := by
  have hBind := runFrom_bind x f t
  rcases hRun : x.runFrom t with ⟨failure | a, t'⟩
  · rw [hRun] at hBind
    exact .inl ⟨failure, t', rfl, hBind⟩
  · rw [hRun] at hBind
    exact .inr ⟨a, t', rfl, hBind⟩

@[simp]
theorem runFrom_emit (monitor : Monitor σ) (event : Event) (t : Trace σ) :
    (emit monitor event).runFrom t =
      (.ok (), { t with
        state := monitor.observe t.state event
        events := t.events ++ [event] }) := rfl

@[simp]
theorem runFrom_say (entries : List Log.Entry) (t : Trace σ) :
    (say entries).runFrom t = (.ok (), { t with log := t.log ++ entries }) := rfl

@[simp]
theorem runFrom_isStopped (monitor : Monitor σ) (t : Trace σ) :
    (isStopped monitor).runFrom t =
      (.ok (monitor.poll t.state).1, { t with state := (monitor.poll t.state).2 }) := rfl

end ScanM

/-! ## The wish to stop -/

namespace Monitor

variable (monitor : Monitor σ)

/-- The monitor asks to stop. -/
def Raised (state : σ) : Prop :=
  (monitor.poll state).1 = true

/-- The monitor asks to stop from some moment on, or never. Its state may change with every poll and
every event, so that this may be any moment. -/
structure Latched : Prop where
  observe {state : σ} (event : Event) :
    monitor.Raised state → monitor.Raised (monitor.observe state event)
  poll {state : σ} : monitor.Raised state → monitor.Raised (monitor.poll state).2

theorem latched_of_quiet {monitor : Monitor σ} (hQuiet : ∀ state, ¬monitor.Raised state) :
    monitor.Latched where
  observe := fun _ hRaised => absurd hRaised (hQuiet _)
  poll := fun hRaised => absurd hRaised (hQuiet _)

theorem not_raised_silent (state : Unit) : ¬silent.Raised state := Bool.false_ne_true

end Monitor

namespace Scan

variable (monitor : Monitor σ)

/-- The end of a part that was cut short. -/
def CutShort (ended : Except ScanFailure α × Trace σ) : Prop :=
  monitor.Raised ended.2.state ∧ ∀ failure, ended.1 = .error failure → failure = .interrupted

/-- The part gives its outcome or is cut short. -/
def EndsWith (part : ScanM σ α) (outcome : Except ScanFailure α) : Prop :=
  ∀ t, (part.runFrom t).1 = outcome ∨ CutShort monitor (part.runFrom t)

/-- The part is cut short if the monitor asks to stop at its beginning. -/
def GivesWay (part : ScanM σ α) : Prop :=
  ∀ t, monitor.Raised t.state → CutShort monitor (part.runFrom t)

/-- The part gives its outcome or is cut short, and the latter if the monitor asks to stop at its
beginning. -/
structure Settles (part : ScanM σ α) (outcome : Except ScanFailure α) : Prop where
  endsWith : EndsWith monitor part outcome
  givesWay : GivesWay monitor part

/-- The part gives its outcome or ends as interrupted. -/
def Concludes (part : ScanM σ α) (outcome : Except ScanFailure α) : Prop :=
  ∀ t, (part.runFrom t).1 = outcome ∨
    monitor.Raised (part.runFrom t).2.state ∧ (part.runFrom t).1 = .error .interrupted

variable {monitor}

theorem cutShort_ok {t : Trace σ} (hRaised : monitor.Raised t.state) (a : α) :
    CutShort monitor (.ok a, t) :=
  ⟨hRaised, fun _ h => nomatch h⟩

theorem cutShort_interrupted {t : Trace σ} (hRaised : monitor.Raised t.state) :
    CutShort monitor ((.error .interrupted : Except ScanFailure α), t) :=
  ⟨hRaised, fun _ h => (Except.error.inj h).symm⟩

theorem givesWay_interrupted : GivesWay monitor (throw .interrupted : ScanM σ α) :=
  fun _ hRaised => cutShort_interrupted hRaised

/-- What begins with a part that was cut short is cut short, if the rest gives way. -/
theorem CutShort.bind {x : ScanM σ α} {f : α → ScanM σ β} {t : Trace σ}
    (hx : CutShort monitor (x.runFrom t)) (hf : ∀ a, GivesWay monitor (f a)) :
    CutShort monitor ((x >>= f).runFrom t) := by
  obtain ⟨failure, t', hRun, hBind⟩ | ⟨a, t', hRun, hBind⟩ := ScanM.runFrom_bind_cases x f t
  · rw [hRun] at hx
    obtain rfl := hx.2 failure rfl
    rw [hBind]
    exact cutShort_interrupted hx.1
  · rw [hRun] at hx
    rw [hBind]
    exact hf a t' hx.1

theorem GivesWay.bind {x : ScanM σ α} {f : α → ScanM σ β} (hx : GivesWay monitor x)
    (hf : ∀ a, GivesWay monitor (f a)) : GivesWay monitor (x >>= f) :=
  fun t hRaised => (hx t hRaised).bind hf

theorem EndsWith.bind {x : ScanM σ α} {f : α → ScanM σ β} {v : Except ScanFailure α}
    {w : α → Except ScanFailure β} (hx : EndsWith monitor x v)
    (hf : ∀ a, Settles monitor (f a) (w a)) : EndsWith monitor (x >>= f) (v >>= w) := by
  intro t
  rcases hx t with rfl | hCut
  · obtain ⟨failure, t', hRun, hBind⟩ | ⟨a, t', hRun, hBind⟩ := ScanM.runFrom_bind_cases x f t
    · rw [hBind, hRun]
      exact .inl rfl
    · rw [hBind, hRun]
      exact (hf a).endsWith t'
  · exact .inr (hCut.bind fun a => (hf a).givesWay)

theorem Settles.bind {x : ScanM σ α} {f : α → ScanM σ β} {v : Except ScanFailure α}
    {w : α → Except ScanFailure β} (hx : Settles monitor x v)
    (hf : ∀ a, Settles monitor (f a) (w a)) : Settles monitor (x >>= f) (v >>= w) :=
  ⟨hx.endsWith.bind hf, hx.givesWay.bind fun a => (hf a).givesWay⟩

theorem settles_pure (a : α) : Settles monitor (pure a) (.ok a) :=
  ⟨fun _ => .inl rfl, fun _ hRaised => cutShort_ok hRaised a⟩

theorem settles_say (entries : List Log.Entry) : Settles monitor (say entries) (.ok ()) :=
  ⟨fun _ => .inl rfl, fun _ hRaised => cutShort_ok hRaised ()⟩

theorem EndsWith.eq_of_quiet {x : ScanM σ α} {v : Except ScanFailure α} (hx : EndsWith monitor x v)
    (hQuiet : ∀ state, ¬monitor.Raised state) (t : Trace σ) : (x.runFrom t).1 = v := by
  rcases hx t with hv | hCut
  · exact hv
  · exact absurd hCut.1 (hQuiet _)

/-- A message in front changes nothing. -/
theorem EndsWith.say {x : ScanM σ α} {v : Except ScanFailure α} (hx : EndsWith monitor x v)
    (entries : List Log.Entry) : EndsWith monitor (do say entries; x) v := by
  intro t
  rw [ScanM.runFrom_bind, ScanM.runFrom_say]
  exact hx _

/-- A checkpoint either ends the scan or goes on with the rest. -/
theorem checkpoint_bind (x : ScanM σ α) :
    (do checkpoint monitor; x) =
      (do if ← isStopped monitor then throw .interrupted else x) := by
  unfold checkpoint
  rw [bind_assoc]
  congr 1
  funext stop
  cases stop <;> rfl

section Latched

variable (hLatched : monitor.Latched)
include hLatched

theorem settles_emit (event : Event) : Settles monitor (emit monitor event) (.ok ()) :=
  ⟨fun _ => .inl rfl, fun _ hRaised => cutShort_ok (hLatched.observe event hRaised) ()⟩

theorem givesWay_unless_stopped {x : ScanM σ α} (hx : GivesWay monitor x) (y : ScanM σ α) :
    GivesWay monitor (do if ← isStopped monitor then x else y) := by
  intro t hRaised
  have hPoll : (monitor.poll t.state).1 = true := hRaised
  rw [ScanM.runFrom_bind, ScanM.runFrom_isStopped]
  simp only [hPoll, if_true]
  exact hx _ (hLatched.poll hRaised)

/-- What is done behind a poll that said to go on need not heed the monitor. -/
theorem settles_unless_stopped {x y : ScanM σ α} {v : Except ScanFailure α}
    (hx : GivesWay monitor x) (hy : EndsWith monitor y v) :
    Settles monitor (do if ← isStopped monitor then x else y) v := by
  have hStopped := givesWay_unless_stopped hLatched hx y
  refine ⟨fun t => ?_, hStopped⟩
  cases hPoll : (monitor.poll t.state).1 with
  | true => exact .inr (hStopped t hPoll)
  | false =>
    rw [ScanM.runFrom_bind, ScanM.runFrom_isStopped]
    simp only [hPoll, Bool.false_eq_true, if_false]
    exact hy _

theorem givesWay_checkpoint (x : ScanM σ α) : GivesWay monitor (do checkpoint monitor; x) := by
  rw [checkpoint_bind]
  exact givesWay_unless_stopped hLatched givesWay_interrupted x

/-- What is done behind a checkpoint need not heed the monitor. -/
theorem settles_checkpoint {x : ScanM σ α} {v : Except ScanFailure α} (hx : EndsWith monitor x v) :
    Settles monitor (do checkpoint monitor; x) v := by
  rw [checkpoint_bind]
  exact settles_unless_stopped hLatched givesWay_interrupted hx

/-- A checkpoint behind a part finds out if it was cut short. -/
theorem EndsWith.conclude {x : ScanM σ α} {v : Except ScanFailure α} {f : α → ScanM σ β}
    {g : α → β} (hx : EndsWith monitor x v) (hf : ∀ a t, ((f a).runFrom t).1 = .ok (g a)) :
    Concludes monitor (do let a ← x; checkpoint monitor; f a) (v >>= fun a => .ok (g a)) := by
  intro t
  have hOutcome := hx t
  obtain ⟨failure, t', hRun, hBind⟩ | ⟨a, t', hRun, hBind⟩ := ScanM.runFrom_bind_cases x
    (fun a => do checkpoint monitor; f a) t
  · rw [hRun] at hOutcome
    rw [hBind]
    rcases hOutcome with rfl | ⟨hRaised, hFailure⟩
    · exact .inl rfl
    · obtain rfl := hFailure failure rfl
      exact .inr ⟨hRaised, rfl⟩
  · rw [hRun] at hOutcome
    rw [hBind, checkpoint_bind, ScanM.runFrom_bind, ScanM.runFrom_isStopped]
    cases hPoll : (monitor.poll t'.state).1 with
    | true => exact .inr ⟨hLatched.poll hPoll, rfl⟩
    | false =>
      -- The monitor did not ask to stop, so that the part was not cut short.
      rcases hOutcome with rfl | ⟨hRaised, -⟩
      · exact .inl (hf a _)
      · exact absurd (hPoll.symm.trans hRaised) Bool.false_ne_true

end Latched

end Scan

end Homonym
