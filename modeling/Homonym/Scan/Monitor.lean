import Homonym.Log.Basic
import Homonym.Scan.Result

/-!
# Watching a scan

A scan tells a monitor what it does, and asks it from time to time whether to stop. `ScanM` is a
scan in progress: it ends with a value or a failure, and leaves the trace of events and log
entries either way.
-/

namespace Homonym

/-- The stretches of a scan that report progress. -/
inductive Phase where
  | walking
  | extracting
deriving DecidableEq

/-- What a scan tells about its progress. -/
inductive Event where
  /-- A phase begins, with the number of steps it will take, or zero if that is not known. -/
  | start (phase : Phase) (total : Nat)
  /-- The step with this number was done, on the given file. -/
  | progress (phase : Phase) (number : Nat) (file : String)
  /-- A phase ends. -/
  | finish (phase : Phase)
deriving DecidableEq

/-- Someone who watches a scan and may ask it to stop. -/
structure Monitor (σ : Type) where
  observe : σ → Event → σ
  /-- Whether the scan is to stop. -/
  poll : σ → Bool × σ

/-- The monitor that looks at nothing and never stops a scan. -/
def Monitor.silent : Monitor Unit :=
  { observe := fun _ _ => (), poll := fun _ => (false, ()) }

/-- What a scan leaves behind it. -/
structure Trace (σ : Type) where
  state : σ
  events : List Event := []
  log : List Log.Entry := []

/-- A scan in progress. -/
abbrev ScanM (σ : Type) := ExceptT ScanFailure (StateM (Trace σ))

variable {σ : Type}

/-- Tells the monitor about an event. -/
def emit (monitor : Monitor σ) (event : Event) : ScanM σ Unit :=
  modify fun t => { t with state := monitor.observe t.state event, events := t.events ++ [event] }

/-- Writes to the log. -/
def say (entries : List Log.Entry) : ScanM σ Unit :=
  modify fun t => { t with log := t.log ++ entries }

/-- Asks whether to stop. -/
def isStopped (monitor : Monitor σ) : ScanM σ Bool :=
  modifyGet fun t =>
    let (stop, state) := monitor.poll t.state
    (stop, { t with state })

/-- Ends the scan if it is to stop. -/
def checkpoint (monitor : Monitor σ) : ScanM σ Unit := do
  if ← isStopped monitor then throw .interrupted

/-- Runs a scan from the first state of its monitor. -/
def ScanM.start {α : Type} (scan : ScanM σ α) (state : σ) : Except ScanFailure α × Trace σ :=
  scan.run.run { state }

end Homonym
