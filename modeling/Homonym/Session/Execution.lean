import Homonym.CommandLine.Help
import Homonym.CommandLine.Parser
import Homonym.Log.Color
import Homonym.Log.Filter
import Homonym.Session.Basic

/-!
# The program as the shell sees it

`execute` takes the words of a command line and gives the exit number and the two texts that the
program puts out. The log goes to standard error, and behind it the failure that ended the run, if
one did.
-/

namespace Homonym.Session

open CommandLine

/-- What the shell sees of a run. -/
structure Execution where
  exit : Nat
  stdout : String := ""
  stderr : String := ""
  tree : FileTree

/-- What is shown of the log: what the environment says, if it says anything, or else what the
command line asks for. -/
def logFilter (around : Surroundings) (i : Invocation) : Log.Filter :=
  match around.environment.lookup "RUST_LOG" with
  | some text => .parse text
  | none => .ofVolume i.verbosity i.quiet

/-- The lines of the log that are shown, with a duration for work that took its time. -/
def logLines (around : Surroundings) (i : Invocation) (duration : String)
    (log : List Log.Entry) : List String :=
  let filter := logFilter around i
  let layout : Log.Layout :=
    { withTarget := 2 ≤ i.verbosity
      colored := Log.isColored around.environment around.logTerminal }
  (log.filter (filter.shows duration)).map fun entry => entry.line layout duration

/-- The exit number of an outcome, and the lines on its failure. -/
def ending (i : Invocation) (outcome : Outcome) : Nat × List String :=
  match outcome.result with
  | .ok exit => (exit.number, [])
  | .error failure => ((ExitCode.ofFailure failure).number, [failure.display i.jsonErrors])

/-- What the shell sees of an outcome. -/
def Execution.ofOutcome (around : Surroundings) (duration : String) (i : Invocation)
    (outcome : Outcome) : Execution :=
  let (exit, failure) := ending i outcome
  let lines := logLines around i duration outcome.log ++ failure
  { exit
    stdout := outcome.stdout
    stderr := String.join (lines.map (· ++ "\n"))
    tree := outcome.tree }

/-- What the shell sees when a command line leads to no run. -/
def Execution.ofStop (stop : Stop) (tree : FileTree) : Execution :=
  { exit := stop.exitNumber, stdout := stop.stdout, stderr := stop.stderr, tree }

/-- Reads a command line. -/
def invocation (around : Surroundings) (words : List String) : Except Stop Invocation :=
  parse (around.environment.lookup "NO_COLOR") words

/-- Runs a command line within a tree. -/
def execute (around : Surroundings) (duration : String) (words : List String) (tree : FileTree) :
    Execution :=
  match invocation around words with
  | .error stop => .ofStop stop tree
  | .ok i => .ofOutcome around duration i (run around i tree)

end Homonym.Session
