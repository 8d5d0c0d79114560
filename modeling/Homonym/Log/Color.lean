import Homonym.Log.Basic
import Homonym.Log.Plain

/-!
# Lines of the log

Whether the log is coloured is for the environment to say, and else it depends on whether the log
goes to a terminal. In a coloured log the level of an entry is painted; one that is not coloured
has no escape sequences at all.
-/

namespace Homonym.Log

/-- When the log is coloured. -/
inductive Coloring where
  | always
  | never
  | auto
deriving DecidableEq

/-- Reads when the log is coloured. -/
def Coloring.ofWord : String → Coloring
  | "always" => .always
  | "never" => .never
  | _ => .auto

/-- The variable is set, and not to an empty text. -/
def isGiven (environment : List (String × String)) (name : String) : Bool :=
  match environment.lookup name with
  | some text => !text.isEmpty
  | none => false

/-- The terminal is known to show colours. -/
def showsColors (environment : List (String × String)) : Bool :=
  (match environment.lookup "TERM" with
    | some name => name != "dumb"
    | none => false) ||
  (environment.lookup "CLICOLOR").isSome || (environment.lookup "CI").isSome

/-- What the environment says on colours in general, or else whether there is a terminal for
them. -/
def suitsColors (environment : List (String × String)) (terminal : Bool) : Bool :=
  if isGiven environment "NO_COLOR" then false
  else if isGiven environment "CLICOLOR_FORCE" then true
  else if environment.lookup "CLICOLOR" == some "0" then false
  else terminal && showsColors environment

/-- The log is coloured. Its own style is looked at only where its filter is set as well. -/
def isColored (environment : List (String × String)) (terminal : Bool) : Bool :=
  let style :=
    if (environment.lookup "RUST_LOG").isSome then
      Coloring.ofWord ((environment.lookup "RUST_LOG_STYLE").getD "")
    else .auto
  match style with
  | .always => true
  | .never => false
  | .auto => suitsColors environment terminal

/-- The escape sequences that paint a level. -/
def Level.paint : Level → String
  | .error => "\x1b[1m\x1b[31m"
  | .warn => "\x1b[33m"
  | .info => "\x1b[32m"
  | .debug => "\x1b[34m"
  | .trace => "\x1b[36m"

/-- How a line of the log is laid out. -/
structure Layout where
  /-- The line names the source of its entry. -/
  withTarget : Bool
  colored : Bool

/-- An entry as a line, with a duration in words. -/
def Entry.line (entry : Entry) (layout : Layout) (duration : String) : String :=
  let behind := (if layout.withTarget then " [" ++ entry.source.target ++ "]" else "") ++ " " ++
    entry.message duration
  if layout.colored then entry.level.paint ++ entry.level.word ++ "\x1b[0m" ++ behind
  else String.ofList (plain (entry.level.word ++ behind).toList)

end Homonym.Log
