/-!
# Log entries

What a run tells besides its report. An entry has a level, the part of the program it comes from,
and a text; one that ends a timed stretch of work also shows how long that took.
-/

namespace Homonym.Log

/-- How important an entry is. -/
inductive Level where
  | error
  | warn
  | info
  | debug
  | trace
deriving DecidableEq

/-- The place of a level, the most important first. -/
def Level.rank : Level → Nat
  | .error => 1
  | .warn => 2
  | .info => 3
  | .debug => 4
  | .trace => 5

/-- The word for a level, at a width of five. -/
def Level.word : Level → String
  | .error => "ERROR"
  | .warn => "WARN "
  | .info => "INFO "
  | .debug => "DEBUG"
  | .trace => "TRACE"

/-- The part of the program that an entry comes from. -/
inductive Source where
  | app
  | settings
  | discovery
  | scan
  | output
deriving DecidableEq

/-- The name under which a part of the program is known to a log filter. -/
def Source.target : Source → String
  | .app => "namedupe"
  | .settings => "namedupe::config"
  | .discovery => "namedupe::scanner::walker"
  | .scan => "namedupe::duplicates::finder"
  | .output => "namedupe::output"

/-- One entry. -/
structure Entry where
  level : Level
  source : Source
  text : String
  /-- The entry shows how long something took. -/
  timed : Bool := false
deriving DecidableEq

/-- A warning. -/
def warning (source : Source) (text : String) : Entry :=
  { level := .warn, source, text }

/-- A remark. -/
def remark (source : Source) (text : String) : Entry :=
  { level := .info, source, text }

/-- A remark on something that took its time. -/
def timedRemark (source : Source) (text : String) : Entry :=
  { level := .info, source, text, timed := true }

/-- The text of an entry, with a duration in words. -/
def Entry.message (entry : Entry) (duration : String) : String :=
  entry.text ++ if entry.timed then " in " ++ duration else ""

end Homonym.Log
