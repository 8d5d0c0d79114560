import Homonym.Render.Format

/-!
# What a command line asks for
-/

namespace Homonym.CommandLine

/-- What is asked of a scan. -/
structure ScanArguments where
  /-- The root of the project. -/
  path : String := "."
  /-- The settings file to use. -/
  settingsFile : Option String := none
  format : OutputFormat := .console
  /-- The file for the report; without one it goes to standard output. -/
  output : Option String := none
  includes : List String := []
  excludes : List String := []
  includeInternal : Bool := false
  ignoredKinds : List Kind := []
  ignoredNames : List String := []
  /-- Overloads in one file count one by one. -/
  separateOverloads : Bool := false
  allowCrossModule : Bool := false
  maxDuplicates : Option Int64 := none
  followLinks : Bool := false
  /-- The ignore file of the project is not honoured. -/
  noIgnoreFile : Bool := false
  strict : Bool := false
deriving DecidableEq

/-- What is asked of the making of a settings file. -/
structure InitArguments where
  path : String := "namedupe.toml"
  /-- What is there already may be replaced. -/
  force : Bool := false
deriving DecidableEq

/-- What a run does. -/
inductive Command where
  | scan (arguments : ScanArguments)
  | init (arguments : InitArguments)
deriving DecidableEq

/-- A command with what holds for all commands. -/
structure Invocation where
  /-- How much more than usual the log tells. -/
  verbosity : Nat := 0
  quiet : Bool := false
  noColor : Bool := false
  jsonErrors : Bool := false
  command : Command
deriving DecidableEq

end Homonym.CommandLine
