import Homonym.CommandLine.Arguments
import Homonym.CommandLine.Options

/-!
# What has been given

`Given` collects the flags, options and paths of one level of a command line. Most may be given only
once; a value is checked when it is taken in.
-/

namespace Homonym.CommandLine

/-- What is wrong with a command line. -/
inductive UsageError where
  /-- A value is missing or is not one of those allowed. -/
  | badValue
  /-- A value is not a number in range. -/
  | badNumber
  /-- A flag is given a value. -/
  | unwantedValue
  | unknownArgument
  | unknownCommand
  /-- Something is given twice, or along with what it excludes. -/
  | conflict
  | missingCommand
  | nothingGiven
deriving DecidableEq

/-- Why a command line leads to no run: it is wrong, or it asks for a text. -/
inductive Stop where
  | usage (error : UsageError)
  | help
  | version (level : Level)
deriving DecidableEq

/-- What has been given at one level. -/
structure Given where
  flags : List Flag := []
  /-- How often the log was asked to tell more, up to 255. -/
  verbosity : Nat := 0
  path : Option String := none
  settingsFile : Option String := none
  format : Option OutputFormat := none
  output : Option String := none
  includes : List String := []
  excludes : List String := []
  ignoredKinds : List Kind := []
  ignoredNames : List String := []
  maxDuplicates : Option Int64 := none
deriving DecidableEq

/-- A decimal number in the range of 64 bits, with an optional sign. -/
def int64? (text : String) : Option Int64 :=
  let (sign, digits) : Int × List Char :=
    match text.toList with
    | '-' :: rest => (-1, rest)
    | '+' :: rest => (1, rest)
    | digits => (1, digits)
  let value : Int := sign * Nat.ofDigitChars 10 digits 0
  if digits.isEmpty || !digits.all Char.isDigit then none
  else if Int64.minValue.toInt ≤ value ∧ value ≤ Int64.maxValue.toInt then some (Int64.ofInt value)
  else none

/-- A path that is not empty. -/
def path? (text : String) : Option String :=
  if text.isEmpty then none else some text

/-- A value, or the error that there is none. -/
def orStop {α : Type} (error : UsageError) : Option α → Except Stop α
  | some a => .ok a
  | none => .error (.usage error)

/-- The value of an option that may be given once. -/
def once {α : Type} (before : Option α) (error : UsageError) (value : Option α) :
    Except Stop (Option α) :=
  if before.isSome then .error (.usage .conflict)
  else (orStop error value).map some

namespace Given

/-- A flag has been given. -/
def has (given : Given) (flag : Flag) : Bool :=
  given.flags.contains flag

/-- Nothing has been given but paths and values. -/
def hasNoFlags (given : Given) : Bool :=
  given.flags.isEmpty && given.verbosity == 0

/-- Takes in a flag. -/
def addFlag (given : Given) (level : Level) : Flag → Except Stop Given
  | .help => .error .help
  | .version => .error (.version level)
  | .verbose => .ok { given with verbosity := min 255 (given.verbosity + 1) }
  | flag =>
    if given.has flag then .error (.usage .conflict)
    else .ok { given with flags := given.flags ++ [flag] }

/-- Takes in the value of an option. -/
def addValue (given : Given) (option : ValueOption) (text : String) : Except Stop Given :=
  match option with
  | .settingsFile => do
    return { given with settingsFile := ← once given.settingsFile .badValue (path? text) }
  | .format => do
    return { given with format := ← once given.format .badValue (OutputFormat.ofLabel? text) }
  | .output => do
    return { given with output := ← once given.output .badValue (path? text) }
  | .included => .ok { given with includes := given.includes ++ [text] }
  | .excluded => .ok { given with excludes := given.excludes ++ [text] }
  | .ignoredKind => do
    let kind ← orStop .badValue (Kind.ofLabel? text)
    return { given with ignoredKinds := given.ignoredKinds ++ [kind] }
  | .ignoredName => .ok { given with ignoredNames := given.ignoredNames ++ [text] }
  | .maxDuplicates => do
    return { given with maxDuplicates := ← once given.maxDuplicates .badNumber (int64? text) }

/-- Takes in the path. -/
def addPath (given : Given) (text : String) : Except Stop Given := do
  return { given with path := ← once given.path .badValue (path? text) }

/-- What was given, as the arguments of a scan. -/
def toScan (given : Given) : ScanArguments :=
  { path := given.path.getD "."
    settingsFile := given.settingsFile
    format := given.format.getD .console
    output := given.output
    includes := given.includes
    excludes := given.excludes
    includeInternal := given.has .includeInternal
    ignoredKinds := given.ignoredKinds
    ignoredNames := given.ignoredNames
    separateOverloads := given.has .separateOverloads
    allowCrossModule := given.has .allowCrossModule
    maxDuplicates := given.maxDuplicates
    followLinks := given.has .followLinks
    noIgnoreFile := given.has .noIgnoreFile
    strict := given.has .strict }

/-- What was given, as the arguments for a new settings file. -/
def toInit (given : Given) : InitArguments :=
  { path := given.path.getD "namedupe.toml", force := given.has .force }

end Given

end Homonym.CommandLine
