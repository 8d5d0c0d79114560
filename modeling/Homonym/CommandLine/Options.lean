/-!
# Flags and options

The words that a command line may hold besides paths. A flag stands alone; an option takes a value.
Both are written out after two hyphens, and some have a letter that is written after one. Which of
them are known depends on the level: at the top, before a command is named, or in one of the
commands.
-/

namespace Homonym.CommandLine

/-- Where on a command line a word stands. -/
inductive Level where
  | top
  | scan
  | init
deriving DecidableEq

/-- A word that stands alone. -/
inductive Flag where
  | verbose
  | quiet
  | noColor
  | jsonErrors
  | includeInternal
  | separateOverloads
  | allowCrossModule
  | followLinks
  | noIgnoreFile
  | strict
  | force
  | help
  | version
deriving DecidableEq

namespace Flag

/-- A flag written out. -/
def name : Flag → String
  | .verbose => "verbose"
  | .quiet => "quiet"
  | .noColor => "no-color"
  | .jsonErrors => "json-errors"
  | .includeInternal => "include-internal"
  | .separateOverloads => "no-same-file-overloads"
  | .allowCrossModule => "allow-cross-module"
  | .followLinks => "follow-symlinks"
  | .noIgnoreFile => "no-gitignore"
  | .strict => "strict"
  | .force => "force"
  | .help => "help"
  | .version => "version"

/-- The letter of a flag. -/
def letter? : Flag → Option Char
  | .verbose => some 'v'
  | .quiet => some 'q'
  | .help => some 'h'
  | .version => some 'V'
  | _ => none

/-- The flags that are known everywhere. -/
def common : List Flag :=
  [.verbose, .quiet, .noColor, .jsonErrors, .help, .version]

end Flag

/-- A word that takes a value. -/
inductive ValueOption where
  | settingsFile
  | format
  | output
  | included
  | excluded
  | ignoredKind
  | ignoredName
  | maxDuplicates
deriving DecidableEq

namespace ValueOption

/-- All options; a scan knows every one of them. -/
def all : List ValueOption :=
  [.settingsFile, .format, .output, .included, .excluded, .ignoredKind, .ignoredName,
    .maxDuplicates]

/-- An option written out. -/
def name : ValueOption → String
  | .settingsFile => "config"
  | .format => "format"
  | .output => "output"
  | .included => "include"
  | .excluded => "exclude"
  | .ignoredKind => "ignore-type"
  | .ignoredName => "ignore-name"
  | .maxDuplicates => "max-duplicates"

/-- The letter of an option. -/
def letter? : ValueOption → Option Char
  | .settingsFile => some 'c'
  | .format => some 'f'
  | .output => some 'o'
  | _ => none

end ValueOption

namespace Level

/-- The flags that are known at a level. -/
def flags : Level → List Flag
  | .top => Flag.common
  | .scan => Flag.common ++
    [.includeInternal, .separateOverloads, .allowCrossModule, .followLinks, .noIgnoreFile, .strict]
  | .init => Flag.common ++ [.force]

/-- The options that are known at a level. -/
def options : Level → List ValueOption
  | .scan => ValueOption.all
  | _ => []

/-- The name of the program as it is shown at a level. -/
def title : Level → String
  | .top => "namedupe"
  | .scan => "namedupe-scan"
  | .init => "namedupe-init"

/-- What is shown to someone who asks for the version. -/
def versionText (level : Level) : String :=
  level.title ++ " 0.1.0\n"

/-- The level of a command. -/
def ofCommandName? : String → Option Level
  | "scan" => some .scan
  | "init" => some .init
  | _ => none

end Level

/-- A flag or an option. -/
inductive Switch where
  | flag (flag : Flag)
  | option (option : ValueOption)
deriving DecidableEq

/-- What a written-out name means at a level. -/
def Level.named? (level : Level) (name : String) : Option Switch :=
  match level.flags.find? fun f => f.name == name with
  | some f => some (.flag f)
  | none => (level.options.find? fun o => o.name == name).map .option

/-- What a letter means at a level. -/
def Level.lettered? (level : Level) (letter : Char) : Option Switch :=
  match level.flags.find? fun f => f.letter? == some letter with
  | some f => some (.flag f)
  | none => (level.options.find? fun o => o.letter? == some letter).map .option

end Homonym.CommandLine
