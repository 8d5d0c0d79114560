import Homonym.CommandLine.Given

/-!
# Texts about the command line
-/

namespace Homonym.CommandLine

/-- The flags and options of a level, one in a line. -/
def Level.switchLines (level : Level) : List String :=
  let line (letter : Option Char) (name : String) : String :=
    match letter with
    | some c => "  -" ++ c.toString ++ ", --" ++ name
    | none => "      --" ++ name
  level.options.map (fun o => line o.letter? o.name ++ " <VALUE>") ++
    level.flags.map fun f => line f.letter? f.name

/-- How the words of a level are put together. -/
def Level.usage : Level → String
  | .top => "Usage: namedupe [OPTIONS] <scan|init>"
  | .scan => "Usage: namedupe scan [OPTIONS] [PATH]"
  | .init => "Usage: namedupe init [OPTIONS] [PATH]"

/-- The text that explains the command line. -/
def helpText : String :=
  let part (level : Level) : List String := level.usage :: level.switchLines
  "\n".intercalate ("Find duplicate declaration names across a TypeScript project" :: "" ::
    part .top ++ "" :: part .scan ++ "" :: part .init) ++ "\n"

/-- What is wrong, in words. -/
def UsageError.message : UsageError → String
  | .badValue => "a value is missing or is not allowed"
  | .badNumber => "a value is not a number in range"
  | .unwantedValue => "a flag is given a value"
  | .unknownArgument => "an argument is not known"
  | .unknownCommand => "a command is not known"
  | .conflict => "an argument is repeated or cannot be used with another"
  | .missingCommand => "a command is missing"
  | .nothingGiven => "nothing is asked for"

namespace Stop

/-- The number for the shell. -/
def exitNumber : Stop → Nat
  | .usage _ => 2
  | .help => 0
  | .version _ => 0

/-- The text on standard output. -/
def stdout : Stop → String
  | .usage _ => ""
  | .help => helpText
  | .version level => level.versionText

/-- The text on standard error. -/
def stderr : Stop → String
  | .usage error => "error: " ++ error.message ++ "\n\n" ++ Level.top.usage ++ "\n"
  | _ => ""

end Stop

end Homonym.CommandLine
