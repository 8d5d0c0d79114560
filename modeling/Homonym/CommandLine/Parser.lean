import Homonym.CommandLine.Given

/-!
# Reading a command line

A level is read word by word. A value is held back until the next word shows that it is complete, so
a word that is unknown is reported before a value that is wrong. After a lone pair of hyphens every
word is a path.

When a command is named, the rest of the line is read and checked at its level before the top level
is checked.
-/

namespace Homonym.CommandLine

/-- What is held back. -/
inductive Pending where
  | nothing
  /-- An option that waits for its value. -/
  | awaiting (option : ValueOption)
  | value (option : ValueOption) (text : String)
  | path (text : String)
deriving DecidableEq

/-- How far a level has been read. -/
structure Reading where
  given : Given := {}
  pending : Pending := .nothing
  /-- Every word that follows is a path. -/
  pathsOnly : Bool := false
deriving DecidableEq

/-- Digits with at most one point after the first of them and at most one exponent after that. -/
def looksNumeric (text : List Char) : Bool :=
  let isMark (c : Char) : Bool := c == 'e'
  let mantissa := text.takeWhile fun c => !isMark c
  let exponent := text.dropWhile fun c => !isMark c
  let whole := mantissa.takeWhile Char.isDigit
  let mantissaFits :=
    match mantissa.dropWhile Char.isDigit with
    | [] => true
    | '.' :: places => !whole.isEmpty && places.all Char.isDigit
    | _ => false
  let exponentFits :=
    match exponent with
    | [] => true
    | _ :: digits => !mantissa.isEmpty && !digits.isEmpty && digits.all Char.isDigit
  mantissaFits && exponentFits

namespace Reading

/-- Takes in what is held back. -/
def settle (r : Reading) : Except Stop Reading := do
  match r.pending with
  | .nothing => return r
  | .awaiting _ => throw (.usage .badValue)
  | .value option text =>
    return { r with given := ← r.given.addValue option text, pending := .nothing }
  | .path text => return { r with given := ← r.given.addPath text, pending := .nothing }

/-- Takes in a flag. -/
def flag (r : Reading) (level : Level) (flag : Flag) : Except Stop Reading := do
  let r ← r.settle
  return { r with given := ← r.given.addFlag level flag }

/-- Takes in an option with its value. -/
def option (r : Reading) (option : ValueOption) (text : String) : Except Stop Reading := do
  let r ← r.settle
  return { r with given := ← r.given.addValue option text }

/-- Waits for the value of an option. -/
def await (r : Reading) (option : ValueOption) : Except Stop Reading := do
  let r ← r.settle
  return { r with pending := .awaiting option }

/-- Reads a name that was written out, with the value behind its equals sign, if there is one. -/
def longWord (r : Reading) (level : Level) (name : String) (value : Option String) :
    Except Stop Reading :=
  match level.named? name, value with
  | none, _ => .error (.usage .unknownArgument)
  | some (.flag _), some _ => .error (.usage .unwantedValue)
  | some (.flag flag), none => r.flag level flag
  | some (.option option), some text => r.option option text
  | some (.option option), none => r.await option

/-- Reads a run of letters. What follows the letter of an option is its value. -/
def letters (level : Level) : Reading → List Char → Except Stop Reading
  | r, [] => .ok r
  | r, c :: rest => do
    match level.lettered? c with
    | none => throw (.usage .unknownArgument)
    | some (.flag flag) => letters level (← r.flag level flag) rest
    | some (.option option) =>
      match rest with
      | [] => r.await option
      | '=' :: text => r.option option (String.ofList text)
      | text => r.option option (String.ofList text)

/-- Reads a path. Commands take one; at the top there is only room for the name of a command. -/
def plainPath (r : Reading) (level : Level) (word : String) : Except Stop Reading := do
  match level with
  | .top =>
    if r.pathsOnly && (word == "help" || (Level.ofCommandName? word).isSome) then
      throw (.usage .unknownArgument)
    else throw (.usage .unknownCommand)
  | _ =>
    let takesNoMore :=
      match r.pending with
      | .path _ => true
      | _ => r.given.path.isSome
    if takesNoMore then throw (.usage .unknownArgument)
    let r ← r.settle
    return { r with pending := .path word }

/-- Reads a word that is no flag: the value that is waited for, or a path. -/
def plainWord (r : Reading) (level : Level) (word : String) : Except Stop Reading :=
  match r.pending with
  | .awaiting option => .ok { r with pending := .value option word }
  | _ => r.plainPath level word

/-- Reads a word. -/
def word (r : Reading) (level : Level) (word : String) : Except Stop Reading :=
  if r.pathsOnly then r.plainPath level word
  else
    match word.toList with
    | '-' :: '-' :: [] => .ok { r with pathsOnly := true }
    | '-' :: '-' :: long =>
      let name := String.ofList (long.takeWhile (· != '='))
      match long.dropWhile (· != '=') with
      | [] => r.longWord level name none
      | _ :: text => r.longWord level name (some (String.ofList text))
    | '-' :: c :: rest =>
      if r.pending = .awaiting .maxDuplicates && looksNumeric (c :: rest) then
        r.plainWord level word
      else letters level r (c :: rest)
    | _ => r.plainWord level word

end Reading

/-- Reads the words of a command. -/
def readWords (level : Level) : Reading → List String → Except Stop Given
  | r, [] => r.settle.map Reading.given
  | r, word :: rest => do readWords level (← r.word level word) rest

/-- Reads the top level up to the name of a command: what was given before it, and the command with
the words behind it. -/
def readTop : Reading → List String → Except Stop (Given × Option (Level × List String))
  | r, [] => .ok (r.given, none)
  | r, word :: rest => do
    if r.pathsOnly then readTop (← r.word .top word) rest
    else if word = "help" then throw (helpOn rest)
    else
      match Level.ofCommandName? word with
      | some level => return (r.given, some (level, rest))
      | none => readTop (← r.word .top word) rest
where
  /-- The end of a line that asks for help on something. -/
  helpOn : List String → Stop
    | [] => .help
    | [word] =>
      if word == "help" || (Level.ofCommandName? word).isSome then .help
      else .usage .unknownCommand
    | _ => .usage .unknownCommand

/-- Whether colour is off at a level: by flag, or else by the environment, which must then say
`true` or `false`. -/
def colorOff (given : Given) (noColor : Option String) : Except Stop Bool :=
  if given.has .noColor then .ok true
  else
    match noColor with
    | none => .ok false
    | some "true" => .ok true
    | some "false" => .ok false
    | some _ => .error (.usage .badValue)

/-- Fails if the log is asked to tell both more and less. -/
def checkVolume (given : Given) : Except Stop Unit :=
  if given.has .quiet && given.verbosity != 0 then .error (.usage .conflict) else .ok ()

/-- Reads a command line. The environment may turn colour off. -/
def parse (noColor : Option String) (words : List String) : Except Stop Invocation := do
  let (top, next) ← readTop {} words
  match next with
  | none =>
    discard (colorOff top noColor)
    if top.hasNoFlags && noColor.isNone then throw (.usage .nothingGiven)
    else throw (.usage .missingCommand)
  | some (level, rest) =>
    let given ← readWords level {} rest
    let offBelow ← colorOff given noColor
    checkVolume given
    let offAbove ← colorOff top noColor
    checkVolume top
    return {
      verbosity := if given.verbosity = 0 then top.verbosity else given.verbosity
      quiet := top.has .quiet || given.has .quiet
      noColor := offAbove || offBelow
      jsonErrors := top.has .jsonErrors || given.has .jsonErrors
      command := if level = .init then .init given.toInit else .scan given.toScan }

end Homonym.CommandLine
