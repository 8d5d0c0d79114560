import Homonym.FileTree.Resolve
import Homonym.Json.Reader
import Homonym.Log.Basic
import Homonym.Settings.Envelope
import Homonym.Settings.OfValue
import Homonym.Settings.Variables
import Homonym.Text.Magnitude
import Homonym.Toml.Reader

/-!
# Loading settings

Settings come in layers: the defaults, the file of the user, the file of the project and the
environment, each laid over those before it. Files hold TOML, or JSON if their name says so. In a
file a key may be spelled with capitals instead of underscores.
-/

namespace Homonym

/-- Why settings could not be loaded. -/
inductive LoadFailure where
  /-- A file cannot be read or parsed. -/
  | unreadable
  /-- A setting has a value that does not fit. -/
  | mismatch (mismatch : Mismatch)
deriving DecidableEq

/-- The mismatch in words. -/
def Mismatch.message (m : Mismatch) : String :=
  let what :=
    match m.cause with
    | .invalidType => "invalid type"
    | .invalidValue => "invalid value"
    | .unknownVariant => "unknown variant"
    | .duplicateField => "duplicate field"
  what ++ " for key \"" ++ ".".intercalate m.path ++ "\""

/-- The failure in words. -/
def LoadFailure.message : LoadFailure → String
  | .unreadable => "Invalid configuration: unreadable file"
  | .mismatch m => "Invalid configuration: " ++ m.message

/-! ## Keys -/

/-- A key with every capital in lower case, behind an underscore unless it is at the front. -/
def snakeCase (atFront : Bool) : List Char → List Char
  | [] => []
  | c :: rest =>
    if c.isUpper then
      (if atFront then [c.toLower] else ['_', c.toLower]) ++ snakeCase false rest
    else c :: snakeCase false rest

mutual

/-- A value with the keys of its dictionaries in snake case. Lists are left alone. -/
def Value.normalize : Value → Value
  | .dict entries => .dict (Value.ofList (normalizeEntries entries))
  | value => value

/-- Entries with their keys in snake case, in their old order. -/
def normalizeEntries : List (String × Value) → List (String × Value)
  | [] => []
  | (key, value) :: rest =>
    (String.ofList (snakeCase true key.toList), value.normalize) :: normalizeEntries rest

end

/-! ## Files -/

/-- The number that a literal stands for is out of range. -/
def literalOverflows (literal : List Char) : Bool :=
  let isMark (c : Char) := c == 'e' || c == 'E'
  let mantissa := literal.takeWhile fun c => !isMark c
  let exponent := (literal.dropWhile fun c => !isMark c).drop 1
  Text.overflowsInSteps ((mantissa.takeWhile (· != '.')).filter Char.isDigit)
    ((mantissa.dropWhile (· != '.')).drop 1) (exponent.filter Char.isDigit) (exponent.contains '-')

mutual

/-- A JSON value as a value of a settings source, unless a number is out of range. -/
def Value.ofJson? : Json → Option Value
  | .null => some .empty
  | .bool b => some (.bool b)
  | .int n => some (.int n)
  | .real literal => if literalOverflows literal then none else some .real
  | .str s => some (.str s)
  | .arr elements => (ofJsonList? elements).map .arr
  | .obj members => (ofJsonMembers? members).map fun ms => .dict (Value.ofList ms)
  | .raw _ => none

def ofJsonList? : List Json → Option (List Value)
  | [] => some []
  | json :: rest => do return (← Value.ofJson? json) :: (← ofJsonList? rest)

def ofJsonMembers? : List (String × Json) → Option (List (String × Value))
  | [] => some []
  | (key, json) :: rest => do return (key, ← Value.ofJson? json) :: (← ofJsonMembers? rest)

end

/-- A natural number, which is a mark in JSON. -/
def isJsonMark : Value → Bool
  | .int n => 0 ≤ n
  | _ => false

/-- A JSON text that holds an object. -/
def jsonDict? (text : String) : Option Value :=
  match Json.parse? text.toList with
  | some (.obj members) => do
    let entries := Value.ofList (← ofJsonMembers? members)
    return .dict (← openEntries? isJsonMark entries)
  | _ => none

/-- A TOML text. Its numbers are signed, and no mark is. -/
def tomlDict? (text : String) : Option Value := do
  return .dict (← openEntries? (fun _ => false) (← Toml.parse? text.toList))

/-- The path names a JSON file. -/
def isJsonPath (path : String) : Bool :=
  match Path.extension? path with
  | some ext => ext.toList.map Char.toLower == "json".toList
  | none => false

/-- The settings in a file. A directory holds none. -/
def fileLayer (tree : FileTree) (path : String) : Except LoadFailure Value :=
  if !tree.isFile path then .ok (.dict [])
  else
    match tree.readText path with
    | .error _ => .error .unreadable
    | .ok text =>
      match if isJsonPath path then jsonDict? text else tomlDict? text with
      | none => .error .unreadable
      | some value => .ok value.normalize

/-- The names of settings files of a project, the first choice first. -/
def projectFileNames : List String :=
  ["namedupe.toml", ".namedupe.toml", "namedupe.json", ".namedupe.json"]

/-- The settings file of a project: the one asked for, or else the first that the root holds. -/
def projectFile? (tree : FileTree) (root : String) (asked : Option String) : Option String :=
  match asked with
  | some path => if tree.pathExists path then some path else none
  | none => (projectFileNames.map (Path.join root)).find? tree.isFile

/-- The settings file of a user, by the home directory and the directory for settings, if there is
one. The latter counts only if it is absolute. -/
def userFile (home : String) (settingsDir : Option String) : String :=
  let base :=
    match settingsDir with
    | some dir => if Path.isAbsolute dir then dir else Path.join home ".config"
    | none => Path.join home ".config"
  Path.join (Path.join base "namedupe") "config.toml"

/-! ## Layers -/

/-- A path with the tree in which it is looked up. -/
structure Located where
  tree : FileTree
  path : String

/-- Where settings come from. -/
structure SettingsSources where
  root : String
  /-- The settings file asked for. -/
  asked : Option String := none
  /-- The settings file of the user, which lies in a tree of its own. -/
  user : Option Located := none
  environment : List (String × String) := []

/-- The layer of the user. -/
def userLayer (sources : SettingsSources) : Except LoadFailure Value :=
  match sources.user with
  | some file =>
    if file.tree.pathExists file.path then fileLayer file.tree file.path else .ok (.dict [])
  | none => .ok (.dict [])

/-- The layer of the project, with a warning if the file asked for is missing. -/
def projectLayer (tree : FileTree) (sources : SettingsSources) :
    Except LoadFailure Value × List Log.Entry :=
  match projectFile? tree sources.root sources.asked, sources.asked with
  | some path, _ => (fileLayer tree path, [])
  | none, some path =>
    (.ok (.dict []), [Log.warning .settings ("Config file not found: " ++ path)])
  | none, none => (.ok (.dict []), [])

namespace Settings

/-- Settings from layers, each over those before it. -/
def ofLayers (layers : List Value) : Except LoadFailure Settings :=
  let merged := layers.foldl (fun below layer => layer.cover below) (Settings.toValue {})
  (ofValue merged).mapError .mismatch

/-- Loads settings, with the warnings on the way. -/
def load (tree : FileTree) (sources : SettingsSources) :
    Except LoadFailure Settings × List Log.Entry :=
  match userLayer sources with
  | .error e => (.error e, [])
  | .ok user =>
    match projectLayer tree sources with
    | (.error e, log) => (.error e, log)
    | (.ok project, log) => (ofLayers [user, project, Variables.settings sources.environment], log)

/-- Loads settings, or takes the defaults if that fails. -/
def loadOrDefault (tree : FileTree) (sources : SettingsSources) : Settings × List Log.Entry :=
  match load tree sources with
  | (.ok settings, log) => (settings, log)
  | (.error e, log) =>
    ({}, log ++ [Log.warning .settings
      ("Failed to load configuration, using defaults: " ++ e.message)])

end Settings

end Homonym
