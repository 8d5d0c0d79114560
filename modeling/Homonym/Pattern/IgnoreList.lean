import Homonym.Path
import Homonym.Pattern.GlobMatch
import Homonym.Pattern.GlobReader
import Homonym.Text.Blank
import Homonym.Text.Words

/-!
# Ignore lists

An ignore list is read line by line. A line holds a glob; a leading exclamation mark turns its
meaning round, a leading slash ties it to the root, and a final slash restricts it to directories. A
glob without any other slash matches at every depth. Of all rules that match a path the last one
decides.

`verdict` looks at a path alone. `verdictUpward` also looks at the directories above it, nearest
first, until a rule matches one of them.
-/

namespace Homonym.Pattern

open Text

/-- One rule of an ignore list. -/
structure IgnoreRule where
  glob : Glob
  /-- The rule keeps what it matches. -/
  negated : Bool
  /-- The rule matches directories alone. -/
  onlyDirs : Bool

/-- A line whose glob cannot be read. -/
structure LineError where
  line : List Char
  cause : GlobError

/-- The fault in words. -/
def LineError.message (e : LineError) : String :=
  "error parsing glob '" ++ String.ofList e.line ++ "': " ++ e.cause.message

/-- The text ends with given characters. -/
def endsWith (text ending : List Char) : Bool :=
  (after? ending.reverse text.reverse).isSome

/-- A line without the blanks at its end, unless the last of them is escaped. -/
def trimLine (line : List Char) : List Char :=
  if endsWith line ['\\', ' '] then line else trimEnd line

/-- The marks in front of a glob: whether it is negated, whether it is tied to the root, and what
follows. -/
def readMarks : List Char → Bool × Bool × List Char
  | '\\' :: '!' :: rest => (false, false, '!' :: rest)
  | '\\' :: '#' :: rest => (false, false, '#' :: rest)
  | '!' :: '/' :: rest => (true, true, rest)
  | '!' :: rest => (true, false, rest)
  | '/' :: rest => (false, true, rest)
  | line => (false, false, line)

/-- Takes off a final slash, with a backslash before it, and says whether it was there. -/
def readDirMark (line : List Char) : Bool × List Char :=
  match line.reverse with
  | '/' :: '\\' :: rest => (true, rest.reverse)
  | '/' :: rest => (true, rest.reverse)
  | _ => (false, line)

/-- The text of the glob of a line. Without a slash it matches at every depth; what is below a
directory does not include the directory. -/
def globText (tied : Bool) (line : List Char) : List Char :=
  let doubled := line = ['*', '*'] ∨ (after? ['*', '*', '/'] line).isSome
  let deep :=
    if tied ∨ '/' ∈ line ∨ doubled then line else '*' :: '*' :: '/' :: line
  if endsWith deep ['/', '*', '*'] then deep ++ ['/', '*'] else deep

/-- Reads a line. Comments and empty lines hold no rule. -/
def IgnoreRule.parse (line : List Char) : Except LineError (Option IgnoreRule) :=
  let trimmed := trimLine line
  if line.head? = some '#' ∨ trimmed = [] then .ok none
  else
    let (negated, tied, marked) := readMarks trimmed
    let (onlyDirs, body) := readDirMark marked
    match Glob.parse (globText tied body) with
    | .error cause => .error ⟨trimmed, cause⟩
    | .ok glob => .ok (some { glob, negated, onlyDirs })

/-- The rule matches a path below the root. -/
def IgnoreRule.accepts (rule : IgnoreRule) (path : Bytes) (isDir : Bool) : Bool :=
  (!rule.onlyDirs || isDir) && rule.glob.accepts path

/-- What an ignore list says about a path. -/
inductive Verdict where
  | unmatched
  | ignored
  | kept
deriving DecidableEq

/-- What a rule says about the paths it matches. -/
def IgnoreRule.verdict (rule : IgnoreRule) : Verdict :=
  if rule.negated then .kept else .ignored

/-- Rules with the root that paths are seen from. -/
structure IgnoreList where
  root : String
  rules : List IgnoreRule

/-- A path without a dot at its front. -/
def dropDot : List Char → List Char
  | '.' :: '/' :: rest => rest
  | path => path

namespace IgnoreList

/-- The rules of some lines, and the faults of the lines that have none, with their numbers. -/
def readLines : Nat → List (List Char) → List IgnoreRule × List (Nat × LineError)
  | _, [] => ([], [])
  | number, line :: rest =>
    let (rules, errors) := readLines (number + 1) rest
    match IgnoreRule.parse line with
    | .error e => (rules, (number, e) :: errors)
    | .ok none => (rules, errors)
    | .ok (some rule) => (rule :: rules, errors)

/-- A path as the rules see it: without a dot at its front and, if it leads through a directory,
without the text of the root. -/
def strip (list : IgnoreList) (path : List Char) : List Char :=
  let root := dropDot list.root.toList
  let path := dropDot path
  if Path.same (String.ofList root) "." || !path.contains '/' then path
  else
    match after? root path with
    | none => path
    | some ('/' :: rest) => rest
    | some rest => rest

/-- The verdict of the last rule that matches a path as the rules see it. -/
def verdictStripped (list : IgnoreList) (path : List Char) (isDir : Bool) : Verdict :=
  let text := bytes path
  match list.rules.reverse.find? fun rule => rule.accepts text isDir with
  | some rule => rule.verdict
  | none => .unmatched

/-- The verdict on a path. -/
def verdict (list : IgnoreList) (path : String) (isDir : Bool) : Verdict :=
  list.verdictStripped (list.strip path.toList) isDir

/-- The first verdict among some directories. -/
def firstVerdict (list : IgnoreList) : List String → Verdict
  | [] => .unmatched
  | dir :: rest =>
    match list.verdictStripped dir.toList true with
    | .unmatched => firstVerdict list rest
    | v => v

/-- The verdict on a path or, if no rule matches it, on the nearest directory above it that a rule
matches. -/
def verdictUpward (list : IgnoreList) (path : String) (isDir : Bool) : Verdict :=
  let seen := list.strip path.toList
  match list.verdictStripped seen isDir with
  | .unmatched => list.firstVerdict (Path.ancestors (String.ofList seen))
  | v => v

end IgnoreList

end Homonym.Pattern
