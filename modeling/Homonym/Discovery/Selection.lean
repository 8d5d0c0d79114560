import Homonym.Discovery.Options
import Homonym.FileTree.Resolve
import Homonym.Log.Basic
import Homonym.Pattern.GlobRoom
import Homonym.Pattern.IgnoreList
import Homonym.Text.Lines

/-!
# Which files are wanted

The include patterns look at a path alone. The exclude patterns and the ignore file of the root
look at a path and at the directories above it. Lines that cannot be read are left out with a
warning, and a list whose globs nest too deep or take too much room is given up as a whole.
-/

namespace Homonym.Discovery

open Pattern

/-- The lists that decide which files are wanted. -/
structure Selection where
  includes : IgnoreList
  excludes : IgnoreList
  ignoreFile : IgnoreList

namespace Selection

/-- The file is wanted. -/
def takes (m : Selection) (path : String) : Bool :=
  m.includes.verdict path false == .ignored

/-- The file or directory is passed over. -/
def rejects (m : Selection) (path : String) (isDir : Bool) : Bool :=
  m.excludes.verdictUpward path isDir == .ignored ||
    m.ignoreFile.verdictUpward path isDir == .ignored

end Selection

/-- The list of some rules, or an empty one with a warning if their globs cannot be used. -/
def buildList (root what : String) (rules : List IgnoreRule) : IgnoreList × List Log.Entry :=
  match fault? (rules.map IgnoreRule.glob) with
  | none => ({ root, rules }, [])
  | some fault =>
    ({ root, rules := [] },
      [Log.warning .discovery ("Failed to build " ++ what ++ " patterns: " ++ fault)])

/-- The list of some patterns, with a warning for each that cannot be read. -/
def patternList (root what : String) (patterns : List String) : IgnoreList × List Log.Entry :=
  let (rules, errors) := IgnoreList.readLines 1 (patterns.map String.toList)
  let named := errors.map fun (number, e) => (patterns[number - 1]?.getD "", e)
  let invalid := named.map fun (pattern, e) =>
    Log.warning .discovery ("Invalid " ++ what ++ " pattern '" ++ pattern ++ "': " ++ e.message)
  let (list, failed) := buildList root what rules
  (list, invalid ++ failed)

/-- The bytes of every line, without the line feeds. -/
def byteLines : List UInt8 → List (List UInt8)
  | [] => []
  | b :: rest =>
    if b = 0x0A then [] :: byteLines rest
    else
      match byteLines rest with
      | [] => [[b]]
      | line :: more => (b :: line) :: more

/-- The text of a line of bytes, without a carriage return at its end. -/
def decodeLine? (line : List UInt8) : Option (List Char) :=
  match String.fromUTF8? ⟨line.toArray⟩ with
  | none => none
  | some text =>
    match text.toList.reverse with
    | '\r' :: rest => some rest.reverse
    | _ => some text.toList

/-- The decoded lines up to the first that is no text, and whether there is one. -/
def decodedLines : List (List UInt8) → List (List Char) × Bool
  | [] => ([], false)
  | line :: rest =>
    match decodeLine? line with
    | none => ([], true)
    | some text =>
      let (more, cut) := decodedLines rest
      (text :: more, cut)

/-- Lines without byte order marks at the front of the first. -/
def dropMarks : List (List Char) → List (List Char)
  | [] => []
  | line :: rest => line.dropWhile (· == '\uFEFF') :: rest

/-- The lines of an ignore file, as far as they are text, and whether that is not all. -/
def ignoreLines (content : Content) : List (List Char) × Bool :=
  match content with
  | .text text => (dropMarks (Text.lines text.toList), false)
  | .bytes bytes =>
    let (lines, cut) := decodedLines (byteLines bytes)
    (dropMarks lines, cut)

/-- The list of the ignore file of a root, if it is to be honoured and is there. -/
def ignoreFileList (tree : FileTree) (options : DiscoveryOptions) (root : String) :
    IgnoreList × List Log.Entry :=
  let path := Path.join root ".gitignore"
  let failed (text : String) :=
    Log.warning .discovery ("Failed to load .gitignore from " ++ path ++ ": " ++ text)
  if !options.respectIgnoreFile || !tree.pathExists path then ({ root, rules := [] }, [])
  else
    let located (number : Nat) (text : String) :=
      path ++ ": line " ++ toString number ++ ": " ++ text
    match tree.read path with
    | .error e => ({ root, rules := [] }, [failed (located 1 e.message)])
    | .ok content =>
      let (lines, cut) := ignoreLines content
      let (rules, errors) := IgnoreList.readLines 1 lines
      let faults := errors.map (fun (number, e) => located number e.message) ++
        if cut then [located (lines.length + 1) "stream did not contain valid UTF-8"] else []
      let (list, unusable) := buildList root ".gitignore" rules
      (list, (if faults.isEmpty then [] else [failed ("\n".intercalate faults)]) ++ unusable)

/-- The lists of a root, and the warnings on the way. -/
def selection (tree : FileTree) (options : DiscoveryOptions) (root : String) :
    Selection × List Log.Entry :=
  let (includes, w₁) := patternList root "include" options.includes
  let (excludes, w₂) := patternList root "exclude" options.excludes
  let (ignoreFile, w₃) := ignoreFileList tree options root
  ({ includes, excludes, ignoreFile }, w₁ ++ w₂ ++ w₃)

end Homonym.Discovery
