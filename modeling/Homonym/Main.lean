import Homonym.Session.Execution
import Homonym.Text.Duration

/-!
# The program

Takes the working directory as a file tree, runs the command line in it, and puts out what the run
leaves behind. Nothing outside the working directory is seen but the settings file of the user, so a
path or a link that leads out of it leads nowhere.
-/

namespace Homonym.Program

open Session

/-- How deep below the working directory files are looked for. -/
def depthLimit : Nat := 1000

/-- What a file holds. -/
def loadContent (path : String) : IO Content := do
  let bytes ← IO.FS.readBinFile path
  match String.fromUTF8? bytes with
  | some text => return .text text
  | none => return .bytes bytes.toList

/-- Where a link leads, as seen from the directory that holds it. -/
def loadTarget (top path : String) (depth : Nat) : IO String := do
  try
    let real ← IO.FS.realPath path
    match Path.behind? top real.toString with
    | some inside => return String.join (List.replicate depth "../") ++ "./" ++ inside
    | none => return real.toString
  catch _ => return "/"

/-- The entries of a directory, down to a depth. What cannot be looked at is left out. -/
def loadEntries (top : String) (depth : Nat) :
    Nat → Array IO.FS.DirEntry → IO (List (String × Node))
  | 0, _ => return []
  | bound + 1, entries => do
    let mut nodes := []
    for entry in entries do
      try
        let path := entry.path.toString
        let node ← match (← entry.path.symlinkMetadata).type with
          | .dir => do
            let below ← entry.path.readDir
            pure (Node.dir (← loadEntries top (depth + 1) bound below))
          | .symlink => do pure (Node.link (← loadTarget top path depth))
          | _ => do pure (Node.file (← loadContent path))
        nodes := Node.setEntry entry.fileName node nodes
      catch _ => pure ()
    return nodes

/-- The working directory as a tree. -/
def loadTree : IO FileTree := do
  let top ← IO.currentDir
  return .dir (← loadEntries top.toString 0 depthLimit (← top.readDir))

/-- The environment variables. -/
def loadVariables : IO (List (String × String)) := do
  try
    let bytes ← IO.FS.readBinFile "/proc/self/environ"
    let text := (String.fromUTF8? bytes).getD ""
    return (Text.splitAt '\x00' text.toList).filterMap fun piece =>
      match piece.dropWhile (· != '=') with
      | [] => none
      | _ :: value => some (String.ofList (piece.takeWhile (· != '=')), String.ofList value)
  catch _ => return []

/-- The settings file of the user, if it is there. -/
def loadUser (environment : List (String × String)) : IO (Option Located) := do
  match environment.lookup "HOME" with
  | none => return none
  | some home =>
    try
      let content ← loadContent (userFile home (environment.lookup "XDG_CONFIG_HOME"))
      return some { tree := .dir [("config.toml", .file content)], path := "config.toml" }
    catch _ => return none

/-- Two contents are the same. -/
def sameContent : Content → Content → Bool
  | .text a, .text b => a == b
  | .bytes a, .bytes b => a == b
  | _, _ => false

/-- Writes the files that are in one tree and not, or not so, in another. -/
def saveChanges (before after : FileTree) : IO Unit := do
  let old := before.files ""
  for (path, content) in after.files "" do
    let kept := old.any fun (name, held) => name == path && sameContent held content
    if !kept then
      match Path.parent? path with
      | some parent => if !parent.isEmpty then IO.FS.createDirAll parent
      | none => pure ()
      match content with
      | .text text => IO.FS.writeFile path text
      | .bytes bytes => IO.FS.writeBinFile path ⟨bytes.toArray⟩

/-- Puts out what the shell sees. -/
def present (before : FileTree) (shown : Execution) : IO UInt32 := do
  saveChanges before shown.tree
  IO.print shown.stdout
  (← IO.getStdout).flush
  IO.eprint shown.stderr
  return UInt32.ofNat shown.exit

/-- Runs a command line in the working directory. -/
def start (words : List String) : IO UInt32 := do
  let environment ← loadVariables
  let around : Surroundings :=
    { environment
      user := ← loadUser environment
      terminal := ← (← IO.getStdout).isTty
      logTerminal := ← (← IO.getStderr).isTty }
  match invocation around words with
  | .error stop => present .empty (.ofStop stop .empty)
  | .ok i =>
    let before ← IO.monoNanosNow
    let tree ← loadTree
    let outcome ← IO.lazyPure fun _ => run around i tree
    let took := (← IO.monoNanosNow) - before
    present tree (.ofOutcome around (Text.durationText took) i outcome)

end Homonym.Program

/-- Runs the command line in the working directory. -/
def main (words : List String) : IO UInt32 :=
  Homonym.Program.start words
