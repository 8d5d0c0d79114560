import Homonym.Failure.Causes
import Homonym.FileTree.Write
import Homonym.Settings.Basic
import Homonym.Toml.Writer

/-!
# Writing settings

`Settings.toToml` is the text of a settings file that holds every setting. `Settings.save` puts it
at a path, which it makes room for; what is there already is replaced only by force.
-/

namespace Homonym.Settings

/-- Settings as the text of a file. -/
def toToml (s : Settings) : String :=
  Toml.entry "include_internal" (Toml.bool s.includeInternal) ++
  Toml.entry "include_patterns" (Toml.texts s.includes) ++
  Toml.entry "exclude_patterns" (Toml.texts s.excludes) ++
  Toml.entry "ignore_types" (Toml.texts (s.ignoredKinds.map Kind.label)) ++
  Toml.entry "ignore_names" (Toml.texts s.ignoredNames) ++
  Toml.entry "follow_symlinks" (Toml.bool s.followLinks) ++
  Toml.entry "skip_hidden" (Toml.bool s.skipHidden) ++
  Toml.entry "respect_gitignore" (Toml.bool s.respectIgnoreFile) ++
  "\n[rules]\n" ++
  Toml.entry "allow_same_file_overloads" (Toml.bool s.rules.allowSameFileOverloads) ++
  Toml.entry "allow_cross_module_duplicates" (Toml.bool s.rules.allowCrossModuleDuplicates) ++
  Toml.entry "max_duplicates_per_name" (toString s.rules.maxDuplicatesPerName.toInt)

/-- The path that a settings file goes to is free, or may be overwritten. -/
def mayWrite (tree : FileTree) (path : String) (force : Bool) : Bool :=
  !tree.pathExists path || force

/-- Makes the directories above a path, if it names any. -/
def makeRoom (tree : FileTree) (path : String) : Except WriteFailure Unit × FileTree :=
  match Path.parent? path with
  | none => (.ok (), tree)
  | some parent =>
    let (made, room) := tree.makeDirs parent
    (made.mapError fun e => .io parent e.message, room)

/-- Writes settings to a path. The tree that comes back has changed as far as the attempt went. -/
def save (s : Settings) (tree : FileTree) (path : String) (force : Bool) :
    Except WriteFailure Unit × FileTree :=
  if !mayWrite tree path force then (.error (.alreadyExists path), tree)
  else
    match makeRoom tree path with
    | (.error e, room) => (.error e, room)
    | (.ok (), room) =>
      match room.write path (.text s.toToml) with
      | .error e => (.error (.io path e.message), room)
      | .ok written => (.ok (), written)

end Homonym.Settings
