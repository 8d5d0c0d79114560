import Homonym.FileTree.Resolve

/-!
# Changing a tree

Writing a file, making directories and links, and removing. Each operation looks its path up by
itself, so one that changes the tree may change where a later path leads.
-/

namespace Homonym.FileTree

/-- A path without slashes at its end. -/
def trimSlashes (path : String) : String :=
  String.ofList (path.toList.reverse.dropWhile (· == '/')).reverse

/-- Writes a file, through links, and replaces what it held. -/
def write (tree : FileTree) (path : String) (content : Content) : Except OsError FileTree :=
  match tree.resolve .make path with
  | .error e => .error e
  | .ok (.vacant dir name) => .ok (tree.insert dir name (.file content))
  | .ok (.found place) =>
    match tree.at? place, place.getLast? with
    | some (.file _), some name => .ok (tree.insert place.dropLast name (.file content))
    | _, _ => .error .isADirectory

/-- Makes a directory with a name that is free in a directory that is there. -/
def makeDir (tree : FileTree) (path : String) : Except OsError FileTree :=
  match tree.resolveParent (trimSlashes path) with
  | .error e => .error e
  | .ok (place, .down name) =>
    match tree.at? place with
    | some (.dir entries) =>
      if (Node.entry? name entries).isSome then .error .exists
      else .ok (tree.insert place name (.dir []))
    | _ => .error .notADirectory
  | .ok _ => .error .exists

/-- Makes a directory and those above it, where they are missing. The bound counts the directories
that may be missing. What was made before a failure stays. -/
def makeDirsWithin : Nat → FileTree → String → Except OsError Unit × FileTree
  | 0, tree, _ => (.error .notFound, tree)
  | bound + 1, tree, path =>
    if path.isEmpty then (.ok (), tree)
    else
      match tree.makeDir path with
      | .ok made => (.ok (), made)
      | .error .notFound =>
        match Path.parent? path with
        | none => (.error .notFound, tree)
        | some parent =>
          match makeDirsWithin bound tree parent with
          | (.error e, above) => (.error e, above)
          | (.ok (), above) =>
            match above.makeDir path with
            | .ok made => (.ok (), made)
            | .error e => (if above.isDir path then .ok () else .error e, above)
      | .error e => (if tree.isDir path then .ok () else .error e, tree)

/-- Makes a directory and those above it, where they are missing. What was made before a failure
stays. -/
def makeDirs (tree : FileTree) (path : String) : Except OsError Unit × FileTree :=
  makeDirsWithin (path.length + 1) tree path

/-- Makes the directories above a path, where they are missing. -/
def makeParents (tree : FileTree) (path : String) : Except OsError Unit × FileTree :=
  match Path.parent? path with
  | none => (.ok (), tree)
  | some parent => tree.makeDirs parent

/-- Makes a link with a name that is free, to a target that could be a path. -/
def makeLink (tree : FileTree) (path target : String) : Except OsError FileTree :=
  match pathRefusal? target, tree.resolveParent path with
  | some e, _ => .error e
  | none, .error e => .error e
  | none, .ok (place, .down name) =>
    match tree.at? place with
    | some (.dir entries) =>
      if (Node.entry? name entries).isSome then .error .exists
      else .ok (tree.insert place name (.link target))
    | _ => .error .notADirectory
  | none, .ok _ => .error .exists

/-- Removes a file, a link, or a directory with all it holds. -/
def delete (tree : FileTree) (path : String) : Except OsError FileTree :=
  match tree.resolveParent (trimSlashes path) with
  | .error e => .error e
  | .ok (place, .down name) =>
    match tree.at? place with
    | some (.dir entries) =>
      if (Node.entry? name entries).isSome then .ok (tree.remove place name)
      else .error .notFound
    | _ => .error .notADirectory
  | .ok _ => .error .notFound

end Homonym.FileTree
