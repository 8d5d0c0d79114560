import Homonym.Discovery.FileError
import Homonym.Discovery.Selection

/-!
# Walking a tree

`walk` goes through the directories below a root, depth first and in the order of names, and gives
the paths of the wanted files; entries of a directory that cannot be used come after the others. A
directory that is passed over is not entered, and that goes for the root as well.

Links are passed over, or followed to what they lead to. A link to a directory whose target is, as a
path, one of the directories on the way to it would lead back into them and is refused. A way that
can be followed passes through at most `linkLimit` links, and between two of them through no more
directories than the tree has: that bounds the depth.
-/

namespace Homonym.Discovery

/-- A wanted file by its path, or an entry that cannot be used. -/
abbrev Outcome := Except FileError String

/-- What a walk needs to know. -/
structure Walk where
  tree : FileTree
  root : String
  followLinks : Bool
  skipHidden : Bool
  selection : Selection

namespace Walk

/-- A path as seen from the root. -/
def relative (w : Walk) (path : String) : String :=
  Path.relative w.root path

/-- The name is hidden. -/
def isHidden (name : String) : Bool :=
  name.toList.head? == some '.'

/-- What an entry stands for: a link for its target, if links are followed. The directories on the
way to the entry are given. -/
def resolveEntry (w : Walk) (above : List String) (path : String) (node : Node) :
    Except FileError Node :=
  match node with
  | .link target =>
    if w.followLinks then
      match w.tree.lookup path with
      | .error e => .error (.ofIo path e.toIoError)
      | .ok found =>
        if found.isDir && above.any (Path.same target) then
          .error (.io path "filesystem loop or walk error")
        else .ok found
    else .ok node
  | _ => .ok node

/-- The entries of a directory that are looked at, with their paths. -/
def entriesOf (w : Walk) (above : List String) (dir : String) (entries : List (String × Node)) :
    List (String × Except FileError Node) :=
  (entries.filter fun e => !(w.skipHidden && isHidden e.1)).map fun (name, node) =>
    let path := Path.join dir name
    (path, w.resolveEntry above path node)

/-- The file is wanted. -/
def wants (w : Walk) (path : String) : Bool :=
  w.selection.takes (w.relative path) && !w.selection.rejects (w.relative path) false

/-- The directory is entered. -/
def enters (w : Walk) (path : String) : Bool :=
  !w.selection.rejects (w.relative path) true

/-- What is found below a directory, at most `bound` levels deep. A directory is entered however
long its path has become: the limit of `FileTree.lookup` is on paths that are looked up. -/
def below (w : Walk) : Nat → List String → String → List (String × Node) → List Outcome
  | 0, _, _, _ => []
  | bound + 1, above, dir, entries =>
    let above := above ++ [dir]
    let found := w.entriesOf above dir entries
    (found.flatMap fun (path, entry) =>
      match entry with
      | .ok (.dir inner) => if w.enters path then below w bound above path inner else []
      | .ok (.file _) => if w.wants path then [.ok path] else []
      | .ok (.link _) => []
      | .error _ => []) ++
    found.filterMap fun (_, entry) =>
      match entry with
      | .error e => some (.error e)
      | .ok _ => none

/-- The path of the root as an entry of the directory above it. A root without a name of its own is
put behind that directory as it is. -/
def rootEntry (w : Walk) : String :=
  Path.join ((Path.parent? w.root).getD w.root) ((Path.fileName? w.root).getD w.root)

/-- The root itself is a directory, and not a link to one unless links are followed. -/
def rootIsDir (w : Walk) : Bool :=
  match if w.followLinks then w.tree.lookup w.root else w.tree.named w.root with
  | .ok node => node.isDir
  | .error _ => false

/-- The root is passed over, so that nothing is found below it. -/
def isRootRejected (w : Walk) : Bool :=
  w.rootIsDir && !w.enters w.rootEntry

/-- No way that can be followed is deeper. -/
def depthBound (w : Walk) : Nat :=
  (linkLimit + 1) * (w.tree.size + 1)

/-- What is found below the root. -/
def outcomes (w : Walk) : List Outcome :=
  match w.tree.lookup w.root with
  | .error e => [.error (.ofIo w.root e.toIoError)]
  | .ok (.dir entries) =>
    if w.isRootRejected then [] else w.below w.depthBound [] w.root entries
  | .ok _ => []

end Walk

/-- The walk of a root, and the warnings about its patterns. -/
def prepare (tree : FileTree) (options : DiscoveryOptions) (root : String) :
    Walk × List Log.Entry :=
  let (selection, warnings) := selection tree options root
  ({ tree, root, followLinks := options.followLinks, skipHidden := options.skipHidden, selection },
    warnings)

/-- The wanted files below a root, and the entries that cannot be used. -/
def walk (tree : FileTree) (options : DiscoveryOptions) (root : String) : List Outcome :=
  (prepare tree options root).1.outcomes

/-- What a walk under a shutdown flag gives: all entries are passed over if the flag is raised. -/
def walkUnder (raised : Bool) (tree : FileTree) (options : DiscoveryOptions) (root : String) :
    List Outcome :=
  if raised then [] else walk tree options root

end Homonym.Discovery
