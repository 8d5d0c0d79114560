import Homonym.FileTree.OsError

/-!
# File trees

A file tree is a directory with everything below it, as a value: directories with named entries,
files, and symbolic links, which hold the text of their target. A file holds text, or bytes that are
no text in UTF-8. Names and targets are text, though a file system may have others. The entries of a
directory are kept in increasing order of their names, which for UTF-8 is the order of their bytes.

A `Place` is a list of names that leads from the top of the tree down to a node without following
any link.
-/

namespace Homonym

/-- What a file holds. -/
inductive Content where
  | text (text : String)
  | bytes (bytes : List UInt8)

/-- The content of a file with given bytes. -/
def Content.ofBytes (bytes : List UInt8) : Content :=
  match String.fromUTF8? ⟨bytes.toArray⟩ with
  | some decoded => .text decoded
  | none => .bytes bytes

/-- A node of a file tree. -/
inductive Node where
  | file (content : Content)
  | dir (entries : List (String × Node))
  | link (target : String)

/-- The names that lead from the top of a tree to a node. -/
abbrev Place := List String

namespace Node

/-- The node is a directory. -/
def isDir : Node → Bool
  | .dir _ => true
  | _ => false

/-- The entry with a name. -/
def entry? (name : String) (entries : List (String × Node)) : Option Node :=
  (entries.find? fun e => e.1 == name).map Prod.snd

/-- The entries with one more, which takes the place of one of the same name. -/
def setEntry (name : String) (node : Node) : List (String × Node) → List (String × Node)
  | [] => [(name, node)]
  | (n, old) :: rest =>
    if n = name then (name, node) :: rest
    else if name < n then (name, node) :: (n, old) :: rest
    else (n, old) :: setEntry name node rest

/-- The entries without the one of a name. -/
def dropEntry (name : String) (entries : List (String × Node)) : List (String × Node) :=
  entries.filter fun e => e.1 != name

/-- The node at a place. -/
def at? : Node → Place → Option Node
  | node, [] => some node
  | .dir entries, name :: rest =>
    match entry? name entries with
    | some child => child.at? rest
    | none => none
  | _, _ :: _ => none

/-- Changes the entries of the directory at a place; nothing happens if none is there. -/
def mapDir (f : List (String × Node) → List (String × Node)) : Node → Place → Node
  | .dir entries, [] => .dir (f entries)
  | .dir entries, name :: rest =>
    match entry? name entries with
    | some child => .dir (setEntry name (mapDir f child rest) entries)
    | none => .dir entries
  | node, _ => node

/-- Puts a node into the directory at a place. -/
def insert (tree : Node) (place : Place) (name : String) (node : Node) : Node :=
  tree.mapDir (setEntry name node) place

/-- Removes a name from the directory at a place. -/
def remove (tree : Node) (place : Place) (name : String) : Node :=
  tree.mapDir (dropEntry name) place

mutual

/-- How many nodes a tree has. -/
def size : Node → Nat
  | .dir entries => sizeEntries entries + 1
  | _ => 1

def sizeEntries : List (String × Node) → Nat
  | [] => 0
  | (_, node) :: rest => node.size + sizeEntries rest

end

mutual

/-- The files of a tree with their paths below `base`, in order. -/
def files (base : String) : Node → List (String × Content)
  | .file content => [(base, content)]
  | .dir entries => filesOf base entries
  | .link _ => []

def filesOf (base : String) : List (String × Node) → List (String × Content)
  | [] => []
  | (name, node) :: rest =>
    node.files (if base.isEmpty then name else base ++ "/" ++ name) ++ filesOf base rest

end

end Node

/-- A file tree: the entries of its top directory. -/
abbrev FileTree := Node

/-- The tree without entries. -/
def FileTree.empty : FileTree := .dir []

end Homonym
