import Homonym.FileTree.Basic
import Homonym.Path

/-!
# Where a path leads

`resolve` follows a path from the top of a tree, through links. It ends at a place where something
is, or at a vacant name in a directory that is there. A path may pass through at most `linkLimit`
links. Where a file is to be made, no slash may stand behind the last name, neither in the path nor
in the target of a link that the name is. Names and paths have a greatest length, and no path holds
the null character.

The tree is all there is: nothing lies at an absolute path, and above the top is the top itself.
-/

namespace Homonym

/-- How many links one path may pass through. -/
def linkLimit : Nat := 40

/-- How many bytes a name may have. -/
def nameLimit : Nat := 255

/-- How many bytes a path may have. -/
def pathLimit : Nat := 4095

/-- Why a text leads nowhere, whatever the tree. -/
def pathRefusal? (path : String) : Option OsError :=
  if path.toList.contains '\x00' then some .nullInPath
  else if pathLimit < path.utf8ByteSize then some .nameTooLong
  else if path.isEmpty then some .notFound
  else none

/-- One move through a tree. -/
inductive Move where
  /-- The empty piece behind a slash: what is before it must be a directory. -/
  | gap
  | stay
  | up
  | down (name : String)
deriving DecidableEq

/-- The move of a piece of a path. -/
def Move.ofPiece (p : Path.Piece) : Move :=
  if p = [] then .gap
  else if p = ['.'] then .stay
  else if p = ['.', '.'] then .up
  else .down (String.ofList p)

/-- The move is the empty piece behind a slash. -/
def Move.isGap : Move → Bool
  | .gap => true
  | _ => false

/-- The moves of a relative path. -/
def moves (path : String) : List Move :=
  (Path.split path.toList).map Move.ofPiece

/-- Where a path leads: to a node, or to a name that is free in a directory. -/
inductive Spot where
  | found (place : Place)
  | vacant (dir : Place) (name : String)
deriving DecidableEq

namespace FileTree

/-- Why a path is followed: to look at what is there, or to make a file there. -/
inductive Purpose where
  | look
  | make
deriving DecidableEq

/-- The name is the last one, and a slash behind it says that no file can be made there. -/
def Purpose.isBarred (purpose : Purpose) (rest : List Move) : Bool :=
  purpose == .make && !rest.isEmpty && rest.all Move.isGap

/-- Follows moves from a place, through at most `links` links. -/
def follow (tree : FileTree) (purpose : Purpose) (links : Nat) (place : Place) :
    List Move → Except OsError Spot
  | [] => .ok (.found place)
  | move :: rest =>
    match tree.at? place with
    | some (.dir entries) =>
      match move with
      | .gap => follow tree purpose links place rest
      | .stay => follow tree purpose links place rest
      | .up => follow tree purpose links place.dropLast rest
      | .down name =>
        if purpose.isBarred rest then .error .isADirectory
        else if nameLimit < name.utf8ByteSize then .error .nameTooLong
        else
          match Node.entry? name entries with
          | none => if rest.isEmpty then .ok (.vacant place name) else .error .notFound
          | some (.link target) =>
            match links with
            | 0 => .error .linkLoop
            | left + 1 =>
              if Path.isAbsolute target then .error .notFound
              else follow tree purpose left place (moves target ++ rest)
          | some _ => follow tree purpose links (place ++ [name]) rest
    | _ => .error .notADirectory
termination_by list => (links, list.length)

/-- Where a path leads. -/
def resolve (tree : FileTree) (purpose : Purpose) (path : String) : Except OsError Spot :=
  match pathRefusal? path with
  | some e => .error e
  | none =>
    if Path.isAbsolute path then .error .notFound
    else follow tree purpose linkLimit [] (moves path)

/-- The node that a path leads to. -/
def lookup (tree : FileTree) (path : String) : Except OsError Node :=
  match tree.resolve .look path with
  | .error e => .error e
  | .ok (.vacant _ _) => .error .notFound
  | .ok (.found place) =>
    match tree.at? place with
    | some node => .ok node
    | none => .error .notFound

/-- The directory that holds the last piece of a path, and that piece as a move. The last piece
itself is not followed. -/
def resolveParent (tree : FileTree) (path : String) : Except OsError (Place × Move) :=
  match pathRefusal? path with
  | some e => .error e
  | none =>
    if Path.isAbsolute path then .error .notFound
    else
      let all := moves path
      match follow tree .look linkLimit [] all.dropLast with
      | .error e => .error e
      | .ok (.vacant _ _) => .error .notFound
      | .ok (.found place) =>
        match tree.at? place, all.getLast?.getD .stay with
        | some (.dir _), .down name =>
          if nameLimit < name.utf8ByteSize then .error .nameTooLong else .ok (place, .down name)
        | some (.dir _), move => .ok (place, move)
        | _, _ => .error .notADirectory

/-- The node that a path names. Unlike `lookup` this does not follow a link that is the last
piece. -/
def named (tree : FileTree) (path : String) : Except OsError Node :=
  match tree.resolveParent path with
  | .error e => .error e
  | .ok (place, .down name) =>
    match tree.at? (place ++ [name]) with
    | some node => .ok node
    | none => .error .notFound
  | .ok _ => tree.lookup path

/-- The path leads to something. -/
def pathExists (tree : FileTree) (path : String) : Bool :=
  match tree.lookup path with
  | .ok _ => true
  | .error _ => false

/-- The path leads to a directory. -/
def isDir (tree : FileTree) (path : String) : Bool :=
  match tree.lookup path with
  | .ok node => node.isDir
  | .error _ => false

/-- The path leads to a file. -/
def isFile (tree : FileTree) (path : String) : Bool :=
  match tree.lookup path with
  | .ok (.file _) => true
  | _ => false

/-- What the file at a path holds. -/
def read (tree : FileTree) (path : String) : Except OsError Content :=
  match tree.lookup path with
  | .error e => .error e
  | .ok (.file content) => .ok content
  | .ok _ => .error .isADirectory

/-- The text of the file at a path. -/
def readText (tree : FileTree) (path : String) : Except IoError String :=
  match tree.read path with
  | .error e => .error e.toIoError
  | .ok (.text text) => .ok text
  | .ok (.bytes _) =>
    .error { kind := .invalidData, message := "stream did not contain valid UTF-8" }

end FileTree

end Homonym
