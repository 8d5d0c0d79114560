import Homonym.Text.Split

/-!
# Paths

A path is a text whose pieces are divided by slashes. Its components leave out what does not change
where it leads: empty pieces and dots, except a dot at the very front. `relative` takes the
components of a root off the front of a path, and `join` puts a name behind a path.

Functions that cut a path keep the text of what remains as it is, but for empty pieces and dots at
the cut ends.
-/

namespace Homonym.Path

/-- A piece of a path. -/
abbrev Piece := List Char

/-- The pieces of a path. -/
def split (path : List Char) : List Piece :=
  Text.splitAt '/' path

/-- Pieces with slashes between them. -/
def unsplit : List Piece → List Char
  | [] => []
  | [p] => p
  | p :: rest => p ++ '/' :: unsplit rest

/-- One step of a path. -/
inductive Component where
  | root
  | here
  | up
  | name (text : String)
deriving DecidableEq

/-- The piece is empty or a dot. -/
def isVoid (p : Piece) : Bool :=
  p == [] || p == ['.']

/-- The component of a piece that is not at the front. -/
def Component.ofPiece? (p : Piece) : Option Component :=
  if isVoid p then none
  else if p = ['.', '.'] then some .up
  else some (.name (String.ofList p))

/-- How a path begins. -/
inductive Lead where
  | plain
  | root
  | here
deriving DecidableEq

/-- A path as its beginning and the pieces behind it. -/
structure View where
  lead : Lead
  body : List Piece

/-- The view of a path. -/
def view (path : List Char) : View :=
  match split path with
  | [] :: p :: rest => ⟨.root, p :: rest⟩
  | ['.'] :: rest => ⟨.here, rest⟩
  | pieces => ⟨.plain, pieces⟩

/-- The text of a view. -/
def View.text (v : View) : List Char :=
  match v.lead with
  | .plain => unsplit v.body
  | .root => '/' :: unsplit v.body
  | .here => unsplit (['.'] :: v.body)

/-- The component that a beginning stands for. -/
def Lead.components : Lead → List Component
  | .plain => []
  | .root => [.root]
  | .here => [.here]

/-- The components of a path. -/
def components (path : String) : List Component :=
  let v := view path.toList
  v.lead.components ++ v.body.filterMap Component.ofPiece?

/-- Two paths have the same components. -/
def same (a b : String) : Bool :=
  components a == components b

/-- The path begins at the root of all paths. -/
def isAbsolute (path : String) : Bool :=
  path.toList.head? == some '/'

/-- Pieces without void ones at their front. -/
def dropVoid (pieces : List Piece) : List Piece :=
  pieces.dropWhile isVoid

/-- Pieces without void ones at their end. -/
def dropVoidEnd (pieces : List Piece) : List Piece :=
  (pieces.reverse.dropWhile isVoid).reverse

/-- Takes components off the front of some pieces. -/
def takeOff : List Component → List Piece → Option (List Piece)
  | [], pieces => some pieces
  | _ :: _, [] => none
  | c :: rest, p :: pieces =>
    match Component.ofPiece? p with
    | none => takeOff (c :: rest) pieces
    | some d => if d = c then takeOff rest pieces else none

/-- What of a path is left behind the components of a root. -/
def behind? (root path : String) : Option String :=
  let v := view path.toList
  match components root with
  | [] => some (String.ofList (View.text { v with body := dropVoidEnd v.body }))
  | c :: rest =>
    let remaining :=
      match v.lead.components with
      | [] => takeOff (c :: rest) v.body
      | d :: _ => if d = c then takeOff rest v.body else none
    remaining.map fun pieces => String.ofList (unsplit (dropVoidEnd (dropVoid pieces)))

/-- A path as seen from a root; the path itself if it does not begin with the root. Paths are text
here. One that is no text would be shown with what cannot be read replaced (`Text.decodeLossy`),
which leaves text as it is. -/
def relative (root path : String) : String :=
  (behind? root path).getD path

/-- A path with another one behind it. -/
def join (base path : String) : String :=
  if isAbsolute path || base.isEmpty then path
  else if base.toList.getLast? == some '/' then base ++ path
  else base ++ "/" ++ path

/-- The path without its last component. -/
def parent? (path : String) : Option String :=
  let v := view path.toList
  match dropVoidEnd v.body with
  | [] =>
    match v.lead with
    | .here => some ""
    | _ => none
  | pieces =>
    some (String.ofList (View.text { v with body := dropVoidEnd pieces.dropLast }))

/-- At most so many paths above a path, nearest first. -/
def ancestorsWithin : Nat → String → List String
  | 0, _ => []
  | bound + 1, path =>
    match parent? path with
    | none => []
    | some above => above :: ancestorsWithin bound above

/-- The paths above a path, nearest first. Each is shorter than the one before, so the length of the
path bounds their number. -/
def ancestors (path : String) : List String :=
  ancestorsWithin (path.length + 1) path

/-- The last component of a path, if it is a name. -/
def fileName? (path : String) : Option String :=
  match (components path).getLast? with
  | some (.name n) => some n
  | _ => none

/-- The part of a name behind its last dot, unless that dot is at the front. -/
def extension? (path : String) : Option String :=
  match fileName? path with
  | none => none
  | some name =>
    let ending := name.toList.reverse.takeWhile (· != '.')
    let stem := name.toList.reverse.drop (ending.length + 1)
    if stem.isEmpty then none else some (String.ofList ending.reverse)

end Homonym.Path
