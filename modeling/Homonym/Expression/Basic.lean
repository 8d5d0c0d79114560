/-!
# Regular expressions

An expression describes stretches of a text. A set of characters is a test on them; an assertion
(`Look`) asks something of the two characters around a place and takes none of them.

Expressions may nest at most `nestingLimit` deep, and written out with all repetitions they may take
at most `roomLimit`. The room of an expression is counted in bytes, by a rough measure in which a
character takes `stateRoom`.
-/

namespace Homonym

/-- A set of characters. -/
abbrev CharSet := Char → Bool

/-- What is asked of the characters before and behind a place. -/
abbrev Look := Option Char → Option Char → Bool

/-- A regular expression. -/
inductive Expression where
  /-- What takes nothing and asks for nothing. -/
  | nothing
  /-- One character of a set, and the room that the set takes. -/
  | one (set : CharSet) (room : Nat)
  | look (holds : Look)
  | group (inner : Expression)
  /-- Two or more expressions, one behind the other. -/
  | sequence (parts : List Expression)
  /-- One of some expressions. A set in brackets is a choice of one. -/
  | choice (branches : List Expression)
  /-- An expression some times over: at least, and at most if that is said. -/
  | repeated (inner : Expression) (least : Nat) (most : Option Nat)

namespace Expression

/-- How deep expressions may nest. -/
def nestingLimit : Nat := 250

/-- How much room an expression may take. -/
def roomLimit : Nat := 10485760

/-- The room of one state. -/
def stateRoom : Nat := 32

/-- The room of a bracket without a negation or a class in it. -/
def smallRoom : Nat := 48

/-- The room of almost all characters. -/
def wideRoom : Nat := 424

/-- The room of a class that is scattered over all scripts. -/
def scatteredRoom : Nat := 16000

/-- Expressions one behind the other. -/
def ofParts : List Expression → Expression
  | [] => .nothing
  | [part] => part
  | parts => .sequence parts

/-- One of some expressions. -/
def ofBranches : List Expression → Expression
  | [branch] => branch
  | branches => .choice branches

/-- The expression is what takes nothing and asks for nothing. -/
def isNothing : Expression → Bool
  | .nothing => true
  | _ => false

mutual

/-- How deep an expression nests. -/
def levels : Expression → Nat
  | .nothing => 0
  | .one _ _ => 0
  | .look _ => 0
  | .group inner => inner.levels + 1
  | .sequence parts => deepest parts + 1
  | .choice branches => deepest branches + 1
  | .repeated inner _ _ => inner.levels + 1

/-- How deep the deepest of some expressions nests. -/
def deepest : List Expression → Nat
  | [] => 0
  | part :: rest => max part.levels (deepest rest)

end

mutual

/-- The room of an expression. -/
def room : Expression → Nat
  | .nothing => 0
  | .one _ room => room
  | .look _ => stateRoom
  | .group inner => inner.room + 2 * stateRoom
  | .sequence parts => roomOf parts
  | .choice branches => roomOf branches + stateRoom
  | .repeated inner least most =>
    match most with
    | none => max least 1 * inner.room + 2 * stateRoom
    | some most => least * inner.room + (most - least) * (inner.room + stateRoom) + stateRoom

/-- The room of some expressions together. -/
def roomOf : List Expression → Nat
  | [] => 0
  | part :: rest => part.room + roomOf rest

end

/-- The expression keeps to the limits. -/
def isModest (e : Expression) : Bool :=
  e.levels ≤ nestingLimit && e.room ≤ roomLimit

end Expression

end Homonym
