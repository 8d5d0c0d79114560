/-!
# JSON values

A value keeps the order of an object's members and repeated names, so that a reader of records can
decide what a repetition means. An integer literal whose value lies between the least signed and
the greatest unsigned 64-bit number is an `int`; every other number literal, `-0` among them, is a
`real` and keeps its text. A value that cannot be represented is `raw` and keeps its text as well.
-/

namespace Homonym

/-- A JSON value. -/
inductive Json where
  | null
  | bool (value : Bool)
  | int (value : Int)
  | real (literal : List Char)
  | str (text : String)
  | arr (elements : List Json)
  | obj (members : List (String × Json))
  | raw (literal : List Char)

namespace Json

/-- The least integer that an integer literal stands for. -/
def intMin : Int := -9223372036854775808

/-- The greatest integer that an integer literal stands for. -/
def intMax : Int := 18446744073709551615

/-- A natural number as a value. -/
def nat (n : Nat) : Json := .int n

/-- A text, or null in its absence. -/
def optional (text : Option String) : Json :=
  match text with
  | some t => .str t
  | none => .null

mutual

/-- Some part of the value is kept raw. -/
def holdsRaw : Json → Bool
  | .raw _ => true
  | .arr elements => elementsHoldRaw elements
  | .obj members => membersHoldRaw members
  | _ => false

def elementsHoldRaw : List Json → Bool
  | [] => false
  | element :: rest => element.holdsRaw || elementsHoldRaw rest

def membersHoldRaw : List (String × Json) → Bool
  | [] => false
  | (_, value) :: rest => value.holdsRaw || membersHoldRaw rest

end

/-- The value of the last member with a given name. -/
def lastNamed? (name : String) : List (String × Json) → Option Json
  | [] => none
  | (key, value) :: rest =>
    match lastNamed? name rest with
    | some found => some found
    | none => if key = name then some value else none

end Json

end Homonym
