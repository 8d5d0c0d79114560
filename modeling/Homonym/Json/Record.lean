import Homonym.Json.Basic

/-!
# Reading records from JSON

A record is written as an object, or as an array of its fields in order. In an object unknown names
are passed over and a name given twice makes the record unreadable; in an array every field has its
place and there may be none too many. Numbers are never converted: a field that holds a natural
number takes an integer literal between 0 and `intMax` and nothing else.
-/

namespace Homonym.Json

/-- A truth value. -/
def bool? : Json → Option Bool
  | .bool b => some b
  | _ => none

/-- A text. -/
def string? : Json → Option String
  | .str s => some s
  | _ => none

/-- A text or null. -/
def optional? : Json → Option (Option String)
  | .str s => some (some s)
  | .null => some none
  | _ => none

/-- A signed word of 64 bits. -/
def int64? : Json → Option Int64
  | .int n => if Int64.minValue.toInt ≤ n ∧ n ≤ Int64.maxValue.toInt then some (.ofInt n) else none
  | _ => none

/-- A natural number. -/
def nat? : Json → Option Nat
  | .int n => if 0 ≤ n then some n.toNat else none
  | _ => none

/-- An array with every element read. -/
def list? {α : Type} (read? : Json → Option α) : Json → Option (List α)
  | .arr elements => elements.mapM read?
  | _ => none

/-- One of a fixed set of names, given as a text, or as an object whose only member has that name
and the value null. -/
def variant? {α : Type} (named? : String → Option α) : Json → Option α
  | .str s => named? s
  | .obj [(name, .null)] => named? name
  | _ => none

/-- The fields of a record as they are written. -/
inductive Fields where
  | named (members : List (String × Json))
  | placed (elements : List Json)

/-- The fields of a record with `count` fields. -/
def fields? (count : Nat) : Json → Option Fields
  | .obj members => some (.named members)
  | .arr elements => if elements.length ≤ count then some (.placed elements) else none
  | _ => none

/-- The values of the members with one of some names. -/
def valuesNamed (names : List String) (members : List (String × Json)) : List Json :=
  members.filterMap fun (key, value) => if key ∈ names then some value else none

/-- A field that has to be there, by its name and place. -/
def Fields.get? {α : Type} (fields : Fields) (name : String) (place : Nat)
    (read? : Json → Option α) : Option α :=
  match fields with
  | .named members =>
    match valuesNamed [name] members with
    | [value] => read? value
    | _ => none
  | .placed elements => elements[place]?.bind read?

/-- A field that takes a default where an object does not name it. -/
def Fields.getOr? {α : Type} (fields : Fields) (name : String) (place : Nat)
    (read? : Json → Option α) (default : α) : Option α :=
  match fields with
  | .named members =>
    match valuesNamed [name] members with
    | [] => some default
    | [value] => read? value
    | _ => none
  | .placed elements => elements[place]?.bind read?

/-- A field that takes a default wherever it is missing, and may go by several names. -/
def Fields.getElse? {α : Type} (fields : Fields) (names : List String) (place : Nat)
    (read? : Json → Option α) (default : α) : Option α :=
  match fields with
  | .named members =>
    match valuesNamed names members with
    | [] => some default
    | [value] => read? value
    | _ => none
  | .placed elements =>
    match elements[place]? with
    | none => some default
    | some value => read? value

end Homonym.Json
