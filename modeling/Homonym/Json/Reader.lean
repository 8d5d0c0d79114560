import Homonym.Json.Skim

/-!
# Reading JSON

`read?` reads a whole text as one value, by the grammar of the format: blanks are space, tab, line
feed and carriage return, nothing follows the value, and strings hold no raw controls. What cannot
be represented is kept raw: a string with half of a surrogate pair, an object with such a name,
and arrays and objects that nest more than `nestingLimit` deep. `parse?` accepts only texts of
which nothing is kept raw.

The readers work on the front of a text and give what follows. Those that call each other carry a
bound on the number of calls; `read?` sets it to the length of the text, which no run can use up,
since every call consumes a character.
-/

namespace Homonym.Json

/-- How deep arrays and objects may nest. -/
def nestingLimit : Nat := 127

/-- A value at the front that is kept as it is written. -/
def raw? (text : List Char) : Option (Json × List Char) :=
  match skim? text with
  | none => none
  | some rest => some (.raw (text.take (text.length - rest.length)), rest)

mutual

/-- A value at the front, after blanks, which is kept raw if it cannot be represented. -/
def value? : Nat → Nat → List Char → Option (Json × List Char)
  | 0, _, _ => none
  | fuel + 1, depth, text =>
    let found : Option (Json × List Char) :=
      match skipSpace text with
      | 'n' :: 'u' :: 'l' :: 'l' :: rest => some (.null, rest)
      | 't' :: 'r' :: 'u' :: 'e' :: rest => some (.bool true, rest)
      | 'f' :: 'a' :: 'l' :: 's' :: 'e' :: rest => some (.bool false, rest)
      | '"' :: rest => (stringBody? rest).map fun (s, after) => (.str (String.ofList s), after)
      | '[' :: rest =>
        if depth = 0 then none
        else
          match skipSpace rest with
          | ']' :: after => some (.arr [], after)
          | _ => (elements? fuel (depth - 1) rest).map fun (es, after) => (.arr es, after)
      | '\x7b' :: rest =>
        if depth = 0 then none
        else
          match skipSpace rest with
          | '\x7d' :: after => some (.obj [], after)
          | _ => (members? fuel (depth - 1) rest).map fun (ms, after) => (.obj ms, after)
      | other => number? other
    match found with
    | some result => some result
    | none => raw? (skipSpace text)

/-- The elements of an array up to its closing bracket. -/
def elements? : Nat → Nat → List Char → Option (List Json × List Char)
  | 0, _, _ => none
  | fuel + 1, depth, text =>
    match value? fuel depth text with
    | none => none
    | some (element, rest) =>
      match skipSpace rest with
      | ',' :: more => (elements? fuel depth more).map fun (es, after) => (element :: es, after)
      | ']' :: after => some ([element], after)
      | _ => none

/-- The members of an object up to its closing brace. -/
def members? : Nat → Nat → List Char → Option (List (String × Json) × List Char)
  | 0, _, _ => none
  | fuel + 1, depth, text =>
    match skipSpace text with
    | '"' :: nameText =>
      match stringBody? nameText with
      | none => none
      | some (name, afterName) =>
        match skipSpace afterName with
        | ':' :: valueText =>
          match value? fuel depth valueText with
          | none => none
          | some (value, rest) =>
            match skipSpace rest with
            | ',' :: more =>
              (members? fuel depth more).map fun (ms, after) =>
                ((String.ofList name, value) :: ms, after)
            | '\x7d' :: after => some ([(String.ofList name, value)], after)
            | _ => none
        | _ => none
    | _ => none

end

/-- Reads a whole text as one value, of which parts may be kept raw. -/
def read? (text : List Char) : Option Json :=
  match value? (text.length + 1) nestingLimit text with
  | some (value, rest) => if (skipSpace rest).isEmpty then some value else none
  | none => none

/-- Reads a whole text as one value. -/
def parse? (text : List Char) : Option Json :=
  match read? text with
  | some value => if value.holdsRaw then none else some value
  | none => none

end Homonym.Json
