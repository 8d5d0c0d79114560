import Homonym.Json.Lexical

/-!
# Skimming JSON

`skim?` finds the end of a value without making anything of it. The open brackets are kept in a
list, so there is no limit to how deep they nest, and strings may hold halves of surrogate pairs.
-/

namespace Homonym.Json

/-- An open bracket. -/
inductive Frame where
  | array
  | object

/-- What comes next in a text that is skimmed. -/
inductive Expected where
  | value
  | name
  /-- A comma or a closing bracket. -/
  | more

/-- What follows a value at the front that holds no others. -/
def skimScalar? : List Char → Option (List Char)
  | 'n' :: 'u' :: 'l' :: 'l' :: rest => some rest
  | 't' :: 'r' :: 'u' :: 'e' :: rest => some rest
  | 'f' :: 'a' :: 'l' :: 's' :: 'e' :: rest => some rest
  | '"' :: rest => skimString? rest
  | text => (number? text).map Prod.snd

/-- What follows a name and its colon, where the inside of the name is at the front. -/
def skimName? (text : List Char) : Option (List Char) :=
  match skimString? text with
  | none => none
  | some rest =>
    match skipSpace rest with
    | ':' :: after => some after
    | _ => none

/-- What follows a value, some of which has been skimmed. The bound is on the number of steps. -/
def skimFrom? : Nat → Expected → List Frame → List Char → Option (List Char)
  | 0, _, _, _ => none
  | bound + 1, .value, frames, text =>
    match skipSpace text with
    | '[' :: rest =>
      match skipSpace rest with
      | ']' :: after => skimFrom? bound .more frames after
      | _ => skimFrom? bound .value (.array :: frames) rest
    | '\x7b' :: rest =>
      match skipSpace rest with
      | '\x7d' :: after => skimFrom? bound .more frames after
      | _ => skimFrom? bound .name (.object :: frames) rest
    | other =>
      match skimScalar? other with
      | none => none
      | some after => skimFrom? bound .more frames after
  | bound + 1, .name, frames, text =>
    match skipSpace text with
    | '"' :: rest =>
      match skimName? rest with
      | none => none
      | some after => skimFrom? bound .value frames after
    | _ => none
  | _ + 1, .more, [], text => some text
  | bound + 1, .more, .array :: frames, text =>
    match skipSpace text with
    | ',' :: rest => skimFrom? bound .value (.array :: frames) rest
    | ']' :: rest => skimFrom? bound .more frames rest
    | _ => none
  | bound + 1, .more, .object :: frames, text =>
    match skipSpace text with
    | ',' :: rest => skimFrom? bound .name (.object :: frames) rest
    | '\x7d' :: rest => skimFrom? bound .more frames rest
    | _ => none

/-- What follows a value at the front. Every step but the last takes a character, and a value and
what comes next are two steps. -/
def skim? (text : List Char) : Option (List Char) :=
  skimFrom? (2 * text.length + 2) .value [] text

end Homonym.Json
