import Homonym.Toml.Number
import Homonym.Toml.Table

/-!
# Reading TOML

`parse?` reads a whole text as one dictionary. It is read by lines: blank lines and comments,
headers of tables, and keys with values. Arrays may go over several lines, tables in braces may
not.

The readers of values carry a bound on the number of calls and one on the depth of nesting. `parse?`
sets the first to the length of the text, which no run can use up, since every call consumes a
character.
-/

namespace Homonym.Toml

open Text

/-- A truth value. -/
def bool? : List Char → Option (Value × List Char)
  | 't' :: 'r' :: 'u' :: 'e' :: rest => some (.bool true, rest)
  | 'f' :: 'a' :: 'l' :: 's' :: 'e' :: rest => some (.bool false, rest)
  | _ => none

/-- A value that is neither an array nor a table. -/
def scalar? (text : List Char) : Option (Value × List Char) :=
  match string? text with
  | some (s, rest) => some (.str (String.ofList s), rest)
  | none =>
    match bool? text with
    | some found => some found
    | none => number? text

mutual

/-- A value at the front. -/
def value? : Nat → Nat → List Char → Option (Value × List Char)
  | 0, _, _ => none
  | fuel + 1, depth, text =>
    match text with
    | '[' :: rest =>
      if depth = 0 then none
      else (elements? fuel (depth - 1) (skipTrivia rest)).map fun (es, after) => (.arr es, after)
    | '\x7b' :: rest =>
      if depth = 0 then none
      else
        match skipBlanks rest with
        | '\x7d' :: after => some (.dict [], after)
        | _ =>
          (members? fuel (depth - 1) [] rest).map fun (entries, after) =>
            (.dict (valuesOf entries), after)
    | _ => scalar? text

/-- The elements of an array up to its closing bracket. -/
def elements? : Nat → Nat → List Char → Option (List Value × List Char)
  | 0, _, _ => none
  | fuel + 1, depth, text =>
    match text with
    | ']' :: after => some ([], after)
    | _ =>
      match value? fuel depth text with
      | none => none
      | some (element, rest) =>
        match skipTrivia rest with
        | ',' :: more =>
          (elements? fuel depth (skipTrivia more)).map fun (es, after) => (element :: es, after)
        | ']' :: after => some ([element], after)
        | _ => none

/-- The members of a table in braces up to its closing brace, added to those read before. -/
def members? : Nat → Nat → Entries → List Char → Option (Entries × List Char)
  | 0, _, _, _ => none
  | fuel + 1, depth, entries, text =>
    match key? text with
    | some (path, key, '=' :: valueText) =>
      match value? fuel depth (skipBlanks valueText) with
      | none => none
      | some (value, rest) =>
        match addValue path key value .stated entries with
        | none => none
        | some extended =>
          match skipBlanks rest with
          | ',' :: more => members? fuel depth extended more
          | '\x7d' :: after => some (extended, after)
          | _ => none
    | _ => none

end

/-- A header up to the end of its line: whether it begins an element of an array of tables, and its
key. -/
def header? (text : List Char) : Option (Bool × List String × String × List Char) :=
  match text with
  | '[' :: '[' :: rest =>
    match key? rest with
    | some (path, key, ']' :: ']' :: after) => (lineEnd? after).map (true, path, key, ·)
    | _ => none
  | '[' :: rest =>
    match key? rest with
    | some (path, key, ']' :: after) => (lineEnd? after).map (false, path, key, ·)
    | _ => none
  | _ => none

/-- A key with its value up to the end of the line. The bound is on the number of calls. -/
def keyValue? (bound : Nat) (text : List Char) :
    Option (List String × String × Value × List Char) :=
  match key? text with
  | some (path, key, '=' :: valueText) =>
    match value? bound depthLimit (skipBlanks valueText) with
    | none => none
    | some (value, rest) => (lineEnd? rest).map (path, key, value, ·)
  | _ => none

/-- Reads the lines of a text into a table, under the last header. The bound is on the number of
lines and on the number of calls for each of them. -/
def lines? : Nat → List String → Entries → List Char → Option Entries
  | 0, _, _, _ => none
  | bound + 1, under, root, text =>
    match skipBlanks text with
    | [] => some root
    | '[' :: rest =>
      match header? ('[' :: rest) with
      | none => none
      | some (isElement, path, key, after) =>
        match (if isElement then stateElement else stateTable) path key root with
        | none => none
        | some next => lines? bound (path ++ [key]) next after
    | c :: rest =>
      if c = '#' ∨ c = '\n' ∨ c = '\r' then
        match lineEnd? (c :: rest) with
        | none => none
        | some after => lines? bound under root after
      else
        match keyValue? bound (c :: rest) with
        | none => none
        | some (path, key, value, after) =>
          match addUnder under path key value root with
          | none => none
          | some next => lines? bound under next after

/-- A text without the byte order mark at its front. -/
def dropMark : List Char → List Char
  | '\uFEFF' :: rest => rest
  | text => text

/-- Reads a whole text. -/
def parse? (text : List Char) : Option (List (String × Value)) :=
  (lines? (text.length + 1) [] [] (dropMark text)).map valuesOf

end Homonym.Toml
