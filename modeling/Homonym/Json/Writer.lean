import Homonym.Json.Basic

/-!
# Writing JSON

Two layouts. `compact` puts no blanks between tokens. `pretty` puts every element and member on a
line of its own, indented by two spaces per level; empty arrays and objects stay on one line.

In a string the quote, the backslash and the controls below U+0020 are escaped: five controls by a
letter, the others by four lower-case hexadecimal digits. Every other character stands for itself.
-/

namespace Homonym.Json

/-- The four lower-case hexadecimal digits of a number below 65536. -/
def hexDigits (n : Nat) : List Char :=
  [n / 4096 % 16, n / 256 % 16, n / 16 % 16, n % 16].map Nat.digitChar

/-- A character as it stands in a string. -/
def escape (c : Char) : List Char :=
  if c = '"' then ['\\', '"']
  else if c = '\\' then ['\\', '\\']
  else if c = '\n' then ['\\', 'n']
  else if c = '\r' then ['\\', 'r']
  else if c = '\t' then ['\\', 't']
  else if c = '\x08' then ['\\', 'b']
  else if c = '\x0c' then ['\\', 'f']
  else if c.toNat < 0x20 then '\\' :: 'u' :: hexDigits c.toNat
  else [c]

/-- A text in quotes. -/
def quoted (text : String) : List Char :=
  '"' :: (text.toList.flatMap escape ++ ['"'])

/-- The decimal text of an integer. -/
def intText : Int → List Char
  | .ofNat n => Nat.toDigits 10 n
  | .negSucc n => '-' :: Nat.toDigits 10 (n + 1)

mutual

/-- A value without any blanks between its tokens. -/
def compactText : Json → List Char
  | .null => ['n', 'u', 'l', 'l']
  | .bool true => ['t', 'r', 'u', 'e']
  | .bool false => ['f', 'a', 'l', 's', 'e']
  | .int n => intText n
  | .real literal => literal
  | .str text => quoted text
  | .arr elements => '[' :: (compactElements elements ++ [']'])
  | .obj members => '\x7b' :: (compactMembers members ++ ['\x7d'])
  | .raw literal => literal

def compactElements : List Json → List Char
  | [] => []
  | [element] => compactText element
  | element :: rest => compactText element ++ ',' :: compactElements rest

def compactMembers : List (String × Json) → List Char
  | [] => []
  | [(name, value)] => quoted name ++ ':' :: compactText value
  | (name, value) :: rest => quoted name ++ ':' :: (compactText value ++ ',' :: compactMembers rest)

end

/-- A line feed and the indentation of a level. -/
def newLine (level : Nat) : List Char :=
  '\n' :: List.replicate (2 * level) ' '

mutual

/-- A value laid out over lines, where its first line has the indentation of `level`. -/
def prettyText (level : Nat) : Json → List Char
  | .null => ['n', 'u', 'l', 'l']
  | .bool true => ['t', 'r', 'u', 'e']
  | .bool false => ['f', 'a', 'l', 's', 'e']
  | .int n => intText n
  | .real literal => literal
  | .str text => quoted text
  | .arr [] => ['[', ']']
  | .arr (element :: rest) =>
    '[' :: (newLine (level + 1) ++ prettyElements (level + 1) (element :: rest) ++
      newLine level ++ [']'])
  | .obj [] => ['\x7b', '\x7d']
  | .obj (member :: rest) =>
    '\x7b' :: (newLine (level + 1) ++ prettyMembers (level + 1) (member :: rest) ++
      newLine level ++ ['\x7d'])
  | .raw literal => literal

def prettyElements (level : Nat) : List Json → List Char
  | [] => []
  | [element] => prettyText level element
  | element :: rest =>
    prettyText level element ++ ',' :: (newLine level ++ prettyElements level rest)

def prettyMembers (level : Nat) : List (String × Json) → List Char
  | [] => []
  | [(name, value)] => quoted name ++ ':' :: ' ' :: prettyText level value
  | (name, value) :: rest =>
    quoted name ++ ':' :: ' ' :: (prettyText level value ++
      ',' :: (newLine level ++ prettyMembers level rest))

end

/-- A value as text without blanks. -/
def compact (value : Json) : String := String.ofList (compactText value)

/-- A value as indented text. -/
def pretty (value : Json) : String := String.ofList (prettyText 0 value)

end Homonym.Json
