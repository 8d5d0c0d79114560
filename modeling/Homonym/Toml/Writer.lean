/-!
# Writing TOML values

A text is written in the plainest of five forms that can hold it: in quotes, in apostrophes, in
tripled quotes, in tripled apostrophes, and in quotes with escapes. Apostrophes hold a text as it
is; quotes need escapes for some characters.
-/

namespace Homonym.Toml

/-- A control that no text holds raw: all but the tab and the line feed. -/
def isControl (c : Char) : Bool :=
  (c.toNat < 0x20 && c != '\t' && c != '\n') || c.toNat == 0x7F

/-- The text has three of a character in a row. -/
def hasTriple (q : Char) : List Char → Bool
  | a :: b :: c :: rest => (a == q && b == q && c == q) || hasTriple q (b :: c :: rest)
  | _ => false

/-- The upper-case hexadecimal digit of a number below sixteen. -/
def hexDigit (n : Nat) : Char :=
  (Nat.digitChar n).toUpper

/-- A character between quotes, apart from the quote and the line feed. -/
def escape (c : Char) : List Char :=
  if c = '\\' then ['\\', '\\']
  else if c = '\t' then ['\\', 't']
  else if c = '\x08' then ['\\', 'b']
  else if c = '\x0c' then ['\\', 'f']
  else if c = '\r' then ['\\', 'r']
  else if isControl c then
    ['\\', 'u', '0', '0', hexDigit (c.toNat / 16 % 16), hexDigit (c.toNat % 16)]
  else [c]

/-- A text between single quotes, where quotes and line feeds are escaped too. -/
def singleBody (text : List Char) : List Char :=
  text.flatMap fun c =>
    if c = '"' then ['\\', '"'] else if c = '\n' then ['\\', 'n'] else escape c

/-- A text between tripled quotes, where of a run of quotes every third is escaped. `run` counts the
quotes before the text that stand raw. -/
def tripleBody : Nat → List Char → List Char
  | _, [] => []
  | run, c :: rest =>
    if c = '"' then
      if run = 2 then '\\' :: '"' :: tripleBody 0 rest else '"' :: tripleBody (run + 1) rest
    else if c = '\n' then '\n' :: tripleBody 0 rest
    else escape c ++ tripleBody 0 rest

/-- A text between tripled marks. One with line feeds begins on a line of its own. -/
def tripled (mark : Char) (multiline : Bool) (body : List Char) : List Char :=
  [mark, mark, mark] ++ (if multiline then ['\n'] else []) ++ body ++ [mark, mark, mark]

/-- A text as a value. -/
def textChars (text : List Char) : List Char :=
  let multiline := text.contains '\n'
  let controls := text.any isControl
  if !(controls || text.contains '\\' || text.contains '"' || multiline) then
    '"' :: (singleBody text ++ ['"'])
  else if !(controls || text.contains '\'' || multiline) then
    '\'' :: (text ++ ['\''])
  else if !(controls || text.contains '\\' || hasTriple '"' text) then
    tripled '"' multiline (tripleBody 0 text)
  else if !(controls || hasTriple '\'' text) then
    tripled '\'' multiline text
  else if multiline then tripled '"' true (tripleBody 0 text)
  else '"' :: (singleBody text ++ ['"'])

/-- A text as a value. -/
def text (s : String) : String :=
  String.ofList (textChars s.toList)

/-- A truth value. -/
def bool (b : Bool) : String :=
  if b then "true" else "false"

/-- A list of texts: on one line up to one element, and else one element per line. -/
def texts : List String → String
  | [] => "[]"
  | [s] => "[" ++ text s ++ "]"
  | all => "[\n" ++ String.join (all.map fun s => "    " ++ text s ++ ",\n") ++ "]"

/-- A key with its value, on a line. -/
def entry (key value : String) : String :=
  key ++ " = " ++ value ++ "\n"

end Homonym.Toml
