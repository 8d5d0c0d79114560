import Homonym.Text.Hex
import Homonym.Text.Words

/-!
# The small pieces of TOML

Blanks, comments and line ends, the four forms of strings, and keys. Every reader looks at the front
of a text and gives what it read with what follows, or nothing if the text does not begin that way.
-/

namespace Homonym.Toml

open Text

/-! ## Blanks, comments and line ends -/

/-- A blank within a line. -/
def isBlank (c : Char) : Bool :=
  c == ' ' || c == '\t'

/-- The text from its first character that is no blank within a line. -/
def skipBlanks (text : List Char) : List Char :=
  text.dropWhile isBlank

/-- A character that may stand in a comment or, but for its marks, in a string. -/
def isPrintable (c : Char) : Bool :=
  c == '\t' || (0x20 ≤ c.toNat && c.toNat ≤ 0x7E) || 0x80 ≤ c.toNat

/-- What follows a line end. -/
def newline? : List Char → Option (List Char)
  | '\n' :: rest => some rest
  | '\r' :: '\n' :: rest => some rest
  | _ => none

/-- The text behind a comment, if it begins with one. -/
def skipComment : List Char → List Char
  | '#' :: rest => rest.dropWhile isPrintable
  | text => text

/-- What follows the end of a line: blanks and a comment, and then a line end or nothing. -/
def lineEnd? (text : List Char) : Option (List Char) :=
  match skipComment (skipBlanks text) with
  | [] => some []
  | rest => newline? rest

/-- The text from its first character that is neither a blank nor part of a line end or a comment.
The front may be inside a comment. -/
def skipTriviaFrom (inComment : Bool) : List Char → List Char
  | [] => []
  | '\r' :: '\n' :: rest => skipTriviaFrom false rest
  | c :: rest =>
    if c = '\n' then skipTriviaFrom false rest
    else if isBlank c || (inComment && isPrintable c) then skipTriviaFrom inComment rest
    else if c = '#' && !inComment then skipTriviaFrom true rest
    else c :: rest

/-- The text behind blanks, line ends and comments. -/
def skipTrivia (text : List Char) : List Char :=
  skipTriviaFrom false text

/-! ## Strings -/

/-- The number that hexadecimal digits stand for. -/
def hexNumber? (digits : List Char) : Option Nat :=
  digits.foldlM (fun n c => (hexValue? c).map (n * 16 + ·)) 0

/-- The character with a number, unless no character has it. -/
def charOf? (n : Nat) : Option Char :=
  if n.isValidChar then some (Char.ofNat n) else none

/-- The character that a backslash and a letter stand for. -/
def shortEscape? (c : Char) : Option Char :=
  match c with
  | 'b' => some '\x08'
  | 't' => some '\t'
  | 'n' => some '\n'
  | 'f' => some '\x0c'
  | 'r' => some '\r'
  | '"' => some '"'
  | '\\' => some '\\'
  | _ => none

/-- The character of an escape behind its backslash, and how many characters the escape takes. -/
def escape? (text : List Char) : Option (Char × Nat) :=
  match text with
  | [] => none
  | 'u' :: rest =>
    let digits := rest.take 4
    if digits.length < 4 then none else ((hexNumber? digits).bind charOf?).map (·, 5)
  | 'U' :: rest =>
    let digits := rest.take 8
    if digits.length < 8 then none else ((hexNumber? digits).bind charOf?).map (·, 9)
  | c :: _ => (shortEscape? c).map (·, 1)

/-- The text from its first character that is neither a blank nor part of a line end. -/
def skipBlankLines : List Char → List Char
  | [] => []
  | '\r' :: '\n' :: rest => skipBlankLines rest
  | c :: rest => if isBlank c || c == '\n' then skipBlankLines rest else c :: rest

/-- How many characters the rest of a line, its end and the blank lines after it take, when nothing
but blanks is left on the line. -/
def foldedLength? (text : List Char) : Option Nat :=
  (newline? (skipBlanks text)).map fun rest => text.length - (skipBlankLines rest).length

/-- The inside of a string in quotes. The first characters may have been taken already. -/
def basicBody : Nat → List Char → Option (List Char × List Char)
  | _, [] => none
  | taken + 1, _ :: rest => basicBody taken rest
  | 0, '"' :: rest => some ([], rest)
  | 0, '\\' :: rest =>
    match escape? rest with
    | none => none
    | some (c, taken) => (basicBody taken rest).map fun (s, after) => (c :: s, after)
  | 0, c :: rest =>
    if isPrintable c then (basicBody 0 rest).map fun (s, after) => (c :: s, after) else none

/-- The inside of a string in apostrophes. -/
def literalBody : List Char → Option (List Char × List Char)
  | [] => none
  | '\'' :: rest => some ([], rest)
  | c :: rest =>
    if isPrintable c then (literalBody rest).map fun (s, after) => (c :: s, after) else none

/-- The marks at the end of a string in tripled marks: up to two that belong to it, then three. -/
def closing? (mark : Char) (text : List Char) : Option (List Char × List Char) :=
  let run := (text.takeWhile (· == mark)).length
  if run < 3 then none
  else
    let kept := min (run - 3) 2
    some (List.replicate kept mark, text.drop (kept + 3))

/-- The inside of a string in tripled quotes. The first characters may have been taken already. -/
def tripleBasicBody : Nat → List Char → Option (List Char × List Char)
  | _, [] => none
  | taken + 1, _ :: rest => tripleBasicBody taken rest
  | 0, c :: rest =>
    match closing? '"' (c :: rest) with
    | some closed => some closed
    | none =>
      let onward (taken : Nat) (read : List Char) :=
        (tripleBasicBody taken rest).map fun (s, after) => (read ++ s, after)
      if c = '\\' then
        match escape? rest with
        | some (e, taken) => onward taken [e]
        | none =>
          match foldedLength? rest with
          | some taken => onward taken []
          | none => none
      else if c = '\n' then onward 0 ['\n']
      else if c = '\r' then
        if rest.head? = some '\n' then onward 1 ['\n'] else none
      else if isPrintable c then onward 0 [c]
      else none

/-- The inside of a string in tripled apostrophes. The first characters may have been taken
already. -/
def tripleLiteralBody : Nat → List Char → Option (List Char × List Char)
  | _, [] => none
  | taken + 1, _ :: rest => tripleLiteralBody taken rest
  | 0, c :: rest =>
    match closing? '\'' (c :: rest) with
    | some closed => some closed
    | none =>
      let onward (taken : Nat) (read : List Char) :=
        (tripleLiteralBody taken rest).map fun (s, after) => (read ++ s, after)
      if c = '\n' then onward 0 ['\n']
      else if c = '\r' then
        if rest.head? = some '\n' then onward 1 ['\n'] else none
      else if isPrintable c then onward 0 [c]
      else none

/-- The text without a line end at its front. -/
def dropNewline (text : List Char) : List Char :=
  (newline? text).getD text

/-- A string in single marks. -/
def lineString? : List Char → Option (List Char × List Char)
  | '"' :: rest => basicBody 0 rest
  | '\'' :: rest => literalBody rest
  | _ => none

/-- A string of any form. -/
def string? : List Char → Option (List Char × List Char)
  | '"' :: '"' :: '"' :: rest => tripleBasicBody 0 (dropNewline rest)
  | '\'' :: '\'' :: '\'' :: rest => tripleLiteralBody 0 (dropNewline rest)
  | text => lineString? text

/-! ## Keys -/

/-- A character of a key without marks. -/
def isKeyPart (c : Char) : Bool :=
  c.isAlphanum || c == '-' || c == '_'

/-- One part of a key. -/
def keyPart? (text : List Char) : Option (List Char × List Char) :=
  match lineString? text with
  | some found => some found
  | none =>
    match text.takeWhile isKeyPart with
    | [] => none
    | part => some (part, text.dropWhile isKeyPart)

/-- The parts of a key, with dots between them and blanks around them. The bound is the number of
parts that are left to be read. -/
def keyParts? : Nat → List Char → Option (List String × List Char)
  | 0, _ => none
  | bound + 1, text =>
    match keyPart? (skipBlanks text) with
    | none => none
    | some (part, rest) =>
      match skipBlanks rest with
      | '.' :: more =>
        (keyParts? bound more).map fun (parts, after) => (String.ofList part :: parts, after)
      | after => some ([String.ofList part], after)

/-- How many parts a key has at most, and how deep values may nest. -/
def depthLimit : Nat := 79

/-- A key: the tables it leads through and its last part. -/
def key? (text : List Char) : Option (List String × String × List Char) :=
  match keyParts? depthLimit text with
  | none => none
  | some (parts, rest) =>
    match parts.getLast? with
    | none => none
    | some last => some (parts.dropLast, last, rest)

end Homonym.Toml
