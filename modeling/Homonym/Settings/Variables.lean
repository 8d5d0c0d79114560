import Homonym.Text.Blank
import Homonym.Toml.Lexical
import Homonym.Value

/-!
# Settings in environment variables

A variable whose name begins with `NAMEDUPE_`, in any case, holds a setting. The rest of the name,
in lower case and without blanks at its ends, is its key; two underscores or a dot lead into a
dictionary. Its text is read as a value: a truth value, a number, a text in quotes, a character in
apostrophes, a list in brackets or a dictionary in braces. A text that is none of these in full
stands for itself.
-/

namespace Homonym.Variables

open Text

/-- What the names of the variables begin with. -/
def nameLead : List Char := "NAMEDUPE_".toList

/-! ## Names -/

/-- A text in lower case, as far as ASCII goes. -/
def lower (text : List Char) : List Char :=
  text.map Char.toLower

/-- The pieces of a text between dots. -/
def splitDots : List Char → List (List Char)
  | [] => [[]]
  | '.' :: rest => [] :: splitDots rest
  | c :: rest =>
    match splitDots rest with
    | [] => [[c]]
    | piece :: more => (c :: piece) :: more

/-- A text with a dot for every two underscores. -/
def dotted : List Char → List Char
  | '_' :: '_' :: rest => '.' :: dotted rest
  | c :: rest => c :: dotted rest
  | [] => []

/-- The keys that the name of a variable leads through, if it holds a setting. -/
def keys? (name : String) : Option (List String) :=
  match after? (lower nameLead) (lower name.toList) with
  | none => none
  | some rest =>
    let pieces := splitDots (trim (dotted rest))
    if pieces.any List.isEmpty then none else some (pieces.map String.ofList)

/-! ## Values -/

/-- A blank between the parts of a value. -/
def isSpace (c : Char) : Bool :=
  c == ' ' || c == '\t' || c == '\n' || c == '\r' || c == '\x0c'

/-- The text from its first character that is no blank between parts. -/
def skipSpace (text : List Char) : List Char :=
  text.dropWhile isSpace

/-- A character that a word may hold: one that does not divide or enclose values. -/
def isWordChar (c : Char) : Bool :=
  !(c == ',' || c == '\x7b' || c == '\x7d' || c == '[' || c == ']')

/-- A sign, if there is one, and what follows. -/
def unsigned : List Char → List Char
  | '+' :: rest => rest
  | '-' :: rest => rest
  | text => text

/-- The digits of an exponent are all that is left, or nothing is. -/
def isExponent : List Char → Bool
  | [] => true
  | c :: rest =>
    let digits := unsigned rest
    (c == 'e' || c == 'E') && !digits.isEmpty && digits.all Char.isDigit

/-- A decimal number with a point. Digits may be missing on one side of it. -/
def isDecimal (text : List Char) : Bool :=
  let number := unsigned text
  let whole := number.takeWhile Char.isDigit
  match number.dropWhile Char.isDigit with
  | '.' :: rest =>
    !(whole.isEmpty && (rest.takeWhile Char.isDigit).isEmpty) &&
      isExponent (rest.dropWhile Char.isDigit)
  | _ => false

/-- An integer in the range of the 64-bit words. -/
def integer? (text : List Char) : Option Int :=
  let digits := unsigned text
  if digits.isEmpty || !digits.all Char.isDigit then none
  else
    let n : Int := Nat.ofDigitChars 10 digits 0
    if text.head? == some '-' then if n ≤ 9223372036854775808 then some (-n) else none
    else if n ≤ 18446744073709551615 then some n
    else none

/-- The value of a word. -/
def word (text : List Char) : Value :=
  if isDecimal text then .real
  else
    match integer? text with
    | some n => .int n
    | none => .str (String.ofList text)

/-- The longest front of a text that has at most so many bytes. -/
def frontOfBytes : Nat → List Char → List Char
  | _, [] => []
  | size, c :: rest => if c.utf8Size ≤ size then c :: frontOfBytes (size - c.utf8Size) rest else []

/-- A text in quotes whose inside is at the front, with escapes resolved. What stands before the
first escape is cut to as many bytes as it has characters. -/
def quoted? (text : List Char) : Option (List Char × List Char) :=
  match Toml.basicBody 0 text with
  | none => none
  | some (found, after) =>
    let front := text.takeWhile fun c => c != '\\' && c != '"'
    if (text.drop front.length).head? == some '\\' then
      some (frontOfBytes front.length front ++ found.drop front.length, after)
    else some (found, after)

/-- A key of a dictionary. -/
def key? (text : List Char) : Option (List Char × List Char) :=
  match text with
  | '"' :: rest => quoted? rest
  | _ =>
    match text.takeWhile Toml.isKeyPart with
    | [] => none
    | key => some (key, text.dropWhile Toml.isKeyPart)

mutual

/-- A value at the front, with the blanks around it. The bound is on the number of calls. -/
def value? : Nat → List Char → Option (Value × List Char)
  | 0, _ => none
  | fuel + 1, text =>
    let found : Option (Value × List Char) :=
      match skipSpace text with
      | 't' :: 'r' :: 'u' :: 'e' :: rest => some (.bool true, rest)
      | 'f' :: 'a' :: 'l' :: 's' :: 'e' :: rest => some (.bool false, rest)
      | '[' :: rest => (elements? fuel rest).map fun (es, after) => (.arr es, after)
      | '\x7b' :: rest =>
        (members? fuel rest).map fun (ms, after) => (.dict (Value.ofList ms), after)
      | '"' :: rest =>
        (quoted? rest).map fun (s, after) => (.str (String.ofList s), after)
      | '\'' :: rest =>
        match rest with
        | c :: '\'' :: after => some (.char c, after)
        | _ => none
      | rest => some (word (trim (rest.takeWhile isWordChar)), rest.dropWhile isWordChar)
    found.map fun (value, after) => (value, skipSpace after)

/-- The elements of a list up to its closing bracket. -/
def elements? : Nat → List Char → Option (List Value × List Char)
  | 0, _ => none
  | fuel + 1, text =>
    match text with
    | ']' :: after => some ([], after)
    | _ =>
      match value? fuel text with
      | some (element, ',' :: more) =>
        (elements? fuel more).map fun (es, after) => (element :: es, after)
      | some (element, ']' :: after) => some ([element], after)
      | _ => none

/-- The members of a dictionary up to its closing brace. -/
def members? : Nat → List Char → Option (List (String × Value) × List Char)
  | 0, _ => none
  | fuel + 1, text =>
    match text with
    | '\x7d' :: after => some ([], after)
    | _ =>
      match key? (skipSpace text) with
      | none => none
      | some (key, rest) =>
        match skipSpace rest with
        | '=' :: valueText =>
          match value? fuel valueText with
          | some (value, ',' :: more) =>
            (members? fuel more).map fun (ms, after) => ((String.ofList key, value) :: ms, after)
          | some (value, '\x7d' :: after) => some ([(String.ofList key, value)], after)
          | _ => none
        | _ => none

end

/-- The value of the text of a variable. -/
def value (text : String) : Value :=
  match value? (text.length + 1) text.toList with
  | some (value, []) => value
  | _ => .str text

/-! ## Variables -/

/-- A value behind some keys. -/
def nest (value : Value) : List String → Value
  | [] => value
  | key :: rest => .dict [(key, nest value rest)]

/-- The settings in an environment, as a dictionary. Later variables go over earlier ones. -/
def settings (environment : List (String × String)) : Value :=
  environment.foldl (fun below (name, text) =>
    match keys? name with
    | none => below
    | some keys => (nest (value text) keys).cover below) (.dict [])

end Homonym.Variables
