import Homonym.Json.Basic
import Homonym.Text.Hex

/-!
# Strings and numbers of JSON

Readers for the front of a text, which give what follows. Blanks are space, tab, line feed and
carriage return. `stringBody?` resolves the escapes of a string and refuses half of a surrogate
pair, since that is no character; `skimString?` looks for the end of a string and accepts it.
Neither takes raw controls.
-/

namespace Homonym.Json

open Text

/-- The blanks of the format. -/
def isSpace (c : Char) : Bool :=
  c == ' ' || c == '\t' || c == '\n' || c == '\r'

/-- The text from its first character that is not a blank of the format. -/
def skipSpace (text : List Char) : List Char :=
  text.dropWhile isSpace

/-- The value of four hexadecimal digits. -/
def hexFour? (a b c d : Char) : Option Nat := do
  return ((← hexValue? a) * 16 + (← hexValue? b)) * 256 + (← hexValue? c) * 16 + (← hexValue? d)

/-- The character that a backslash and one letter stand for. -/
def shortEscape? (c : Char) : Option Char :=
  match c with
  | '"' => some '"'
  | '\\' => some '\\'
  | '/' => some '/'
  | 'b' => some '\x08'
  | 'f' => some '\x0c'
  | 'n' => some '\n'
  | 'r' => some '\r'
  | 't' => some '\t'
  | _ => none

/-- The number is the first half of a surrogate pair. -/
def isHighSurrogate (n : Nat) : Bool := 0xD800 ≤ n && n < 0xDC00

/-- The number is the second half of a surrogate pair. -/
def isLowSurrogate (n : Nat) : Bool := 0xDC00 ≤ n && n < 0xE000

/-- The character of a surrogate pair. -/
def pairedChar (high low : Nat) : Char :=
  Char.ofNat (0x10000 + (high - 0xD800) * 0x400 + (low - 0xDC00))

/-- The inside of a string up to its closing quote, with escapes resolved. -/
def stringBody? : List Char → Option (List Char × List Char)
  | [] => none
  | '"' :: rest => some ([], rest)
  | '\\' :: 'u' :: a :: b :: c :: d :: '\\' :: 'u' :: e :: f :: g :: h :: rest =>
    match hexFour? a b c d with
    | none => none
    | some n =>
      if isHighSurrogate n then
        match hexFour? e f g h with
        | none => none
        | some m =>
          if isLowSurrogate m then
            (stringBody? rest).map fun (text, after) => (pairedChar n m :: text, after)
          else none
      else if isLowSurrogate n then none
      else
        (stringBody? ('\\' :: 'u' :: e :: f :: g :: h :: rest)).map fun (text, after) =>
          (Char.ofNat n :: text, after)
  | '\\' :: 'u' :: a :: b :: c :: d :: rest =>
    match hexFour? a b c d with
    | none => none
    | some n =>
      if isHighSurrogate n || isLowSurrogate n then none
      else (stringBody? rest).map fun (text, after) => (Char.ofNat n :: text, after)
  | '\\' :: c :: rest =>
    match shortEscape? c with
    | none => none
    | some e => (stringBody? rest).map fun (text, after) => (e :: text, after)
  | c :: rest =>
    if c.toNat < 0x20 || c == '\\' then none
    else (stringBody? rest).map fun (text, after) => (c :: text, after)

/-- What follows the closing quote of a string whose inside is at the front. -/
def skimString? : List Char → Option (List Char)
  | [] => none
  | '"' :: rest => some rest
  | '\\' :: 'u' :: a :: b :: c :: d :: rest =>
    if (hexFour? a b c d).isSome then skimString? rest else none
  | '\\' :: c :: rest => if (shortEscape? c).isSome then skimString? rest else none
  | c :: rest => if c.toNat < 0x20 || c == '\\' then none else skimString? rest

/-- One or more digits at the front. -/
def digits? (text : List Char) : Option (List Char × List Char) :=
  match text.takeWhile Char.isDigit with
  | [] => none
  | ds => some (ds, text.dropWhile Char.isDigit)

/-- The digits of a number before its point: a zero alone, or digits that begin with another one. -/
def wholeDigits? : List Char → Option (List Char × List Char)
  | '0' :: rest => some (['0'], rest)
  | text => digits? text

/-- The fraction of a number with its point, if there is one. -/
def fraction? : List Char → Option (List Char × List Char)
  | '.' :: rest => (digits? rest).map fun (ds, after) => ('.' :: ds, after)
  | text => some ([], text)

/-- The exponent of a number with its letter and sign, if there is one. -/
def exponent? : List Char → Option (List Char × List Char)
  | c :: rest =>
    if c == 'e' || c == 'E' then
      match rest with
      | s :: rest' =>
        if s == '+' || s == '-' then
          (digits? rest').map fun (ds, after) => (c :: s :: ds, after)
        else (digits? rest).map fun (ds, after) => (c :: ds, after)
      | [] => none
    else some ([], c :: rest)
  | [] => some ([], [])

/-- A whole literal as a value: an integer in the range of the 64-bit words, or else a real. -/
def wholeNumber (negative : Bool) (ds : List Char) : Json :=
  let n := Nat.ofDigitChars 10 ds 0
  if negative then
    if 0 < n ∧ intMin ≤ -(n : Int) then .int (-(n : Int)) else .real ('-' :: ds)
  else if (n : Int) ≤ intMax then .int n
  else .real ds

/-- The digits, fraction and exponent of a number whose sign has been read. -/
def unsignedNumber? (negative : Bool) (text : List Char) : Option (Json × List Char) :=
  match wholeDigits? text with
  | none => none
  | some (ds, r₁) =>
    match fraction? r₁ with
    | none => none
    | some (fr, r₂) =>
      match exponent? r₂ with
      | none => none
      | some (ex, r₃) =>
        if fr.isEmpty && ex.isEmpty then some (wholeNumber negative ds, r₃)
        else some (.real ((if negative then ['-'] else []) ++ ds ++ fr ++ ex), r₃)

/-- A number at the front. -/
def number? : List Char → Option (Json × List Char)
  | '-' :: rest => unsignedNumber? true rest
  | text => unsignedNumber? false text

end Homonym.Json
