import Homonym.Text.Magnitude
import Homonym.Toml.Lexical
import Homonym.Value

/-!
# Numbers, dates and times of TOML

Integers are signed words of 64 bits, in decimal, hexadecimal, octal or binary digits. A decimal
integer other than zero does not begin with a zero, and single underscores may divide the digits of
any number. A number with a fraction or an exponent must not exceed the doubles.

A date or time is held as a dictionary with one reserved key.
-/

namespace Homonym.Toml

open Text

/-! ## Digits -/

/-- Digits with single underscores between them, behind a first digit. -/
def moreDigits (isDigit : Char → Bool) : List Char → List Char × List Char
  | [] => ([], [])
  | '_' :: d :: rest =>
    if isDigit d then
      let (digits, after) := moreDigits isDigit rest
      (d :: digits, after)
    else ([], '_' :: d :: rest)
  | c :: rest =>
    if isDigit c then
      let (digits, after) := moreDigits isDigit rest
      (c :: digits, after)
    else ([], c :: rest)

/-- One or more digits with single underscores between them. -/
def digits? (isDigit : Char → Bool) : List Char → Option (List Char × List Char)
  | [] => none
  | c :: rest =>
    if isDigit c then
      let (digits, after) := moreDigits isDigit rest
      some (c :: digits, after)
    else none

/-- A sign, if there is one: whether it is a minus. -/
def sign : List Char → Bool × List Char
  | '+' :: rest => (false, rest)
  | '-' :: rest => (true, rest)
  | text => (false, text)

/-- The digits of a decimal integer: a zero alone, or digits that begin with another one. -/
def wholeDigits? : List Char → Option (List Char × List Char)
  | '0' :: rest => some (['0'], rest)
  | text => digits? Char.isDigit text

/-- The number of some decimal digits. -/
def decimal (digits : List Char) : Nat :=
  Nat.ofDigitChars 10 digits 0

/-! ## Integers -/

/-- An integer, unless it exceeds a word. -/
def word? (n : Int) : Option Value :=
  if Int64.minValue.toInt ≤ n ∧ n ≤ Int64.maxValue.toInt then some (.int n) else none

/-- The number of digits in a base. -/
def inBase (base : Nat) (digits : List Char) : Nat :=
  digits.foldl (fun n c => n * base + (hexValue? c).getD 0) 0

/-- A digit of a base. -/
def isDigitOf (base : Nat) (c : Char) : Bool :=
  match hexValue? c with
  | some n => n < base
  | none => false

/-- An integer in digits of a base. -/
def based? (base : Nat) (text : List Char) : Option (Value × List Char) :=
  match digits? (isDigitOf base) text with
  | none => none
  | some (digits, rest) => (word? (inBase base digits)).map (·, rest)

/-- An integer. -/
def integer? (text : List Char) : Option (Value × List Char) :=
  match text with
  | '0' :: 'x' :: rest => based? 16 rest
  | '0' :: 'o' :: rest => based? 8 rest
  | '0' :: 'b' :: rest => based? 2 rest
  | _ =>
    let (negative, unsigned) := sign text
    match wholeDigits? unsigned with
    | none => none
    | some (digits, rest) =>
      let n : Int := decimal digits
      (word? (if negative then -n else n)).map (·, rest)

/-! ## Reals -/

/-- The exponent of a number, if there is one. -/
def exponent? : List Char → Option (Int × List Char)
  | c :: rest =>
    if c = 'e' ∨ c = 'E' then
      let (negative, unsigned) := sign rest
      (digits? Char.isDigit unsigned).map fun (digits, after) =>
        let n : Int := decimal digits
        (if negative then -n else n, after)
    else none
  | [] => none

/-- The fraction and exponent of a number, at least one of them: the digits and the exponent. -/
def fraction? (text : List Char) : Option (List Char × Int × List Char) :=
  match text with
  | '.' :: rest =>
    match digits? Char.isDigit rest with
    | none => none
    | some (digits, after) =>
      match exponent? after with
      | none => some (digits, 0, after)
      | some (e, last) => some (digits, e, last)
  | _ => (exponent? text).map fun (e, after) => ([], e, after)

/-- Infinity or no number. -/
def special? : List Char → Option (Value × List Char)
  | 'i' :: 'n' :: 'f' :: rest => some (.real, rest)
  | 'n' :: 'a' :: 'n' :: rest => some (.real, rest)
  | _ => none

/-- A number with a fraction or an exponent. -/
def real? (text : List Char) : Option (Value × List Char) :=
  let (negative, unsigned) := sign text
  match wholeDigits? unsigned with
  | none => special? unsigned
  | some (whole, rest) =>
    match fraction? rest with
    | none => none
    | some (digits, e, after) =>
      if !negative && exceedsDouble (decimal (whole ++ digits)) (e - digits.length) then none
      else some (.real, after)

/-! ## Dates and times -/

/-- The number of exactly so many digits, within bounds. -/
def field? (count low high : Nat) (text : List Char) : Option (Nat × List Char) :=
  let digits := text.take count
  let n := decimal digits
  if digits.length = count ∧ digits.all Char.isDigit ∧ low ≤ n ∧ n ≤ high then
    some (n, text.drop count)
  else none

/-- How many days a month has. -/
def daysOf (year month : Nat) : Nat :=
  if month = 2 then
    if year % 4 = 0 ∧ (year % 100 ≠ 0 ∨ year % 400 = 0) then 29 else 28
  else if month = 4 ∨ month = 6 ∨ month = 9 ∨ month = 11 then 30
  else 31

/-- What follows a date. -/
def date? (text : List Char) : Option (List Char) := do
  let (year, r) ← field? 4 0 9999 text
  let (month, r) ← field? 2 1 12 (← after? ['-'] r)
  let (_, r) ← field? 2 1 (daysOf year month) (← after? ['-'] r)
  return r

/-- The text behind a point and digits, if it begins with them. -/
def skipFraction : List Char → List Char
  | '.' :: rest => if (rest.head?.map Char.isDigit).getD false then rest.dropWhile Char.isDigit
    else '.' :: rest
  | text => text

/-- What follows a time of day. -/
def time? (text : List Char) : Option (List Char) := do
  let (_, r) ← field? 2 0 23 text
  let (_, r) ← field? 2 0 59 (← after? [':'] r)
  let (_, r) ← field? 2 0 60 (← after? [':'] r)
  return skipFraction r

/-- The text behind an offset from universal time, if it begins with one. -/
def skipOffset (text : List Char) : List Char :=
  match text with
  | 'Z' :: rest => rest
  | 'z' :: rest => rest
  | c :: rest =>
    if c = '+' ∨ c = '-' then
      (do
        let (_, r) ← field? 2 0 23 rest
        let (_, r) ← field? 2 0 59 (← after? [':'] r)
        return r : Option (List Char)).getD text
    else text
  | [] => []

/-- The text behind a time of day that follows a date, if it begins with one. -/
def skipTime (text : List Char) : List Char :=
  match text with
  | c :: rest =>
    if c = 'T' ∨ c = 't' ∨ c = ' ' then
      match time? rest with
      | some after => skipOffset after
      | none => text
    else text
  | [] => []

/-- The reserved key of dates and times. -/
def dateKey : String := "$__toml_private_datetime"

/-- A date, a time, or both. -/
def dateTime? (text : List Char) : Option (Value × List Char) :=
  let rest? :=
    match date? text with
    | some rest => some (skipTime rest)
    | none => time? text
  rest?.map fun rest =>
    (.dict [(dateKey, .str (String.ofList (text.take (text.length - rest.length))))], rest)

/-- A number, a date or a time. -/
def number? (text : List Char) : Option (Value × List Char) :=
  match dateTime? text with
  | some found => some found
  | none =>
    match real? text with
    | some found => some found
    | none => integer? text

end Homonym.Toml
