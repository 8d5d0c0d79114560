/-!
# Magnitude of decimals

Which decimal numbers exceed the doubles. `exceedsDouble` takes a number as an integer times a power
of ten, exactly, and holds when the nearest double is infinite: from half a unit above the greatest
finite double on.

`overflowsInSteps` tells whether a calculation in doubles overflows that takes the leading digits of
a literal, as many as fit into a word of 64 bits, and multiplies them by a power of ten. Each of the
two factors and their product is rounded to a double.
-/

namespace Homonym.Text

/-- The least integer whose nearest double is infinite. -/
def doubleBound : Nat := Nat.pow 2 1024 - Nat.pow 2 970

/-- The nearest double of `mantissa * 10 ^ exponent` is infinite. Exponents that decide by
themselves are not carried out. -/
def exceedsDouble (mantissa : Nat) (exponent : Int) : Bool :=
  if mantissa = 0 then false
  else if 0 ≤ exponent then
    400 < exponent || doubleBound ≤ mantissa * Nat.pow 10 exponent.toNat
  else
    let places := (-exponent).toNat
    places < (Nat.toDigits 10 mantissa).length && doubleBound * Nat.pow 10 places ≤ mantissa

/-- The nearest integer with at most 53 significant bits; of two the even one. -/
def roundToDouble (n : Nat) : Nat :=
  let spare := Nat.log2 n + 1 - 53
  let unit := Nat.pow 2 spare
  let quotient := n / unit
  let twice := 2 * (n % unit)
  if unit < twice || (twice == unit && quotient % 2 == 1) then (quotient + 1) * unit
  else quotient * unit

/-! ## Literals in words -/

/-- The greatest unsigned word of 64 bits. -/
def wordMax : Nat := 18446744073709551615

/-- The greatest signed word of 32 bits. -/
def exponentMax : Nat := 2147483647

/-- The digits of a literal as far as they fit into a word, and the power of ten behind them. -/
structure Leading where
  word : Nat
  power : Int

/-- The word with one more digit, if it fits. -/
def extendWord? (word : Nat) (digit : Char) : Option Nat :=
  let next := 10 * word + (digit.toNat - '0'.toNat)
  if next ≤ wordMax then some next else none

/-- Reads the digits before the point. From the first that does not fit, all count for the power. -/
def Leading.ofWhole (word : Nat) : List Char → Leading
  | [] => ⟨word, 0⟩
  | digit :: rest =>
    match extendWord? word digit with
    | some next => ofWhole next rest
    | none => ⟨word, (rest.length : Int) + 1⟩

/-- Reads the digits behind the point. From the first that does not fit, all are left out. -/
def Leading.withFraction (l : Leading) : List Char → Leading
  | [] => l
  | digit :: rest =>
    match extendWord? l.word digit with
    | some next => withFraction ⟨next, l.power - 1⟩ rest
    | none => l

/-- The product of a word and a power of ten overflows, each rounded to a double. -/
def productOverflows (word : Nat) (power : Int) : Bool :=
  if word = 0 || power < 0 then false
  else 308 < power || doubleBound ≤ roundToDouble word * roundToDouble (Nat.pow 10 power.toNat)

/-- The calculation overflows for a literal with given digits before and behind its point and, if
it has an exponent, the digits of that and whether they are negative. An exponent that is no word
decides by its sign. -/
def overflowsInSteps (whole fraction : List Char) (exponent : List Char) (negative : Bool) : Bool :=
  let leading := (Leading.ofWhole 0 whole).withFraction fraction
  let size := Nat.ofDigitChars 10 exponent 0
  if exponentMax < size then leading.word != 0 && !negative
  else productOverflows leading.word (leading.power + if negative then -(size : Int) else size)

end Homonym.Text
