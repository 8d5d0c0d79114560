/-!
# Globs

A glob is a list of tokens that is matched against the bytes of a path. One byte other than the
slash is matched by `any`, and any number of them by `star`; whole directories are matched by the
three forms of the double star, which differ in where they stand.

`Token.run` and its companions take the match as a test on what follows: a token accepts a text if
it can take some front of it such that the test accepts the rest. `runAll` with the test that
nothing is left says what a glob matches.
-/

namespace Homonym.Pattern

/-- A text as bytes. -/
abbrev Bytes := List UInt8

/-- The bytes of a text. -/
def bytes (text : List Char) : Bytes :=
  text.flatMap String.utf8EncodeChar

/-- The byte that divides the names of a path. -/
def slash : UInt8 := 0x2F

/-- A piece of a glob. -/
inductive Token where
  /-- A character that stands for itself. -/
  | literal (c : Char)
  /-- One byte that is no slash. -/
  | any
  /-- Any bytes without a slash. -/
  | star
  /-- A double star at the front: nothing, or anything up to a slash. -/
  | leading
  /-- A double star at the end: a slash and anything. -/
  | trailing
  /-- A double star between slashes: a slash, or anything between two slashes. -/
  | between
  /-- One byte in, or not in, some ranges of characters. -/
  | oneOf (negated : Bool) (ranges : List (Char × Char))
  /-- One of several globs; of none, nothing. -/
  | alternates (branches : List (List Token))

/-- The byte lies in a range of characters. A character of several bytes counts as all of them, and
the range goes from the last byte of its first end to the first byte of its second. -/
def inRange (b : UInt8) (range : Char × Char) : Bool :=
  let first := String.utf8EncodeChar range.1
  let last := String.utf8EncodeChar range.2
  if range.1 = range.2 then first.contains b
  else
    first.contains b || last.contains b ||
      (first.getLastD 0 ≤ b && b ≤ last.headD 0)

/-- The test holds after some bytes without a slash. -/
def skipName (test : Bytes → Bool) : Bytes → Bool
  | [] => test []
  | b :: rest => test (b :: rest) || (b != slash && skipName test rest)

/-- The test holds after some bytes. -/
def skipAny (test : Bytes → Bool) : Bytes → Bool
  | [] => test []
  | b :: rest => test (b :: rest) || skipAny test rest

/-- The test holds after some slash. -/
def skipDirs (test : Bytes → Bool) : Bytes → Bool
  | [] => false
  | b :: rest => (b == slash && test rest) || skipDirs test rest

/-- The test holds after one byte with a property. -/
def one (p : UInt8 → Bool) (test : Bytes → Bool) : Bytes → Bool
  | [] => false
  | b :: rest => p b && test rest

/-- The test holds after given bytes. -/
def expect (test : Bytes → Bool) : Bytes → Bytes → Bool
  | [], text => test text
  | w :: word, text => one (· == w) (expect test word) text

mutual

/-- The test holds after what a token takes. -/
def Token.run : Token → (Bytes → Bool) → Bytes → Bool
  | .literal c, test, text => expect test (String.utf8EncodeChar c) text
  | .any, test, text => one (· != slash) test text
  | .star, test, text => skipName test text
  | .leading, test, text => test text || skipDirs test text
  | .trailing, test, text => one (· == slash) (skipAny test) text
  | .between, test, text => one (· == slash) (fun rest => test rest || skipDirs test rest) text
  | .oneOf negated ranges, test, text => one (fun b => ranges.any (inRange b) != negated) test text
  | .alternates [], test, text => test text
  | .alternates (branch :: rest), test, text => runAll branch test text || runSome rest test text

/-- The test holds after what the tokens take, one after the other. -/
def runAll : List Token → (Bytes → Bool) → Bytes → Bool
  | [], test, text => test text
  | token :: rest, test, text => token.run (runAll rest test) text

/-- The test holds after what one of the branches takes. -/
def runSome : List (List Token) → (Bytes → Bool) → Bytes → Bool
  | [], _, _ => false
  | branch :: rest, test, text => runAll branch test text || runSome rest test text

end

/-- A glob. -/
structure Glob where
  tokens : List Token

end Homonym.Pattern
