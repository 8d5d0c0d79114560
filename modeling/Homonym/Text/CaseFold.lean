/-!
# Case folding into ASCII

Two texts agree up to case when their full Unicode case foldings are equal. For comparison with an
ASCII text only the characters matter whose folding is ASCII: the capital letters, the long s, the
Kelvin sign, the sharp s and the Latin ligatures. `foldAscii` folds these and keeps all others.
-/

namespace Homonym.Text

/-- The case folding of a character, where that is ASCII. -/
def foldChar (c : Char) : List Char :=
  match c.toNat with
  | 0x00DF => ['s', 's']
  | 0x017F => ['s']
  | 0x1E9E => ['s', 's']
  | 0x212A => ['k']
  | 0xFB00 => ['f', 'f']
  | 0xFB01 => ['f', 'i']
  | 0xFB02 => ['f', 'l']
  | 0xFB03 => ['f', 'f', 'i']
  | 0xFB04 => ['f', 'f', 'l']
  | 0xFB05 => ['s', 't']
  | 0xFB06 => ['s', 't']
  | _ => [c.toLower]

/-- A text with every folding into ASCII carried out. -/
def foldAscii (text : List Char) : List Char :=
  text.flatMap foldChar

end Homonym.Text
