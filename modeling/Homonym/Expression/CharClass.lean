import Homonym.Expression.Basic
import Homonym.Text.Blank
import Homonym.Text.CaseMates
import Homonym.Text.Category

/-!
# Named sets of characters

The sets that an expression can name: digits, blanks and word characters, of ASCII alone or of all
scripts; the classes that stand between colons in brackets; and the Unicode properties of general
categories and of a few scripts.
-/

namespace Homonym.CharSet

open Text

/-- The set of no characters. -/
def none : CharSet := fun _ => false

/-- The characters in one of two sets. -/
def union (a b : CharSet) : CharSet := fun c => a c || b c

/-- The characters in both sets. -/
def inter (a b : CharSet) : CharSet := fun c => a c && b c

/-- The characters in the first set alone. -/
def diff (a b : CharSet) : CharSet := fun c => a c && !b c

/-- The characters in one set but not in both. -/
def symmDiff (a b : CharSet) : CharSet := fun c => a c != b c

/-- The characters that are not in a set. -/
def compl (a : CharSet) : CharSet := fun c => !a c

/-- The characters from one to another. -/
def range (first last : Char) : CharSet := fun c => first ≤ c && c ≤ last

/-- A set with all characters that differ from one of its own in case alone. -/
def anyCase (a : CharSet) : CharSet := fun c => a c || (caseMates c).any a

/-- A letter of ASCII in the other case. -/
def otherAsciiCase (c : Char) : Char :=
  if c.isUpper then c.toLower else c.toUpper

/-- A set with all letters of ASCII that differ from one of its own in case alone. -/
def anyAsciiCase (a : CharSet) : CharSet := fun c => a c || a (otherAsciiCase c)

/-! ## Classes of ASCII -/

/-- The blanks of ASCII. -/
def asciiSpace : CharSet := fun c => c == ' ' || range '\t' '\r' c

/-- The word characters of ASCII. -/
def asciiWord : CharSet := fun c => c.isAlphanum || c == '_'

/-- The class of ASCII with a name. -/
def asciiClass? : String → Option CharSet
  | "alnum" => some Char.isAlphanum
  | "alpha" => some Char.isAlpha
  | "ascii" => some (range '\x00' '\x7f')
  | "blank" => some fun c => c == ' ' || c == '\t'
  | "cntrl" => some fun c => range '\x00' '\x1f' c || c == '\x7f'
  | "digit" => some Char.isDigit
  | "graph" => some (range '!' '~')
  | "lower" => some Char.isLower
  | "print" => some (range ' ' '~')
  | "punct" => some fun c => range '!' '~' c && !c.isAlphanum
  | "space" => some asciiSpace
  | "upper" => some Char.isUpper
  | "word" => some asciiWord
  | "xdigit" => some fun c => c.isDigit || range 'a' 'f' c || range 'A' 'F' c
  | _ => .none

/-! ## Unicode properties -/

/-- The digits of all scripts. -/
def digit : CharSet := fun c => Category.of c == .decimalNumber

/-- The categories that a name stands for: one of them, or a group. -/
def categories? (name : String) : Option (List Category) :=
  let group (letter : Char) := some (Category.all.filter fun g => g.isIn letter)
  match name with
  | "l" | "letter" => group 'l'
  | "m" | "mark" | "combiningmark" => group 'm'
  | "n" | "number" => group 'n'
  | "p" | "punctuation" | "punct" => group 'p'
  | "s" | "symbol" => group 's'
  | "z" | "separator" => group 'z'
  | "c" | "other" => group 'c'
  | "lc" | "casedletter" => some [.uppercaseLetter, .lowercaseLetter, .titlecaseLetter]
  | "cntrl" => some [.control]
  | "digit" => some [.decimalNumber]
  | "any" => some Category.all
  | "assigned" => some (Category.all.filter fun g => g != .unassigned)
  | _ =>
    match Category.all.filter fun g => g.abbreviation == name || g.name == name with
    | [] => .none
    | found => some found

/-- The characters of some categories. -/
def ofCategories (categories : List Category) : CharSet :=
  fun c => categories.contains (Category.of c)

/-- The characters of some ranges of code points. -/
def ofRanges (ranges : List (Nat × Nat)) : CharSet :=
  fun c => ranges.any fun (first, last) => first ≤ c.toNat && c.toNat ≤ last

/-- The ranges of a script. -/
def script? : String → Option (List (Nat × Nat))
  | "latin" | "latn" =>
    some [(0x41, 0x5A), (0x61, 0x7A), (0xAA, 0xAA), (0xBA, 0xBA), (0xC0, 0xD6), (0xD8, 0xF6),
      (0xF8, 0x2B8), (0x2E0, 0x2E4), (0x1D00, 0x1D25), (0x1D2C, 0x1D5C), (0x1D62, 0x1D65),
      (0x1D6B, 0x1D77), (0x1D79, 0x1DBE), (0x1E00, 0x1EFF), (0x2071, 0x2071), (0x207F, 0x207F),
      (0x2090, 0x209C), (0x212A, 0x212B), (0x2132, 0x2132), (0x214E, 0x214E), (0x2160, 0x2188),
      (0x2C60, 0x2C7F), (0xA722, 0xA787), (0xA78B, 0xA7CA), (0xA7D0, 0xA7D1), (0xA7D3, 0xA7D3),
      (0xA7D5, 0xA7D9), (0xA7F2, 0xA7FF), (0xAB30, 0xAB5A), (0xAB5C, 0xAB64), (0xAB66, 0xAB69),
      (0xFB00, 0xFB06), (0xFF21, 0xFF3A), (0xFF41, 0xFF5A), (0x10780, 0x10785),
      (0x10787, 0x107B0), (0x107B2, 0x107BA), (0x1DF00, 0x1DF1E), (0x1DF25, 0x1DF2A)]
  | "greek" | "grek" =>
    some [(0x370, 0x373), (0x375, 0x377), (0x37A, 0x37D), (0x37F, 0x37F), (0x384, 0x384),
      (0x386, 0x386), (0x388, 0x38A), (0x38C, 0x38C), (0x38E, 0x3A1), (0x3A3, 0x3E1),
      (0x3F0, 0x3FF), (0x1D26, 0x1D2A), (0x1D5D, 0x1D61), (0x1D66, 0x1D6A), (0x1DBF, 0x1DBF),
      (0x1F00, 0x1F15), (0x1F18, 0x1F1D), (0x1F20, 0x1F45), (0x1F48, 0x1F4D), (0x1F50, 0x1F57),
      (0x1F59, 0x1F59), (0x1F5B, 0x1F5B), (0x1F5D, 0x1F5D), (0x1F5F, 0x1F7D), (0x1F80, 0x1FB4),
      (0x1FB6, 0x1FC4), (0x1FC6, 0x1FD3), (0x1FD6, 0x1FDB), (0x1FDD, 0x1FEF), (0x1FF2, 0x1FF4),
      (0x1FF6, 0x1FFE), (0x2126, 0x2126), (0xAB65, 0xAB65), (0x10140, 0x1018E),
      (0x101A0, 0x101A0), (0x1D200, 0x1D245)]
  | "cyrillic" | "cyrl" =>
    some [(0x400, 0x484), (0x487, 0x52F), (0x1C80, 0x1C88), (0x1D2B, 0x1D2B), (0x1D78, 0x1D78),
      (0x2DE0, 0x2DFF), (0xA640, 0xA69F), (0xFE2E, 0xFE2F), (0x1E030, 0x1E06D), (0x1E08F, 0x1E08F)]
  | "han" | "hani" =>
    some [(0x2E80, 0x2E99), (0x2E9B, 0x2EF3), (0x2F00, 0x2FD5), (0x3005, 0x3005), (0x3007, 0x3007),
      (0x3021, 0x3029), (0x3038, 0x303B), (0x3400, 0x4DBF), (0x4E00, 0x9FFF), (0xF900, 0xFA6D),
      (0xFA70, 0xFAD9), (0x16FE2, 0x16FE3), (0x16FF0, 0x16FF1), (0x20000, 0x2A6DF),
      (0x2A700, 0x2B739), (0x2B740, 0x2B81D), (0x2B820, 0x2CEA1), (0x2CEB0, 0x2EBE0),
      (0x2F800, 0x2FA1D), (0x30000, 0x3134A), (0x31350, 0x323AF)]
  | "hiragana" | "hira" =>
    some [(0x3041, 0x3096), (0x309D, 0x309F), (0x1B001, 0x1B11F), (0x1B132, 0x1B132),
      (0x1B150, 0x1B152), (0x1F200, 0x1F200)]
  | "katakana" | "kana" =>
    some [(0x30A1, 0x30FA), (0x30FD, 0x30FF), (0x31F0, 0x31FF), (0x32D0, 0x32FE), (0x3300, 0x3357),
      (0xFF66, 0xFF6F), (0xFF71, 0xFF9D), (0x1AFF0, 0x1AFF3), (0x1AFF5, 0x1AFFB),
      (0x1AFFD, 0x1AFFE), (0x1B000, 0x1B000), (0x1B120, 0x1B122), (0x1B155, 0x1B155),
      (0x1B164, 0x1B167)]
  | "hangul" | "hang" =>
    some [(0x1100, 0x11FF), (0x302E, 0x302F), (0x3131, 0x318E), (0x3200, 0x321E), (0x3260, 0x327E),
      (0xA960, 0xA97C), (0xAC00, 0xD7A3), (0xD7B0, 0xD7C6), (0xD7CB, 0xD7FB), (0xFFA0, 0xFFBE),
      (0xFFC2, 0xFFC7), (0xFFCA, 0xFFCF), (0xFFD2, 0xFFD7), (0xFFDA, 0xFFDC)]
  | "arabic" | "arab" =>
    some [(0x600, 0x604), (0x606, 0x60B), (0x60D, 0x61A), (0x61C, 0x61E), (0x620, 0x63F),
      (0x641, 0x64A), (0x656, 0x66F), (0x671, 0x6DC), (0x6DE, 0x6FF), (0x750, 0x77F),
      (0x870, 0x88E), (0x890, 0x891), (0x898, 0x8E1), (0x8E3, 0x8FF), (0xFB50, 0xFBC2),
      (0xFBD3, 0xFD3D), (0xFD40, 0xFD8F), (0xFD92, 0xFDC7), (0xFDCF, 0xFDCF), (0xFDF0, 0xFDFF),
      (0xFE70, 0xFE74), (0xFE76, 0xFEFC), (0x10E60, 0x10E7E), (0x10EFD, 0x10EFF),
      (0x1EE00, 0x1EE03), (0x1EE05, 0x1EE1F), (0x1EE21, 0x1EE22), (0x1EE24, 0x1EE24),
      (0x1EE27, 0x1EE27), (0x1EE29, 0x1EE32), (0x1EE34, 0x1EE37), (0x1EE39, 0x1EE39),
      (0x1EE3B, 0x1EE3B), (0x1EE42, 0x1EE42), (0x1EE47, 0x1EE47), (0x1EE49, 0x1EE49),
      (0x1EE4B, 0x1EE4B), (0x1EE4D, 0x1EE4F), (0x1EE51, 0x1EE52), (0x1EE54, 0x1EE54),
      (0x1EE57, 0x1EE57), (0x1EE59, 0x1EE59), (0x1EE5B, 0x1EE5B), (0x1EE5D, 0x1EE5D),
      (0x1EE5F, 0x1EE5F), (0x1EE61, 0x1EE62), (0x1EE64, 0x1EE64), (0x1EE67, 0x1EE6A),
      (0x1EE6C, 0x1EE72), (0x1EE74, 0x1EE77), (0x1EE79, 0x1EE7C), (0x1EE7E, 0x1EE7E),
      (0x1EE80, 0x1EE89), (0x1EE8B, 0x1EE9B), (0x1EEA1, 0x1EEA3), (0x1EEA5, 0x1EEA9),
      (0x1EEAB, 0x1EEBB), (0x1EEF0, 0x1EEF1)]
  | "hebrew" | "hebr" =>
    some [(0x591, 0x5C7), (0x5D0, 0x5EA), (0x5EF, 0x5F4), (0xFB1D, 0xFB36), (0xFB38, 0xFB3C),
      (0xFB3E, 0xFB3E), (0xFB40, 0xFB41), (0xFB43, 0xFB44), (0xFB46, 0xFB4F)]
  | "thai" =>
    some [(0xE01, 0xE3A), (0xE40, 0xE5B)]
  | "devanagari" | "deva" =>
    some [(0x900, 0x950), (0x955, 0x963), (0x966, 0x97F), (0xA8E0, 0xA8FF), (0x11B00, 0x11B09)]
  | _ => .none

/-- The characters with a property that is either there or not. -/
def binaryProperty? : String → Option CharSet
  | "alphabetic" | "alpha" => some isLetter
  | "ascii" => some (range '\x00' '\x7f')
  | "lowercase" | "lower" => some fun c => Category.of c == .lowercaseLetter
  | "uppercase" | "upper" => some fun c => Category.of c == .uppercaseLetter
  | "whitespace" | "wspace" | "space" => some isBlank
  | _ => .none

/-- A name of a property or of its value in lower case, without blanks, hyphens and underscores, and
without a leading `is`. -/
def propertyName (text : List Char) : String :=
  let kept := text.filter fun c => c.toNat < 0x80 && c != ' ' && c != '-' && c != '_'
  match kept.map Char.toLower with
  | 'i' :: 's' :: rest => if rest == ['c'] then "isc" else String.ofList rest
  | name => String.ofList name

/-- The characters of a general category. -/
def category? (name : String) : Option CharSet :=
  if name == "ascii" then some (range '\x00' '\x7f') else (categories? name).map ofCategories

/-- The characters with a property that goes by its name alone. -/
def property? (text : List Char) : Option CharSet :=
  let name := propertyName text
  match binaryProperty? name with
  | some set => some set
  | .none =>
    match category? name with
    | some set => some set
    | .none => (script? name).map ofRanges

/-- The characters whose property has a certain value. -/
def propertyValue? (property value : List Char) : Option CharSet :=
  let name := propertyName value
  match propertyName property with
  | "gc" | "generalcategory" | "category" => category? name
  | "sc" | "script" | "scx" | "scriptextensions" => (script? name).map ofRanges
  | _ => .none

end Homonym.CharSet
