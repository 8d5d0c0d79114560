import Homonym.Text.Blank

/-!
# Fixed words and identifiers at the front of a text

The readers here look at the front of a text and give what follows. `after?` reads a fixed word,
`keyword?` a word with the blanks that must follow it, and `identifier?` the longest identifier: an
ASCII letter, `_` or `$`, then any number of those and of ASCII digits.
-/

namespace Homonym.Text

/-- What follows a fixed word at the front of a text. -/
def after? : List Char → List Char → Option (List Char)
  | [], text => some text
  | _ :: _, [] => none
  | w :: word, c :: text => if w = c then after? word text else none

/-- What follows a fixed word and the blanks after it, of which there must be one. -/
def keyword? (word : String) (text : List Char) : Option (List Char) :=
  (after? word.toList text).bind afterBlanks?

/-- Drops a word and the blanks after it, where both are there. -/
def skipKeyword (word : String) (text : List Char) : List Char :=
  (keyword? word text).getD text

/-- A character that an identifier may begin with. -/
def isIdentifierStart (c : Char) : Bool :=
  c.isAlpha || c == '_' || c == '$'

/-- A character that an identifier may go on with. -/
def isIdentifierPart (c : Char) : Bool :=
  isIdentifierStart c || c.isDigit

/-- A character that belongs to a word: an identifier character other than the dollar sign. -/
def isWordPart (c : Char) : Bool :=
  c.isAlphanum || c == '_'

/-- The longest identifier at the front, and what follows it. -/
def identifier? : List Char → Option (List Char × List Char)
  | [] => none
  | c :: rest =>
    if isIdentifierStart c then
      some (c :: rest.takeWhile isIdentifierPart, rest.dropWhile isIdentifierPart)
    else none

theorem after?_eq_some_iff {word text rest : List Char} :
    after? word text = some rest ↔ text = word ++ rest := by
  induction word generalizing text with
  | nil => simp [after?]
  | cons w word ih =>
    cases text with
    | nil => simp [after?]
    | cons c text =>
      by_cases h : w = c
      · simp [after?, h, ih]
      · simp [after?, h, Ne.symm h]

theorem identifier?_append {text name rest : List Char}
    (h : identifier? text = some (name, rest)) : text = name ++ rest := by
  cases text with
  | nil => simp [identifier?] at h
  | cons c text =>
    simp only [identifier?] at h
    split at h
    · simp only [Option.some.injEq, Prod.mk.injEq] at h
      obtain ⟨rfl, rfl⟩ := h
      simp
    · simp at h

end Homonym.Text
