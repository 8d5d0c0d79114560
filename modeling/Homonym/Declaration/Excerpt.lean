import Homonym.Text.Blank
import Homonym.Text.Lines

/-!
# Excerpts

An excerpt shows where a declaration stands: the first line of a text without blanks at its ends. A
line of more than `excerptLimit` characters is cut there and marked by three dots. `lineExcerpt`
looks no further than it must to know that, and `lineExcerpt_eq` says that it does the same.
-/

namespace Homonym

/-- How many characters of a line an excerpt keeps. -/
def excerptLimit : Nat := 100

/-- Cuts a line that is longer than an excerpt may be. -/
def clip (line : List Char) : List Char :=
  if excerptLimit < line.length then line.take excerptLimit ++ ['.', '.', '.'] else line

/-- The excerpt of a line: it is cut if anything but blanks follows what may be kept. -/
def lineExcerpt (line : List Char) : List Char :=
  let text := Text.trimStart line
  if (text.drop excerptLimit).all Text.isBlank then Text.trimEnd (text.take excerptLimit)
  else text.take excerptLimit ++ ['.', '.', '.']

theorem lineExcerpt_eq (line : List Char) : lineExcerpt line = clip (Text.trim line) := by
  rw [lineExcerpt, Text.trim, clip]
  generalize Text.trimStart line = text
  have whole := Text.trimEnd_append (text.take excerptLimit) (text.drop excerptLimit)
  rw [List.take_append_drop] at whole
  rw [whole]
  split
  · have short := (Text.trimEnd_prefix_self (text.take excerptLimit)).length_le
    rw [if_neg (by rw [List.length_take] at short; omega)]
  · next more =>
    have more : Text.trimEnd (text.drop excerptLimit) ≠ [] :=
      fun h => more (Text.trimEnd_eq_nil_iff.1 h)
    have full : (text.take excerptLimit).length = excerptLimit := by
      have left : text.drop excerptLimit ≠ [] := fun h => more (by rw [h]; rfl)
      have := List.length_pos_iff.2 left
      rw [List.length_drop] at this
      rw [List.length_take]
      omega
    have := List.length_pos_iff.2 more
    rw [if_pos (by rw [List.length_append]; omega), List.take_append_of_le_length (by omega),
      List.take_take, Nat.min_self]

/-- The excerpt of a text, as characters. -/
def excerptChars (text : List Char) : List Char :=
  lineExcerpt ((Text.lines text).headD [])

/-- The excerpt of a text. -/
def excerpt (text : String) : String :=
  String.ofList (excerptChars text.toList)

end Homonym
