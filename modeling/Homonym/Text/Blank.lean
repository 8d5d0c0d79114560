/-!
# Blank characters

`isBlank` holds of the characters with the Unicode property White_Space, and of no others: the
controls from tab to carriage return, next line, and the spaces and separators of every script.
Trimming a text removes them from its front (`trimStart`), its end (`trimEnd`) or both (`trim`).
-/

namespace Homonym.Text

/-- The Unicode property White_Space. -/
def isBlank (c : Char) : Bool :=
  let n := c.toNat
  (0x09 ≤ n && n ≤ 0x0D) || n == 0x20 || n == 0x85 || n == 0xA0 || n == 0x1680 ||
    (0x2000 ≤ n && n ≤ 0x200A) || n == 0x2028 || n == 0x2029 || n == 0x202F || n == 0x205F ||
    n == 0x3000

/-- The text from its first character that is not blank. -/
def trimStart (text : List Char) : List Char :=
  text.dropWhile isBlank

/-- The text up to its last character that is not blank. -/
def trimEnd (text : List Char) : List Char :=
  (text.reverse.dropWhile isBlank).reverse

/-- The text without blanks at its ends. -/
def trim (text : List Char) : List Char :=
  trimEnd (trimStart text)

/-- What follows one or more blanks at the front, if there is such a blank. -/
def afterBlanks? : List Char → Option (List Char)
  | [] => none
  | c :: rest => if isBlank c then some (trimStart rest) else none

/-! ## Small facts -/

theorem trimStart_eq_nil_or (text : List Char) :
    trimStart text = [] ∨ ∃ c rest, trimStart text = c :: rest ∧ isBlank c = false := by
  induction text with
  | nil => exact Or.inl rfl
  | cons c rest ih =>
    by_cases h : isBlank c
    · simpa [trimStart, List.dropWhile, h] using ih
    · exact Or.inr ⟨c, rest, by simp [trimStart, List.dropWhile, h], by simpa using h⟩

theorem trimStart_suffix (text : List Char) : trimStart text <:+ text :=
  List.dropWhile_suffix _

theorem trimEnd_prefix_self (text : List Char) : trimEnd text <+: text := by
  simpa [trimEnd, trimStart] using List.reverse_prefix.2 (trimStart_suffix text.reverse)

theorem trimStart_eq_nil_iff {text : List Char} : trimStart text = [] ↔ text.all isBlank := by
  induction text with
  | nil => simp [trimStart]
  | cons c rest ih => by_cases h : isBlank c <;> simp_all [trimStart]

theorem trimEnd_eq_nil_iff {text : List Char} : trimEnd text = [] ↔ text.all isBlank := by
  rw [trimEnd, List.reverse_eq_nil_iff]
  exact trimStart_eq_nil_iff.trans (by rw [List.all_reverse])

/-- Blanks at the end do not count; before anything else they do. -/
theorem trimEnd_append (front back : List Char) :
    trimEnd (front ++ back) =
      if back.all isBlank then trimEnd front else front ++ trimEnd back := by
  rw [trimEnd, List.reverse_append, List.dropWhile_append]
  by_cases h : back.all isBlank
  · have gone : back.reverse.dropWhile isBlank = [] := by
      simpa [trimEnd] using trimEnd_eq_nil_iff.2 h
    simp [gone, h, trimEnd]
  · have left : back.reverse.dropWhile isBlank ≠ [] := fun gone =>
      h (trimEnd_eq_nil_iff.1 (by simp [trimEnd, gone]))
    simp [left, h, trimEnd]

end Homonym.Text
