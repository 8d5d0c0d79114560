import Homonym.Text.Split

/-!
# Lines of a text

`lines` cuts a text at its line feeds. The carriage return just before a line feed belongs to the
line end, so it is dropped with it; one anywhere else is part of its line. A text that ends with a
line feed has no empty line after it, and the empty text has no line at all.
-/

namespace Homonym.Text

/-- The lines of a text, without their line ends. -/
def lines : List Char → List (List Char)
  | [] => []
  | '\n' :: rest => [] :: lines rest
  | '\r' :: '\n' :: rest => [] :: lines rest
  | c :: rest => consFirst c (lines rest)

end Homonym.Text
