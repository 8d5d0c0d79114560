/-!
# Pieces of a text
-/

namespace Homonym.Text

/-- Puts a character in front of the first piece, which it makes if there is none. -/
def consFirst (c : Char) : List (List Char) → List (List Char)
  | [] => [[c]]
  | piece :: rest => (c :: piece) :: rest

/-- The pieces between the places where a character stands. -/
def splitAt (mark : Char) : List Char → List (List Char)
  | [] => [[]]
  | c :: rest => if c = mark then [] :: splitAt mark rest else consFirst c (splitAt mark rest)

end Homonym.Text
