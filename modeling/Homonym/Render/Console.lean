import Homonym.Duplicates.Report

/-!
# Reports for the terminal

The layout is the same with and without colour: `paint` puts the codes of a style around a text, or
leaves it alone.
-/

namespace Homonym.Render

/-- The colours in use. -/
inductive Color where
  | red
  | green
  | yellow
  | blue
  | magenta
  | cyan
  | brightBlack
deriving DecidableEq

/-- How a text is shown. -/
inductive Style where
  | bold
  | dim
  | color (c : Color)

/-- The terminal's number for a colour. -/
def Color.code : Color → String
  | .red => "31"
  | .green => "32"
  | .yellow => "33"
  | .blue => "34"
  | .magenta => "35"
  | .cyan => "36"
  | .brightBlack => "90"

/-- The terminal's number for a style. -/
def Style.code : Style → String
  | .bold => "1"
  | .dim => "2"
  | .color c => c.code

/-- A text in a style, if colour is on. -/
def paint (colored : Bool) (style : Style) (text : String) : String :=
  if colored then "\x1b[" ++ style.code ++ "m" ++ text ++ "\x1b[0m" else text

/-- The colour that marks a kind. -/
def kindColor : Kind → Color
  | .function => .blue
  | .classType => .green
  | .interfaceType => .magenta
  | .typeAlias => .cyan
  | .enumeration => .yellow
  | .binding => .red
  | .nameSpace => .brightBlack

/-- A position as `file:line:column`. -/
def position (l : Location) : String :=
  l.file ++ ":" ++ toString l.line ++ ":" ++ toString l.column

namespace Console

/-- The head of the report and its totals. -/
def head (colored : Bool) (s : Summary) : String :=
  paint colored .bold "Duplicate Declaration Report" ++ "\n\n" ++
  paint colored (.color .cyan) "Summary:" ++ "\n" ++
  "  Files scanned:          " ++ toString s.totalFiles ++ "\n" ++
  "  Declarations:           " ++ toString s.totalDeclarations ++ "\n" ++
  "  Duplicate groups:       " ++ toString s.duplicateGroups ++ "\n" ++
  "  Duplicate declarations: " ++ toString s.duplicateDeclarations ++ "\n\n"

/-- One location, as the last of its group or not. -/
def location (colored isLast : Bool) (l : Location) : String :=
  "   " ++ (if isLast then "└─" else "├─") ++ " " ++ paint colored .dim (position l) ++ "\n" ++
  match l.context with
  | some context => "      " ++ paint colored .dim context ++ "\n"
  | none => ""

/-- The locations of a group. -/
def locations (colored : Bool) : List Location → String
  | [] => ""
  | [l] => location colored true l
  | l :: rest => location colored false l ++ locations colored rest

/-- One duplicate under its number. -/
def duplicate (colored : Bool) (number : Nat) (d : Duplicate) : String :=
  toString number ++ ". " ++ paint colored (.color (kindColor d.kind)) d.kind.label ++ " \"" ++
  paint colored (.color .yellow) d.name ++ "\" (" ++ toString d.count ++ " occurrences)\n" ++
  locations colored d.locations ++ "\n"

/-- The duplicates, numbered from `number` on. -/
def duplicates (colored : Bool) : Nat → List Duplicate → String
  | _, [] => ""
  | number, d :: rest => duplicate colored number d ++ duplicates colored (number + 1) rest

end Console

/-- A report for the terminal. -/
def console (colored : Bool) (r : Report) : String :=
  Console.head colored r.summary ++
  if r.duplicates.isEmpty then
    paint colored (.color .green) "No duplicate declarations found." ++ "\n"
  else
    paint colored (.color .red)
      ("Found " ++ toString r.duplicates.length ++ " duplicate groups:") ++ "\n\n" ++
    Console.duplicates colored 1 r.duplicates

end Homonym.Render
