import Homonym.Duplicates.Report

/-!
# Reports as comma-separated values

A record is a line of fields divided by commas. A field that holds a comma, a quote or a line end is
put in quotes, and its own quotes are doubled. The report has a header record and one record per
location.
-/

namespace Homonym.Render

namespace Csv

/-- The character makes its field need quotes. -/
def isSpecial (c : Char) : Bool :=
  c == '"' || c == ',' || c == '\n' || c == '\r'

/-- The characters of a quoted field, with every quote doubled. -/
def doubled : List Char → List Char
  | [] => []
  | c :: rest => if c = '"' then '"' :: '"' :: doubled rest else c :: doubled rest

/-- A field as it stands in a record. -/
def field (text : List Char) : List Char :=
  if text.any isSpecial then '"' :: (doubled text ++ ['"']) else text

/-- The fields of a record, without its line end. -/
def fields : List (List Char) → List Char
  | [] => []
  | [f] => field f
  | f :: rest => field f ++ ',' :: fields rest

/-- A record with its line end. -/
def record (texts : List String) : List Char :=
  fields (texts.map String.toList) ++ ['\n']

/-- The names of the columns. -/
def header : List String :=
  ["group_id", "name", "kind", "count", "file", "line", "column", "context"]

/-- The fields of one location of the duplicate under a number. -/
def row (number : Nat) (d : Duplicate) (l : Location) : List String :=
  [toString number, d.name, d.kind.label, toString d.count, l.file, toString l.line,
    toString l.column, l.context.getD ""]

/-- The rows of the duplicates, numbered from `number` on. -/
def rows : Nat → List Duplicate → List (List String)
  | _, [] => []
  | number, d :: rest => d.locations.map (row number d) ++ rows (number + 1) rest

end Csv

/-- A report as comma-separated values. -/
def csv (r : Report) : String :=
  String.ofList ((Csv.header :: Csv.rows 1 r.duplicates).flatMap Csv.record)

end Homonym.Render
