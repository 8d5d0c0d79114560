import Homonym.Render.Console

/-!
# Reports as Markdown
-/

namespace Homonym.Render

namespace Markdown

/-- The head of the report and its totals. -/
def head (s : Summary) : String :=
  "# Duplicate Declaration Report\n\n## Summary\n\n" ++
  "- Files scanned: " ++ toString s.totalFiles ++ "\n" ++
  "- Declarations: " ++ toString s.totalDeclarations ++ "\n" ++
  "- Duplicate groups: " ++ toString s.duplicateGroups ++ "\n" ++
  "- Duplicate declarations: " ++ toString s.duplicateDeclarations ++ "\n\n"

/-- One location, with its context as a code block. -/
def location (l : Location) : String :=
  "- `" ++ position l ++ "`\n" ++
  match l.context with
  | some context => "  ```typescript\n  " ++ context ++ "\n  ```\n"
  | none => ""

/-- The locations of a group. -/
def locations : List Location → String
  | [] => ""
  | l :: rest => location l ++ locations rest

/-- One duplicate under its number. -/
def duplicate (number : Nat) (d : Duplicate) : String :=
  "### " ++ toString number ++ ". `" ++ d.kind.label ++ "` \"" ++ d.name ++ "\" (" ++
  toString d.count ++ " occurrences)\n\n" ++ locations d.locations ++ "\n"

/-- The duplicates, numbered from `number` on. -/
def duplicates : Nat → List Duplicate → String
  | _, [] => ""
  | number, d :: rest => duplicate number d ++ duplicates (number + 1) rest

end Markdown

/-- A report as Markdown. -/
def markdown (r : Report) : String :=
  Markdown.head r.summary ++
  if r.duplicates.isEmpty then "**No duplicate declarations found.**\n"
  else "## Duplicates\n\n" ++ Markdown.duplicates 1 r.duplicates

end Homonym.Render
