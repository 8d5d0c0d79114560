import Homonym.Declaration.Json
import Homonym.Duplicates.Report
import Homonym.Json.Reader
import Homonym.Json.Writer

/-!
# Reports as JSON

`Report.toJson` and `Report.ofJson?` give the JSON form of a report and read it back;
`Report.parse?` reads a text.
-/

namespace Homonym

namespace Location

def toJson (l : Location) : Json :=
  .obj [("file", .str l.file), ("line", .nat l.line), ("column", .nat l.column),
    ("context", .optional l.context)]

/-- Reads a location. Only its context may be left out. -/
def ofJson? (json : Json) : Option Location := do
  let fields ← json.fields? 4
  return {
    file := ← fields.get? "file" 0 Json.string?
    line := ← fields.get? "line" 1 Json.nat?
    column := ← fields.get? "column" 2 Json.nat?
    context := ← fields.getOr? "context" 3 Json.optional? none }

end Location

namespace Duplicate

def toJson (d : Duplicate) : Json :=
  .obj [("name", .str d.name), ("kind", .str d.kind.label), ("count", .nat d.count),
    ("locations", .arr (d.locations.map Location.toJson))]

def ofJson? (json : Json) : Option Duplicate := do
  let fields ← json.fields? 4
  return {
    name := ← fields.get? "name" 0 Json.string?
    kind := ← fields.get? "kind" 1 Kind.ofJson?
    count := ← fields.get? "count" 2 Json.nat?
    locations := ← fields.get? "locations" 3 (Json.list? Location.ofJson?) }

end Duplicate

namespace Summary

def toJson (s : Summary) : Json :=
  .obj [("totalFiles", .nat s.totalFiles), ("totalDeclarations", .nat s.totalDeclarations),
    ("duplicateGroupCount", .nat s.duplicateGroups),
    ("duplicateDeclarationCount", .nat s.duplicateDeclarations)]

def ofJson? (json : Json) : Option Summary := do
  let fields ← json.fields? 4
  return {
    totalFiles := ← fields.get? "totalFiles" 0 Json.nat?
    totalDeclarations := ← fields.get? "totalDeclarations" 1 Json.nat?
    duplicateGroups := ← fields.get? "duplicateGroupCount" 2 Json.nat?
    duplicateDeclarations := ← fields.get? "duplicateDeclarationCount" 3 Json.nat? }

end Summary

namespace Report

def toJson (r : Report) : Json :=
  .obj [("summary", r.summary.toJson), ("duplicates", .arr (r.duplicates.map Duplicate.toJson))]

def ofJson? (json : Json) : Option Report := do
  let fields ← json.fields? 2
  return {
    summary := ← fields.get? "summary" 0 Summary.ofJson?
    duplicates := ← fields.get? "duplicates" 1 (Json.list? Duplicate.ofJson?) }

/-- Reads the JSON text of a report. What is passed over need not be representable. -/
def parse? (text : String) : Option Report :=
  (Json.read? text.toList).bind ofJson?

end Report

end Homonym
