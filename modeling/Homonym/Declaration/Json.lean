import Homonym.Declaration.Occurrence
import Homonym.Json.Record

/-!
# Occurrences as JSON
-/

namespace Homonym

/-- A kind by its label. -/
def Kind.ofJson? : Json → Option Kind :=
  Json.variant? Kind.ofLabel?

namespace Occurrence

/-- An occurrence as an object, with its fields in order. -/
def toJson (o : Occurrence) : Json :=
  .obj [("name", .str o.name), ("kind", .str o.kind.label), ("file", .str o.file),
    ("line", .nat o.line), ("column", .nat o.column), ("context", .optional o.context),
    ("exported", .bool o.exported)]

/-- Reads an occurrence. Only its context may be left out. -/
def ofJson? (json : Json) : Option Occurrence := do
  let fields ← json.fields? 7
  return {
    name := ← fields.get? "name" 0 Json.string?
    kind := ← fields.get? "kind" 1 Kind.ofJson?
    file := ← fields.get? "file" 2 Json.string?
    line := ← fields.get? "line" 3 Json.nat?
    column := ← fields.get? "column" 4 Json.nat?
    context := ← fields.getOr? "context" 5 Json.optional? none
    exported := ← fields.get? "exported" 6 Json.bool? }

end Occurrence

end Homonym
