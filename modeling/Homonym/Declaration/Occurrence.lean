import Homonym.Declaration.Kind
import Homonym.Declaration.Excerpt

/-!
# Occurrences and identities

An occurrence is one declaration found in one file: its name and kind, where it begins, an excerpt
of the line, and whether it is exported. Two occurrences declare the same thing when they agree in
name and kind; that pair is their identity.
-/

namespace Homonym

/-- One declaration in one file. Lines and columns count from 1. -/
structure Occurrence where
  name : String
  kind : Kind
  file : String
  line : Nat
  column : Nat
  context : Option String := none
  exported : Bool := true
deriving DecidableEq

namespace Occurrence

/-- The occurrence with the excerpt of a text as its context. -/
def withContext (o : Occurrence) (text : String) : Occurrence :=
  { o with context := some (excerpt text) }

/-- The occurrence with its export mark set. -/
def withExported (o : Occurrence) (exported : Bool) : Occurrence :=
  { o with exported := exported }

end Occurrence

/-- What makes two declarations the same: their name and kind. -/
structure Identity where
  name : String
  kind : Kind
deriving DecidableEq

/-- The identity of an occurrence. -/
def Occurrence.identity (o : Occurrence) : Identity :=
  ⟨o.name, o.kind⟩

/-- An identity in words: its kind, and its name in quotes. -/
def Identity.label (i : Identity) : String :=
  i.kind.label ++ " \"" ++ i.name ++ "\""

end Homonym
