import Homonym.Declaration.Occurrence

/-!
# Which occurrences count

A filter leaves out occurrences of ignored kinds, of ignored names, and those that are not exported
unless it takes them in. The reasons are tried in this order, so an occurrence has at most one.
-/

namespace Homonym

/-- What is left out of the search for duplicates. -/
structure Filter where
  includeInternal : Bool := false
  ignoredKinds : List Kind := []
  ignoredNames : List String := []

/-- Why an occurrence is left out. -/
inductive Drop where
  | ignoredKind
  | ignoredName
  | internal
deriving DecidableEq

namespace Filter

/-- The reason to leave an occurrence out, if there is one. -/
def drop? (filter : Filter) (o : Occurrence) : Option Drop :=
  if o.kind ∈ filter.ignoredKinds then some .ignoredKind
  else if o.name ∈ filter.ignoredNames then some .ignoredName
  else if !filter.includeInternal && !o.exported then some .internal
  else none

/-- The occurrence counts. -/
def admits (filter : Filter) (o : Occurrence) : Bool :=
  (filter.drop? o).isNone

theorem admits_iff (filter : Filter) (o : Occurrence) :
    filter.admits o = true ↔
      o.kind ∉ filter.ignoredKinds ∧ o.name ∉ filter.ignoredNames ∧
        (filter.includeInternal = true ∨ o.exported = true) := by
  unfold admits drop?
  split
  · simp [*]
  · split
    · simp [*]
    · split <;> simp_all
      rename_i h
      cases hi : filter.includeInternal <;> simp_all

end Filter

end Homonym
