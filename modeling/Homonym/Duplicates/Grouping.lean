import Homonym.Duplicates.Filter

/-!
# Occurrences by identity

`Grouping.of` sorts the admitted occurrences of a list into groups of one identity. Groups stand in
the order in which their identities first appear, and the members of a group in the order of the
list. Along the way it counts what is admitted and what is left out, by reason.
-/

namespace Homonym

/-- The occurrences of one identity. -/
structure Group where
  identity : Identity
  members : List Occurrence
deriving DecidableEq

/-- Counts of what a grouping took in and left out. -/
structure Tally where
  total : Nat := 0
  admitted : Nat := 0
  droppedByKind : Nat := 0
  droppedByName : Nat := 0
  droppedInternal : Nat := 0
  /-- The number of groups. -/
  identities : Nat := 0
  /-- The number of groups with more than one member. -/
  repeated : Nat := 0
deriving DecidableEq

/-- How many occurrences were left out. -/
def Tally.dropped (s : Tally) : Nat :=
  s.droppedByKind + s.droppedByName + s.droppedInternal

namespace Grouping

/-- Puts an occurrence into its group, which is made at the end if there is none. -/
def add (o : Occurrence) : List Group → List Group
  | [] => [⟨o.identity, [o]⟩]
  | g :: rest =>
    if g.identity = o.identity then { g with members := g.members ++ [o] } :: rest
    else g :: add o rest

/-- Counts one occurrence and, if it is admitted, puts it into its group. -/
def step (filter : Filter) : List Group × Tally → Occurrence → List Group × Tally
  | (groups, stats), o =>
    let stats := { stats with total := stats.total + 1 }
    match filter.drop? o with
    | none => (add o groups, { stats with admitted := stats.admitted + 1 })
    | some .ignoredKind => (groups, { stats with droppedByKind := stats.droppedByKind + 1 })
    | some .ignoredName => (groups, { stats with droppedByName := stats.droppedByName + 1 })
    | some .internal => (groups, { stats with droppedInternal := stats.droppedInternal + 1 })

/-- The groups of a list of occurrences, and the counts. -/
def of (filter : Filter) (occurrences : List Occurrence) : List Group × Tally :=
  let (groups, stats) := occurrences.foldl (step filter) ([], {})
  (groups, { stats with
    identities := groups.length
    repeated := groups.countP fun g => 1 < g.members.length })

end Grouping

end Homonym
