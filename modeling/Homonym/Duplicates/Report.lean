import Homonym.Duplicates.Grouping
import Homonym.Duplicates.Rules

/-!
# The report of duplicates

`Report.build` applies the rules to every group and lists those that remain reportable, the largest
first. The sort is stable: groups of one size keep the order in which their identities first appear.
-/

namespace Homonym

/-- Where a duplicate stands. -/
structure Location where
  file : String
  line : Nat
  column : Nat
  context : Option String
deriving DecidableEq

/-- The place of an occurrence. -/
def Occurrence.location (o : Occurrence) : Location :=
  ⟨o.file, o.line, o.column, o.context⟩

/-- One identity with the places that declare it. -/
structure Duplicate where
  name : String
  kind : Kind
  count : Nat
  locations : List Location
deriving DecidableEq

/-- How many different files a duplicate lists. -/
def Duplicate.fileCount (d : Duplicate) : Nat :=
  distinctCount Location.file d.locations

/-- The duplicate of an identity whose remaining occurrences are given. -/
def Duplicate.of (identity : Identity) (occurrences : List Occurrence) : Duplicate :=
  { name := identity.name
    kind := identity.kind
    count := occurrences.length
    locations := occurrences.map Occurrence.location }

/-- The totals of a report. -/
structure Summary where
  totalFiles : Nat
  totalDeclarations : Nat
  duplicateGroups : Nat
  duplicateDeclarations : Nat
deriving DecidableEq

/-- A report: its totals, and the duplicates. -/
structure Report where
  summary : Summary
  duplicates : List Duplicate
deriving DecidableEq

/-- The sum of some counts. -/
def total (counts : List Nat) : Nat :=
  counts.foldr (· + ·) 0

namespace Report

/-- The report lists something. -/
def hasDuplicates (r : Report) : Bool :=
  !r.duplicates.isEmpty

/-- What the rules report of one group. -/
def duplicate? (rules : RuleSet) (g : Group) : Option Duplicate :=
  let kept := rules.apply g.identity.kind g.members
  if isRepeated kept then some (.of g.identity kept) else none

/-- The duplicates of some groups, the largest first. -/
def sortedDuplicates (rules : RuleSet) (groups : List Group) : List Duplicate :=
  (groups.filterMap (duplicate? rules)).mergeSort fun a b => b.count ≤ a.count

/-- The report on some groups, given the number of files they come from. -/
def build (rules : RuleSet) (totalFiles : Nat) (groups : List Group) : Report :=
  let duplicates := sortedDuplicates rules groups
  { summary :=
      { totalFiles
        totalDeclarations := total (groups.map fun g => g.members.length)
        duplicateGroups := duplicates.length
        duplicateDeclarations := total (duplicates.map Duplicate.count) }
    duplicates }

end Report

end Homonym
