import Homonym.Declaration.Occurrence
import Homonym.Duplicates.FirstPer

/-!
# Rules on groups

A rule set decides what of a group is reported. It acts in three steps: of a function's occurrences
one per file is kept, where overloads are allowed; a group that stays within one file is emptied,
unless such groups are wanted; and the group is cut to the cap, where there is one. What is left is
reported if it has more than one member.
-/

namespace Homonym

/-- The rules that decide which groups are reported. -/
structure RuleSet where
  /-- Several declarations of one function in a file count once. -/
  allowSameFileOverloads : Bool := true
  /-- Groups within a single file are reported too. -/
  allowCrossModuleDuplicates : Bool := false
  /-- How many members of a group are listed; no number above zero means all of them. -/
  maxDuplicatesPerName : Int64 := 2
deriving DecidableEq

/-- The first occurrence of every file. -/
def onePerFile (occurrences : List Occurrence) : List Occurrence :=
  firstPer Occurrence.file occurrences

/-- The occurrences, if they lie in more than one file. -/
def acrossFiles (occurrences : List Occurrence) : List Occurrence :=
  if distinctCount Occurrence.file occurrences ≤ 1 then [] else occurrences

/-- More than one occurrence is left. -/
def isRepeated (occurrences : List Occurrence) : Bool :=
  1 < occurrences.length

namespace RuleSet

/-- The greatest number of members listed, if there is a limit. -/
def cap? (rules : RuleSet) : Option Nat :=
  let n := rules.maxDuplicatesPerName.toInt
  if 0 < n then some n.toNat else none

/-- What the rules leave of the occurrences of a kind. -/
def apply (rules : RuleSet) (kind : Kind) (occurrences : List Occurrence) : List Occurrence :=
  let merged :=
    if rules.allowSameFileOverloads && kind == .function then onePerFile occurrences
    else occurrences
  let spread := if rules.allowCrossModuleDuplicates then merged else acrossFiles merged
  match rules.cap? with
  | some cap => spread.take cap
  | none => spread

end RuleSet

end Homonym
