import Homonym.Proofs.Duplicates.Listed
import Homonym.Proofs.Duplicates.Ranking

/-!
# Ignoring names and kinds

An ignored name or kind is left out before anything is grouped. The result is the same as if the
duplicates with that name or kind had been taken out of the finished report
(`Report.duplicates_ignoring`): whole identities go, so the other groups keep their members
(`Grouping.of_ignoring`), the rules look at one group at a time, and the sort is stable.
-/

namespace Homonym

/-- The filter that ignores some names and kinds besides its own. -/
def Filter.ignoring (filter : Filter) (names : List String) (kinds : List Kind) : Filter :=
  { filter with
    ignoredKinds := filter.ignoredKinds ++ kinds
    ignoredNames := filter.ignoredNames ++ names }

/-- The identity has none of some names and kinds. -/
def Identity.avoids (names : List String) (kinds : List Kind) (i : Identity) : Bool :=
  i.name ∉ names ∧ i.kind ∉ kinds

theorem Filter.admits_ignoring (filter : Filter) (names : List String) (kinds : List Kind)
    (o : Occurrence) :
    (filter.ignoring names kinds).admits o =
      (filter.admits o && o.identity.avoids names kinds) := by
  rw [Bool.eq_iff_iff, Bool.and_eq_true, admits_iff, admits_iff]
  have hAvoids : o.identity.avoids names kinds = true ↔ o.name ∉ names ∧ o.kind ∉ kinds :=
    decide_eq_true_iff
  simp only [ignoring, hAvoids, List.mem_append]
  tauto

/-- A selection by the key leaves of every key all elements or none, so the first ones are the
same. -/
theorem filter_firstPer_key {α β : Type} [DecidableEq β] (key : α → β) (q : β → Bool)
    (l : List α) :
    firstPer key (l.filter fun x => q (key x)) = (firstPer key l).filter fun x => q (key x) := by
  induction l with
  | nil => rfl
  | cons x rest ih =>
    by_cases hKept : q (key x) = true
    · rw [List.filter_cons_of_pos (p := fun x => q (key x)) hKept, firstPer, firstPer,
        List.filter_cons_of_pos (p := fun x => q (key x)) hKept, ih, List.filter_filter,
        List.filter_filter]
      congr 1
      exact List.filter_congr fun y _ => Bool.and_comm _ _
    · rw [List.filter_cons_of_neg (p := fun x => q (key x)) hKept, firstPer,
        List.filter_cons_of_neg (p := fun x => q (key x)) hKept, ih, List.filter_filter]
      refine List.filter_congr fun y _ => ?_
      by_cases hSame : key y = key x
      · simp [hSame, hKept]
      · simp [hSame]

namespace Grouping

theorem groupOf_filter {q : Identity → Bool} {i : Identity} (hKept : q i = true)
    (l : List Occurrence) : groupOf (l.filter fun o => q o.identity) i = groupOf l i := by
  rw [groupOf, groupOf, List.filter_filter]
  congr 1
  refine List.filter_congr fun o _ => ?_
  by_cases hSame : o.identity = i
  · simp [hSame, hKept]
  · simp [hSame]

/-- **The groups that remain keep their members and their order.** -/
theorem of_ignoring (filter : Filter) (names : List String) (kinds : List Kind)
    (occurrences : List Occurrence) :
    (of (filter.ignoring names kinds) occurrences).1 =
      (of filter occurrences).1.filter fun g => g.identity.avoids names kinds := by
  have hAdmitted : occurrences.filter (filter.ignoring names kinds).admits =
      (occurrences.filter filter.admits).filter fun o => o.identity.avoids names kinds := by
    rw [List.filter_filter]
    refine List.filter_congr fun o _ => ?_
    rw [Filter.admits_ignoring, Bool.and_comm]
  rw [of_fst, of_fst, hAdmitted, filter_firstPer_key Occurrence.identity, List.filter_map]
  refine List.map_congr_left fun o hMem => ?_
  exact groupOf_filter (List.mem_filter.1 hMem).2 _

end Grouping

namespace Report

/-- **Ignoring is leaving out of the report.** The duplicates of a report that ignores some names
and kinds more are those of the report that does not, without the ones with such a name or kind. -/
theorem duplicates_ignoring (filter : Filter) (rules : RuleSet) (totalFiles : Nat)
    (occurrences : List Occurrence) (names : List String) (kinds : List Kind) :
    (build rules totalFiles (Grouping.of (filter.ignoring names kinds) occurrences).1).duplicates =
      (build rules totalFiles (Grouping.of filter occurrences).1).duplicates.filter fun d =>
        d.name ∉ names ∧ d.kind ∉ kinds := by
  have hSelect : ∀ groups : List Group,
      (groups.filter fun g => g.identity.avoids names kinds).filterMap (duplicate? rules) =
        (groups.filterMap (duplicate? rules)).filter fun d => d.name ∉ names ∧ d.kind ∉ kinds := by
    intro groups
    rw [List.filter_filterMap, List.filterMap_filter]
    refine List.filterMap_congr fun g _ => ?_
    cases hListed : duplicate? rules g with
    | none => simp
    | some d => simp [Option.filter, ← duplicate?_identity hListed, Identity.avoids]
  calc
    _ = (((Grouping.of filter occurrences).1.filter fun g =>
          g.identity.avoids names kinds).filterMap (duplicate? rules)).mergeSort ranks := by
      rw [Grouping.of_ignoring]
      rfl
    _ = _ := by
      rw [hSelect, ← filter_sortedDuplicates]
      rfl

end Report

end Homonym
