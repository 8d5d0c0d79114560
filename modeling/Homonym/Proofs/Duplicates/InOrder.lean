import Homonym.Proofs.Duplicates.Listed
import Homonym.Proofs.Duplicates.Ranking
import Homonym.Pattern.Glob

/-!
# Reports in order

A report is in order if the places of every duplicate come in order, the larger duplicates come
first, and those of one size come in the order of their first places. Every report on occurrences
that come in order is so (`Report.inOrder_build`).

Nothing on the way from occurrences to a report changes their order, and nothing takes away the
first of a group: merging overloads and the cap keep it (`RuleSet.head?_apply`). So a group and
what is listed of it begin with the same occurrence, which is the first of its identity
(`Grouping.head?_groupOf`).
-/

namespace Homonym

/-- The first place is before the second, or they are the same: by the bytes of the files, then by
lines and then by columns. -/
def Location.NotAfter (a b : Location) : Prop :=
  Pattern.bytes a.file.toList < Pattern.bytes b.file.toList ∨
    a.file = b.file ∧ (a.line < b.line ∨ a.line = b.line ∧ a.column ≤ b.column)

/-- The occurrences come in the order of their places. -/
def InOrder (occurrences : List Occurrence) : Prop :=
  occurrences.Pairwise fun a b => a.location.NotAfter b.location

/-- The duplicates begin with places of which the first is not after the second. -/
def Duplicate.BeginsNotAfter (a b : Duplicate) : Prop :=
  ∃ p q, a.locations.head? = some p ∧ b.locations.head? = some q ∧ p.NotAfter q

/-- The places of every duplicate come in order, and so do the duplicates: the larger first, and
those of one size by their first places. -/
structure Report.InOrder (r : Report) : Prop where
  locations : ∀ d ∈ r.duplicates, d.locations.Pairwise Location.NotAfter
  duplicates : r.duplicates.Pairwise fun a b =>
    b.count ≤ a.count ∧ (a.count = b.count → a.BeginsNotAfter b)

/-! ## What the rules keep -/

theorem head?_firstPer {α β : Type} [DecidableEq β] (key : α → β) (l : List α) :
    (firstPer key l).head? = l.head? := by
  cases l <;> rfl

namespace RuleSet

variable (rules : RuleSet) (kind : Kind) (occurrences : List Occurrence)

theorem countable_sublist : (rules.countable kind occurrences).Sublist occurrences := by
  unfold countable
  split
  · rw [firstInFile, ← firstPer_eq_earliest]
    exact firstPer_sublist _ _
  · exact List.Sublist.refl _

theorem head?_countable : (rules.countable kind occurrences).head? = occurrences.head? := by
  unfold countable
  split
  · rw [firstInFile, ← firstPer_eq_earliest]
    exact head?_firstPer _ _
  · rfl

theorem apply_sublist : (rules.apply kind occurrences).Sublist occurrences := by
  rw [apply_eq]
  split
  · exact (List.take_sublist _ _).trans (rules.countable_sublist kind occurrences)
  · exact List.nil_sublist _

/-- Unless nothing is left, the first occurrence is. -/
theorem head?_apply {kind : Kind} {occurrences : List Occurrence}
    (hSome : rules.apply kind occurrences ≠ []) :
    (rules.apply kind occurrences).head? = occurrences.head? := by
  rw [apply_eq] at hSome ⊢
  split at hSome
  · rename_i hSpread
    have hTaken : rules.listedCount (rules.countable kind occurrences) ≠ 0 := by
      intro hNone
      rw [hNone, List.take_zero] at hSome
      exact hSome rfl
    rw [if_pos hSpread, List.head?_take, if_neg hTaken, head?_countable]
  · exact absurd rfl hSome

end RuleSet

/-! ## Groups -/

theorem Grouping.head?_groupOf {l : List Occurrence} {o : Occurrence}
    (hMem : o ∈ firstPer Occurrence.identity l) :
    (groupOf l o.identity).members.head? = some o := by
  have hFirst : o ∈ (firstPer Occurrence.identity l).filter fun x => x.identity = o.identity :=
    List.mem_filter.2 ⟨hMem, by simp⟩
  rw [filter_firstPer, Option.mem_toList] at hFirst
  rw [groupOf, List.head?_filter]
  exact hFirst

namespace Report

/-- A duplicate lists what the rules leave of its group. -/
theorem duplicate?_eq_some {rules : RuleSet} {g : Group} {d : Duplicate}
    (hListed : duplicate? rules g = some d) :
    rules.apply g.identity.kind g.members ≠ [] ∧
      d.locations = (rules.apply g.identity.kind g.members).map Occurrence.location := by
  simp only [duplicate?] at hListed
  split at hListed
  · rename_i hRepeated
    cases hListed
    refine ⟨fun hNone => ?_, rfl⟩
    rw [hNone] at hRepeated
    cases hRepeated
  · cases hListed

theorem head?_locations {rules : RuleSet} {l : List Occurrence} {o : Occurrence} {d : Duplicate}
    (hMem : o ∈ firstPer Occurrence.identity l)
    (hListed : duplicate? rules (Grouping.groupOf l o.identity) = some d) :
    d.locations.head? = some o.location := by
  obtain ⟨hSome, hLocations⟩ := duplicate?_eq_some hListed
  rw [hLocations, List.head?_map, rules.head?_apply hSome, Grouping.head?_groupOf hMem]
  rfl

/-- **The report on occurrences in order is in order.** -/
theorem inOrder_build {occurrences : List Occurrence} (hOrder : Homonym.InOrder occurrences)
    (filter : Filter) (rules : RuleSet) (totalFiles : Nat) :
    (build rules totalFiles (Grouping.of filter occurrences).1).InOrder := by
  have hAdmitted : Homonym.InOrder (occurrences.filter filter.admits) := hOrder.filter _
  have hGroups := Grouping.of_fst filter occurrences
  generalize occurrences.filter filter.admits = l at hAdmitted hGroups
  constructor
  · intro d hMem
    obtain ⟨g, hGroup, hListed⟩ := List.mem_filterMap.1 (List.mem_mergeSort.1 hMem)
    rw [hGroups] at hGroup
    obtain ⟨o, -, rfl⟩ := List.mem_map.1 hGroup
    rw [(duplicate?_eq_some hListed).2, List.pairwise_map]
    exact hAdmitted.sublist ((rules.apply_sublist _ _).trans List.filter_sublist)
  · refine pairwise_sortedDuplicates ?_
    rw [hGroups, List.filterMap_map, List.pairwise_filterMap]
    have hFirst := List.Pairwise.sublist (firstPer_sublist Occurrence.identity l) hAdmitted
    refine (List.Pairwise.and_mem.1 hFirst).imp ?_
    rintro o o' ⟨hMem, hMem', hPlace⟩ d hListed d' hListed'
    exact ⟨_, _, head?_locations hMem hListed, head?_locations hMem' hListed', hPlace⟩

end Report

end Homonym
