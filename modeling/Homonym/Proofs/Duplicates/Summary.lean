import Homonym.Proofs.Duplicates.InOrder
import Homonym.Proofs.Duplicates.Partition

/-!
# The order and the totals of a report

`Report.summarizes_build` says how a report on the groups of some occurrences is laid out and what
its totals are. The larger duplicates come first, and those of one size in the order of the groups.
A duplicate is counted by its places, of which there are two at least. The totals count the files
and the occurrences before the rules are applied, and the duplicates and their places after it.

The rules only take occurrences away. So a duplicate has no more places than its group has members
(`Report.count_of_duplicate?`), the groups with more than one member bound the number of duplicates
(`Report.length_duplicates_le`), and the occurrences bound the number of places
(`Report.total_counts_le`).
-/

namespace Homonym

/-- The identity that a duplicate lists. -/
def Duplicate.identity (d : Duplicate) : Identity :=
  ⟨d.name, d.kind⟩

theorem total_cons (n : Nat) (counts : List Nat) : total (n :: counts) = n + total counts := rfl

theorem total_perm {counts counts' : List Nat} (h : counts.Perm counts') :
    total counts = total counts' := by
  induction h with
  | nil => rfl
  | cons n _ ih => rw [total_cons, total_cons, ih]
  | swap n m _ => exact Nat.add_left_comm m n _
  | trans _ _ ih ih' => exact ih.trans ih'

namespace Report

/-- The report ranks duplicates of the groups by size and then by the order of the groups, and its
totals are those of the groups and of the duplicates. -/
structure Summarizes (report : Report) (totalFiles : Nat) (groups : List Group) : Prop where
  by_count : report.duplicates.Pairwise fun a b => b.count ≤ a.count
  ties_by_group : report.duplicates.Pairwise fun a b => a.count = b.count →
    (groups.map Group.identity).idxOf a.identity < (groups.map Group.identity).idxOf b.identity
  identity_mem : ∀ d ∈ report.duplicates, d.identity ∈ groups.map Group.identity
  count_eq : ∀ d ∈ report.duplicates, d.count = d.locations.length
  two_le_count : ∀ d ∈ report.duplicates, 2 ≤ d.count
  totalFiles_eq : report.summary.totalFiles = totalFiles
  totalDeclarations_eq : report.summary.totalDeclarations =
    total (groups.map fun g => g.members.length)
  duplicateGroups_eq : report.summary.duplicateGroups = report.duplicates.length
  duplicateDeclarations_eq : report.summary.duplicateDeclarations =
    total (report.duplicates.map Duplicate.count)
  duplicateGroups_le : report.summary.duplicateGroups ≤
    groups.countP fun g => 1 < g.members.length
  duplicateDeclarations_le : report.summary.duplicateDeclarations ≤
    report.summary.totalDeclarations

/-! ## What the rules leave -/

theorem count_of_duplicate? {rules : RuleSet} {g : Group} {d : Duplicate}
    (h : duplicate? rules g = some d) :
    d.count = d.locations.length ∧ 2 ≤ d.count ∧ d.count ≤ g.members.length := by
  simp only [duplicate?] at h
  split at h
  · rename_i hRepeated
    cases h
    refine ⟨(List.length_map _).symm, of_decide_eq_true hRepeated, ?_⟩
    exact (rules.apply_sublist g.identity.kind g.members).length_le
  · cases h

theorem length_duplicates_le (rules : RuleSet) (groups : List Group) :
    (groups.filterMap (duplicate? rules)).length ≤
      groups.countP fun g => 1 < g.members.length := by
  rw [List.length_filterMap_eq_countP]
  refine List.countP_mono_left fun g _ hSome => ?_
  obtain ⟨d, hListed⟩ := Option.isSome_iff_exists.1 hSome
  obtain ⟨-, hTwo, hLe⟩ := count_of_duplicate? hListed
  exact decide_eq_true (hTwo.trans hLe)

theorem total_counts_le (rules : RuleSet) (groups : List Group) :
    total ((groups.filterMap (duplicate? rules)).map Duplicate.count) ≤
      total (groups.map fun g => g.members.length) := by
  induction groups with
  | nil => exact Nat.le_refl _
  | cons g rest ih =>
    rw [List.map_cons, total_cons]
    cases hListed : duplicate? rules g with
    | none =>
      rw [List.filterMap_cons_none hListed]
      omega
    | some d =>
      obtain ⟨-, -, hLe⟩ := count_of_duplicate? hListed
      rw [List.filterMap_cons_some hListed, List.map_cons, total_cons]
      omega

/-! ## The order -/

/-- Groups with different identities are told apart by their places. -/
theorem pairwise_idxOf {groups : List Group} (h : (groups.map Group.identity).Nodup) :
    groups.Pairwise fun g g' =>
      (groups.map Group.identity).idxOf g.identity <
        (groups.map Group.identity).idxOf g'.identity := by
  have hPlace : ∀ (i : Nat) (hi : i < groups.length),
      (groups.map Group.identity).idxOf groups[i].identity = i := by
    intro i hi
    have hPlaces := h.idxOf_getElem i (by rwa [List.length_map])
    rwa [List.getElem_map] at hPlaces
  rw [List.pairwise_iff_getElem]
  intro i j hi hj hLess
  rw [hPlace i hi, hPlace j hj]
  exact hLess

/-- Duplicates of one size come in the order of their groups. -/
theorem pairwise_build (rules : RuleSet) (totalFiles : Nat) {groups : List Group}
    (h : (groups.map Group.identity).Nodup) :
    (build rules totalFiles groups).duplicates.Pairwise fun a b =>
      b.count ≤ a.count ∧ (a.count = b.count →
        (groups.map Group.identity).idxOf a.identity <
          (groups.map Group.identity).idxOf b.identity) := by
  refine pairwise_sortedDuplicates ?_
  rw [List.pairwise_filterMap]
  refine (pairwise_idxOf h).imp ?_
  intro g g' hLess d hListed d' hListed'
  have hFirst : d.identity = g.identity := duplicate?_identity hListed
  have hSecond : d'.identity = g'.identity := duplicate?_identity hListed'
  rw [hFirst, hSecond]
  exact hLess

/-- **The order and the totals of a report.** -/
theorem summarizes_build (filter : Filter) (rules : RuleSet) (totalFiles : Nat)
    (occurrences : List Occurrence) :
    (build rules totalFiles (Grouping.of filter occurrences).1).Summarizes totalFiles
      (Grouping.of filter occurrences).1 := by
  have hNodup := Grouping.nodup_identity_of filter occurrences
  generalize (Grouping.of filter occurrences).1 = groups at hNodup
  have hOrder := pairwise_build rules totalFiles hNodup
  have hPerm : (build rules totalFiles groups).duplicates.Perm
      (groups.filterMap (duplicate? rules)) := List.mergeSort_perm _ _
  have hGroup : ∀ d ∈ (build rules totalFiles groups).duplicates,
      ∃ g ∈ groups, duplicate? rules g = some d := fun d hMem =>
    List.mem_filterMap.1 (hPerm.mem_iff.1 hMem)
  refine
    { by_count := hOrder.imp And.left
      ties_by_group := hOrder.imp And.right
      identity_mem := ?_
      count_eq := ?_
      two_le_count := ?_
      totalFiles_eq := rfl
      totalDeclarations_eq := rfl
      duplicateGroups_eq := rfl
      duplicateDeclarations_eq := rfl
      duplicateGroups_le := ?_
      duplicateDeclarations_le := ?_ }
  · intro d hMem
    obtain ⟨g, hg, hListed⟩ := hGroup d hMem
    exact List.mem_map.2 ⟨g, hg, (duplicate?_identity hListed).symm⟩
  · intro d hMem
    obtain ⟨g, -, hListed⟩ := hGroup d hMem
    exact (count_of_duplicate? hListed).1
  · intro d hMem
    obtain ⟨g, -, hListed⟩ := hGroup d hMem
    exact (count_of_duplicate? hListed).2.1
  · exact hPerm.length_eq.le.trans (length_duplicates_le rules groups)
  · have hTotal := total_perm (hPerm.map Duplicate.count)
    exact hTotal.le.trans (total_counts_le rules groups)

end Report

end Homonym
