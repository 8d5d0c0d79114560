import Homonym.Proofs.Duplicates.Listed

/-!
# The files of a duplicate

Where duplicates must cross files, the test for that looks at all countable occurrences of an
identity, and the cap cuts the list only afterwards. So every listed identity is declared in two
files at least, but the places that are listed may still lie in one: the cap may leave only the
occurrences of the first file. `Report.spread_of_mem` says exactly when.

Merged overloads are no such case. They lie in different files, and at least two of them are listed
(`fileCount_take_firstInFile`).
-/

namespace Homonym

theorem fileCount_duplicateOf (i : Identity) (occurrences : List Occurrence) :
    (Duplicate.of i occurrences).fileCount = fileCount occurrences := by
  have hFiles : (occurrences.map Occurrence.location).map Location.file =
      occurrences.map Occurrence.file := by
    rw [List.map_map]
    rfl
  rw [Duplicate.fileCount, Duplicate.of, distinctCount_eq_card, hFiles, fileCount]

theorem nodup_firstInFile (occurrences : List Occurrence) :
    ((firstInFile occurrences).map Occurrence.file).Nodup := by
  rw [firstInFile, ← firstPer_eq_earliest]
  exact nodup_map_firstPer Occurrence.file occurrences

/-- Each of the first occurrences in their files adds a file. -/
theorem fileCount_take_firstInFile (occurrences : List Occurrence) (n : Nat) :
    fileCount ((firstInFile occurrences).take n) = ((firstInFile occurrences).take n).length := by
  have hNodup : (((firstInFile occurrences).take n).map Occurrence.file).Nodup :=
    ((List.take_sublist n _).map Occurrence.file).nodup (nodup_firstInFile occurrences)
  rw [fileCount, List.toFinset_card_of_nodup hNodup, List.length_map]

theorem fileCount_pos {occurrences : List Occurrence} (hSome : occurrences ≠ []) :
    0 < fileCount occurrences := by
  obtain ⟨o, rest, rfl⟩ := List.exists_cons_of_ne_nil hSome
  exact Finset.card_pos.2 ⟨o.file, by simp⟩

namespace RuleSet

/-- The cap cuts off every file but the first, because overloads are not merged. -/
def cutsToOneFile (rules : RuleSet) (kind : Kind) (occurrences : List Occurrence) : Prop :=
  let cap := rules.maxDuplicatesPerName.toInt
  0 < cap ∧ ¬(kind = .function ∧ rules.allowSameFileOverloads = true) ∧
    fileCount (occurrences.take cap.toNat) = 1

/-- The places that are listed lie in several files unless the cap cuts all but one off. -/
theorem two_le_fileCount_listed {rules : RuleSet} {kind : Kind} {occurrences : List Occurrence}
    (hFiles : 2 ≤ fileCount occurrences)
    (hListed : 2 ≤ rules.listedCount (rules.countable kind occurrences)) :
    2 ≤ fileCount ((rules.countable kind occurrences).take
        (rules.listedCount (rules.countable kind occurrences))) ↔
      ¬rules.cutsToOneFile kind occurrences := by
  have hLength := rules.length_listed (rules.countable kind occurrences)
  by_cases hMerged : kind = .function ∧ rules.allowSameFileOverloads = true
  · have hFirst : rules.countable kind occurrences = firstInFile occurrences := if_pos hMerged
    rw [hFirst] at hListed hLength ⊢
    rw [fileCount_take_firstInFile, hLength]
    exact iff_of_true hListed fun hCut => hCut.2.1 hMerged
  · have hAll : rules.countable kind occurrences = occurrences := if_neg hMerged
    rw [hAll] at hListed hLength ⊢
    by_cases hCap : 0 < rules.maxDuplicatesPerName.toInt
    · have hTake : occurrences.take (rules.listedCount occurrences) =
          occurrences.take rules.maxDuplicatesPerName.toInt.toNat := by
        rw [listedCount, if_neg (by omega), ← List.take_eq_take_min]
      have hPos : 0 < fileCount (occurrences.take (rules.listedCount occurrences)) :=
        fileCount_pos (List.ne_nil_of_length_pos (by omega))
      rw [hTake] at hPos ⊢
      simp only [cutsToOneFile, hCap, hMerged, not_false_eq_true, true_and]
      omega
    · have hCount : rules.listedCount occurrences = occurrences.length := if_pos (by omega)
      rw [hCount, List.take_length]
      exact iff_of_true hFiles fun hCut => hCap hCut.1

end RuleSet

namespace Report

theorem mem_duplicates_build {rules : RuleSet} {totalFiles : Nat} {groups : List Group}
    {d : Duplicate} :
    d ∈ (build rules totalFiles groups).duplicates ↔ ∃ g ∈ groups, duplicate? rules g = some d := by
  rw [← List.mem_filterMap]
  exact (List.mergeSort_perm _ _).mem_iff

/-- The occurrences behind an entry of a report are the admitted ones of its identity. -/
theorem exists_groupOf {filter : Filter} {rules : RuleSet} {totalFiles : Nat}
    {occurrences : List Occurrence} {d : Duplicate}
    (hMem : d ∈ (build rules totalFiles (Grouping.of filter occurrences).1).duplicates) :
    duplicate? rules
      ⟨⟨d.name, d.kind⟩,
        occurrences.filter fun o => filter.admits o ∧ o.name = d.name ∧ o.kind = d.kind⟩ =
      some d := by
  obtain ⟨g, hGroup, hSome⟩ := mem_duplicates_build.1 hMem
  rw [Grouping.of_fst] at hGroup
  obtain ⟨o, -, rfl⟩ := List.mem_map.1 hGroup
  have hIdentity : ⟨d.name, d.kind⟩ = o.identity := duplicate?_identity hSome
  have hMembers : (occurrences.filter filter.admits).filter (fun p => p.identity = o.identity) =
      occurrences.filter fun p => filter.admits p ∧ p.name = d.name ∧ p.kind = d.kind := by
    rw [List.filter_filter, ← hIdentity]
    refine List.filter_congr fun p _ => ?_
    simp [Occurrence.identity, Bool.and_comm]
  rw [← hMembers, hIdentity]
  exact hSome

/-- **Which duplicates spread over files.** Where duplicates must cross files, the admitted
occurrences of a listed identity lie in two files at least. The listed places do so as well, except
where the cap leaves only occurrences of one file. -/
theorem spread_of_mem {filter : Filter} {rules : RuleSet} {totalFiles : Nat}
    {occurrences : List Occurrence} {d : Duplicate}
    (hCross : rules.allowCrossModuleDuplicates = false)
    (hMem : d ∈ (build rules totalFiles (Grouping.of filter occurrences).1).duplicates) :
    let A := occurrences.filter fun o => filter.admits o ∧ o.name = d.name ∧ o.kind = d.kind
    2 ≤ fileCount A ∧ (2 ≤ d.fileCount ↔ ¬rules.cutsToOneFile d.kind A) := by
  intro A
  have hSome : duplicate? rules ⟨⟨d.name, d.kind⟩, A⟩ = some d := exists_groupOf hMem
  rw [duplicate?_eq] at hSome
  split at hSome
  · rename_i hReported
    obtain ⟨hCap, hLength, hSpread⟩ := hReported
    have hFiles : 2 ≤ fileCount A := hSpread.resolve_left (by simp [hCross])
    have hListed := (rules.one_lt_listedCount _).2 ⟨hCap, hLength⟩
    refine ⟨hFiles, ?_⟩
    rw [← RuleSet.two_le_fileCount_listed hFiles hListed, ← fileCount_duplicateOf ⟨d.name, d.kind⟩,
      Option.some.inj hSome]
  · cases hSome

/-- Two overloads in one file and one in another are listed as two places. -/
theorem overloads_spread :
    let rules : RuleSet := {}
    let occurrences : List Occurrence :=
      [⟨"area", .function, "a.ts", 1, 1, none, true⟩, ⟨"area", .function, "a.ts", 2, 1, none, true⟩,
        ⟨"area", .function, "b.ts", 1, 1, none, true⟩]
    let d : Duplicate :=
      ⟨"area", .function, 2, [⟨"a.ts", 1, 1, none⟩, ⟨"b.ts", 1, 1, none⟩]⟩
    let A := occurrences.filter fun o =>
      ({} : Filter).admits o ∧ o.name = d.name ∧ o.kind = d.kind
    rules.allowCrossModuleDuplicates = false ∧
      d ∈ (build rules 2 (Grouping.of {} occurrences).1).duplicates ∧
      2 ≤ fileCount A ∧ (2 ≤ d.fileCount ↔ ¬rules.cutsToOneFile d.kind A) := by
  intro rules occurrences d A
  have hMem : d ∈ (build rules 2 (Grouping.of {} occurrences).1).duplicates :=
    mem_duplicates_build.2 (by decide)
  exact ⟨rfl, hMem, spread_of_mem rfl hMem⟩

/-- A class that one file declares twice and another once is listed with the places of the first
file alone. -/
theorem class_listed_within_one_file :
    let rules : RuleSet := {}
    let occurrences : List Occurrence :=
      [⟨"Shape", .classType, "a.ts", 1, 1, none, true⟩,
        ⟨"Shape", .classType, "a.ts", 5, 1, none, true⟩,
        ⟨"Shape", .classType, "b.ts", 1, 1, none, true⟩]
    rules.allowCrossModuleDuplicates = false ∧
      ∃ d ∈ (build rules 2 (Grouping.of {} occurrences).1).duplicates, ¬2 ≤ d.fileCount := by
  intro rules occurrences
  refine ⟨rfl, ⟨"Shape", .classType, 2, [⟨"a.ts", 1, 1, none⟩, ⟨"a.ts", 5, 1, none⟩]⟩, ?_,
    by decide⟩
  exact mem_duplicates_build.2 (by decide)

end Report

end Homonym
