import Mathlib.Data.Finset.Card
import Mathlib.Data.Fintype.Basic
import Homonym.Duplicates.Report
import Homonym.Proofs.Duplicates.Groups

/-!
# What a report lists

A report comes out of a chain of steps: the filter, the grouping, the merging of overloads, the
restriction to several files, the cap and the final test for repetition. For one identity the chain
has a closed form.

* `RuleSet.apply_eq` says what the rules leave of a group: nothing if the group must cross files and
  does not, and otherwise a front of the countable occurrences.
* `Report.listed_eq` says of every identity whether it is listed, how often it is counted and with
  which places.

The number of files is the same before and after the merging of overloads
(`fileCount_firstInFile`), so the restriction may be read off the admitted occurrences themselves.
-/

namespace Homonym

section FirstPer

variable {α β : Type} [DecidableEq β]

/-- The elements whose key no earlier element has. -/
def earliest (key : α → β) (l : List α) : List α :=
  (l.zipIdx.filter fun (x, i) => key x ∉ (l.take i).map key).map Prod.fst

theorem earliest_concat (key : α → β) (l : List α) (x : α) :
    earliest key (l ++ [x]) =
      if key x ∈ l.map key then earliest key l else earliest key l ++ [x] := by
  have hOld : l.zipIdx.filter (fun (y, i) => key y ∉ ((l ++ [x]).take i).map key) =
      l.zipIdx.filter fun (y, i) => key y ∉ (l.take i).map key := by
    refine List.filter_congr fun ⟨y, i⟩ hMem => ?_
    have hLt : i < l.length := List.snd_lt_of_mem_zipIdx hMem
    simp only [List.take_append_of_le_length (Nat.le_of_lt hLt)]
  rw [earliest, List.zipIdx_append, List.filter_append, hOld, List.map_append, ← earliest]
  by_cases hSeen : key x ∈ l.map key
  · simp_all
  · simp_all

theorem firstPer_eq_earliest (key : α → β) (l : List α) : firstPer key l = earliest key l := by
  induction l using List.reverseRecOn with
  | nil => rfl
  | append_singleton l x ih => rw [firstPer_concat, earliest_concat, ih]

/-- Of one key the first element is kept. -/
theorem filter_firstPer (key : α → β) (l : List α) (k : β) :
    (firstPer key l).filter (fun x => key x = k) = (l.find? fun x => key x = k).toList := by
  induction l with
  | nil => rfl
  | cons x rest ih =>
    by_cases hEq : key x = k
    · simp [firstPer, hEq]
    · rw [firstPer, List.filter_cons_of_neg (by simpa using hEq), List.filter_filter,
        List.find?_cons_of_neg (by simpa using hEq), ← ih]
      refine List.filter_congr fun y _ => ?_
      by_cases hKey : key y = k
      · simp [hKey, Ne.symm hEq]
      · simp [hKey]

theorem distinctCount_eq_card (key : α → β) (l : List α) :
    distinctCount key l = (l.map key).toFinset.card := by
  have hSame : ((firstPer key l).map key).toFinset = (l.map key).toFinset := by
    ext k
    simp only [List.mem_toFinset]
    exact mem_map_firstPer key l k
  rw [← hSame, List.toFinset_card_of_nodup (nodup_map_firstPer key l), List.length_map,
    distinctCount]

end FirstPer

/-- How many different files some occurrences lie in. -/
def fileCount (occurrences : List Occurrence) : Nat :=
  (occurrences.map Occurrence.file).toFinset.card

/-- The occurrences that no earlier one of the same file precedes. -/
def firstInFile (occurrences : List Occurrence) : List Occurrence :=
  earliest Occurrence.file occurrences

theorem fileCount_firstInFile (occurrences : List Occurrence) :
    fileCount (firstInFile occurrences) = fileCount occurrences := by
  unfold fileCount firstInFile
  congr 1
  ext file
  rw [← firstPer_eq_earliest, List.mem_toFinset, List.mem_toFinset]
  exact mem_map_firstPer _ _ _

theorem acrossFiles_eq (occurrences : List Occurrence) :
    acrossFiles occurrences = if 2 ≤ fileCount occurrences then occurrences else [] := by
  have hFiles : distinctCount Occurrence.file occurrences = fileCount occurrences :=
    distinctCount_eq_card Occurrence.file occurrences
  rw [acrossFiles, hFiles]
  by_cases hFew : fileCount occurrences ≤ 1
  · rw [if_pos hFew, if_neg (by omega)]
  · rw [if_neg hFew, if_pos (by omega)]

namespace RuleSet

/-- The occurrences of a kind that count, before any limit. -/
def countable (rules : RuleSet) (kind : Kind) (occurrences : List Occurrence) : List Occurrence :=
  if kind = .function ∧ rules.allowSameFileOverloads = true then firstInFile occurrences
  else occurrences

/-- How many of some occurrences are listed: all of them, or as many as the cap allows. -/
def listedCount (rules : RuleSet) (occurrences : List Occurrence) : Nat :=
  if rules.maxDuplicatesPerName.toInt ≤ 0 then occurrences.length
  else min rules.maxDuplicatesPerName.toInt.toNat occurrences.length

theorem fileCount_countable (rules : RuleSet) (kind : Kind) (occurrences : List Occurrence) :
    fileCount (rules.countable kind occurrences) = fileCount occurrences := by
  unfold countable
  split
  · exact fileCount_firstInFile occurrences
  · rfl

theorem cap?_cases (rules : RuleSet) :
    (rules.cap? = none ∧ ∀ l, rules.listedCount l = l.length) ∨
      ∃ cap, rules.cap? = some cap ∧ ∀ l, rules.listedCount l = min cap l.length := by
  unfold cap? listedCount
  by_cases hPos : 0 < rules.maxDuplicatesPerName.toInt
  · exact .inr ⟨_, if_pos hPos, fun l => if_neg (by omega)⟩
  · exact .inl ⟨if_neg hPos, fun l => if_pos (by omega)⟩

/-- **What the rules leave of a group.** -/
theorem apply_eq (rules : RuleSet) (kind : Kind) (occurrences : List Occurrence) :
    rules.apply kind occurrences =
      if rules.allowCrossModuleDuplicates = true ∨ 2 ≤ fileCount occurrences then
        (rules.countable kind occurrences).take
          (rules.listedCount (rules.countable kind occurrences))
      else [] := by
  have hMerged : (if rules.allowSameFileOverloads && kind == .function then onePerFile occurrences
      else occurrences) = rules.countable kind occurrences := by
    simp only [countable, firstInFile, ← firstPer_eq_earliest, onePerFile, Bool.and_eq_true,
      beq_iff_eq, and_comm]
  have hSpread : (if rules.allowCrossModuleDuplicates = true then rules.countable kind occurrences
      else acrossFiles (rules.countable kind occurrences)) =
        if rules.allowCrossModuleDuplicates = true ∨ 2 ≤ fileCount occurrences then
          rules.countable kind occurrences
        else [] := by
    rw [acrossFiles_eq, rules.fileCount_countable]
    by_cases hCross : rules.allowCrossModuleDuplicates = true
    · rw [if_pos hCross, if_pos (Or.inl hCross)]
    · simp only [hCross, Bool.false_eq_true, if_false, false_or]
  unfold apply
  simp only [hMerged, hSpread]
  obtain ⟨hCap, hCount⟩ | ⟨cap, hCap, hCount⟩ := rules.cap?_cases
  · simp only [hCap, hCount, List.take_length]
  · simp only [hCap, hCount, ← List.take_eq_take_min]
    split
    · rfl
    · exact List.take_nil

theorem length_listed (rules : RuleSet) (occurrences : List Occurrence) :
    (occurrences.take (rules.listedCount occurrences)).length = rules.listedCount occurrences := by
  rw [List.length_take, listedCount]
  split <;> omega

/-- A list is cut below two only if it has less than two, or the cap is one. -/
theorem one_lt_listedCount (rules : RuleSet) (occurrences : List Occurrence) :
    1 < rules.listedCount occurrences ↔
      rules.maxDuplicatesPerName.toInt ≠ 1 ∧ 2 ≤ occurrences.length := by
  unfold listedCount
  split <;> omega

end RuleSet

namespace Report

/-- The entries of a report for one identity. -/
def listed (report : Report) (name : String) (kind : Kind) : List Duplicate :=
  report.duplicates.filter fun d => d.name = name ∧ d.kind = kind

theorem duplicate?_eq (rules : RuleSet) (g : Group) :
    duplicate? rules g =
      if rules.maxDuplicatesPerName.toInt ≠ 1 ∧
          2 ≤ (rules.countable g.identity.kind g.members).length ∧
          (rules.allowCrossModuleDuplicates = true ∨ 2 ≤ fileCount g.members) then
        some (.of g.identity ((rules.countable g.identity.kind g.members).take
          (rules.listedCount (rules.countable g.identity.kind g.members))))
      else none := by
  simp only [duplicate?, isRepeated, rules.apply_eq, decide_eq_true_eq]
  by_cases hSpread : rules.allowCrossModuleDuplicates = true ∨ 2 ≤ fileCount g.members
  · simp only [hSpread, if_true, rules.length_listed, rules.one_lt_listedCount, and_true]
  · rw [if_neg hSpread, if_neg (by simp), if_neg (fun hAll => hSpread hAll.2.2)]

theorem duplicate?_identity {rules : RuleSet} {g : Group} {d : Duplicate}
    (hListed : duplicate? rules g = some d) : ⟨d.name, d.kind⟩ = g.identity := by
  rw [duplicate?_eq] at hListed
  split at hListed
  · cases hListed
    rfl
  · cases hListed

theorem duplicate?_of_members_nil (rules : RuleSet) (i : Identity) :
    duplicate? rules ⟨i, []⟩ = none := by
  have hEmpty : rules.countable i.kind [] = [] := by
    unfold RuleSet.countable
    split <;> rfl
  rw [duplicate?_eq, if_neg]
  simp [hEmpty]

/-- Of an identity there is one group or, if nothing of it is admitted, none. -/
theorem filter_groups (filter : Filter) (occurrences : List Occurrence) (i : Identity) :
    (Grouping.of filter occurrences).1.filter (fun g => g.identity = i) =
      if i ∈ (occurrences.filter filter.admits).map Occurrence.identity then
        [Grouping.groupOf (occurrences.filter filter.admits) i]
      else [] := by
  rw [Grouping.of_fst, List.filter_map]
  generalize occurrences.filter filter.admits = l
  have hOne : (firstPer Occurrence.identity l).filter
      ((fun g : Group => decide (g.identity = i)) ∘ fun o => Grouping.groupOf l o.identity) =
        (l.find? fun o => o.identity = i).toList := filter_firstPer Occurrence.identity l i
  rw [hOne]
  cases hFind : l.find? fun o => o.identity = i with
  | none =>
    have hNone : i ∉ l.map Occurrence.identity := by
      simpa [List.find?_eq_none] using hFind
    rw [if_neg hNone]
    rfl
  | some o =>
    have hIdentity : o.identity = i := by simpa using List.find?_some hFind
    have hMem : i ∈ l.map Occurrence.identity :=
      hIdentity ▸ List.mem_map_of_mem (List.mem_of_find?_eq_some hFind)
    rw [if_pos hMem, Option.toList_some, List.map_singleton, hIdentity]

/-- Before they are sorted, the entries of an identity are what its group gives. -/
theorem filter_duplicates (filter : Filter) (rules : RuleSet) (occurrences : List Occurrence)
    (i : Identity) :
    ((Grouping.of filter occurrences).1.filterMap (duplicate? rules)).filter
        (fun d => (⟨d.name, d.kind⟩ : Identity) = i) =
      (duplicate? rules (Grouping.groupOf (occurrences.filter filter.admits) i)).toList := by
  have hSelect : ∀ groups : List Group,
      (groups.filterMap (duplicate? rules)).filter
          (fun d => (⟨d.name, d.kind⟩ : Identity) = i) =
        (groups.filter fun g => g.identity = i).filterMap (duplicate? rules) := by
    intro groups
    rw [List.filter_filterMap, List.filterMap_filter]
    refine List.filterMap_congr fun g _ => ?_
    cases hListed : duplicate? rules g with
    | none => simp
    | some d => simp [Option.filter, duplicate?_identity hListed]
  rw [hSelect, filter_groups]
  by_cases hMem : i ∈ (occurrences.filter filter.admits).map Occurrence.identity
  · rw [if_pos hMem, List.filterMap_cons, List.filterMap_nil]
    split <;> simp_all
  · have hNone : (occurrences.filter filter.admits).filter (fun o => o.identity = i) = [] := by
      rw [List.filter_eq_nil_iff]
      intro o hAdmitted hIdentity
      exact hMem (List.mem_map.2 ⟨o, hAdmitted, of_decide_eq_true hIdentity⟩)
    rw [if_neg hMem, Grouping.groupOf, hNone, duplicate?_of_members_nil]
    rfl

/-- **Which duplicates a report lists, and how.** Here `A` are the admitted occurrences of an
identity and `B` those of them that count. -/
theorem listed_eq (filter : Filter) (rules : RuleSet) (totalFiles : Nat)
    (occurrences : List Occurrence) (name : String) (kind : Kind) :
    let A := occurrences.filter fun o => filter.admits o ∧ o.name = name ∧ o.kind = kind
    let B := if kind = .function ∧ rules.allowSameFileOverloads = true then firstInFile A else A
    let cap := rules.maxDuplicatesPerName.toInt
    let count := if cap ≤ 0 then B.length else min cap.toNat B.length
    listed (build rules totalFiles (Grouping.of filter occurrences).1) name kind =
      if cap ≠ 1 ∧ 2 ≤ B.length ∧ (rules.allowCrossModuleDuplicates = true ∨ 2 ≤ fileCount A) then
        [{ name, kind, count,
           locations := (B.take count).map fun o => ⟨o.file, o.line, o.column, o.context⟩ }]
      else [] := by
  intro A B cap count
  have hMembers : (occurrences.filter filter.admits).filter
      (fun o => o.identity = (⟨name, kind⟩ : Identity)) = A := by
    rw [List.filter_filter]
    refine List.filter_congr fun o _ => ?_
    simp [Occurrence.identity, Bool.and_comm]
  have hGroup : duplicate? rules
      (Grouping.groupOf (occurrences.filter filter.admits) ⟨name, kind⟩) =
      if cap ≠ 1 ∧ 2 ≤ B.length ∧ (rules.allowCrossModuleDuplicates = true ∨ 2 ≤ fileCount A) then
        some (.of ⟨name, kind⟩ (B.take count))
      else none := by
    rw [Grouping.groupOf, hMembers, duplicate?_eq]
    rfl
  have hPerm : (listed (build rules totalFiles (Grouping.of filter occurrences).1) name kind).Perm
      (duplicate? rules
        (Grouping.groupOf (occurrences.filter filter.admits) ⟨name, kind⟩)).toList := by
    rw [← filter_duplicates]
    simp only [Identity.mk.injEq]
    exact (List.mergeSort_perm _ _).filter _
  rw [hGroup] at hPerm
  split at hPerm
  · rename_i hReported
    have hCount : (B.take count).length = count := rules.length_listed B
    rw [if_pos hReported, List.perm_singleton.1 hPerm, Duplicate.of, hCount]
    rfl
  · rename_i hReported
    rw [if_neg hReported]
    exact hPerm.eq_nil

end Report

end Homonym
