import Homonym.Proofs.Duplicates.InOrder
import Homonym.Proofs.Scan.Found
import Homonym.Proofs.Scan.WalkedFiles
import Homonym.Proofs.Source.Order
import Homonym.Proofs.Text.ByteOrder

/-!
# Scans report in order

The files of a scan come in the order of the names they are shown under, and the declarations of a
file in the order of its text. So the report is in order if no two files are shown under one name
(`Scan.inOrder_reportOn`). The names are compared as a whole: a walk comes to `a/b.ts` before
`a.ts`, but its name is the greater one.

In a tree whose names are text all files have different names, and the report of a scan is in order
(`inOrder_of_scan`). Names that are no text can be shown alike. The declarations of one such file
then stand before those of the other, wherever they are in their files, so the report need not be
in order (`Scan.inOrder_reportOn_iff`).
-/

namespace Homonym

theorem Location.notAfter_of_lt {a b : Location} (hFiles : a.file < b.file) : a.NotAfter b :=
  .inl (Pattern.bytes_lt hFiles)

theorem Location.notAfter_of_position {a b : Occurrence} (hFile : a.file = b.file)
    (hPosition : a.position ≤ b.position) : a.location.NotAfter b.location :=
  .inr ⟨hFile, Text.Position.le_iff.1 hPosition⟩

theorem Location.NotAfter.line_le {a b : Location} (hOrder : a.NotAfter b)
    (hFile : a.file = b.file) : a.line ≤ b.line := by
  rcases hOrder with hFiles | ⟨-, hLine | ⟨hLine, -⟩⟩
  · rw [hFile] at hFiles
    exact absurd hFiles (List.lt_irrefl _)
  · exact Nat.le_of_lt hLine
  · exact Nat.le_of_eq hLine

theorem inOrder_extract (text file : String) : InOrder (Source.extract text file) := by
  refine (Source.pairwise_extract text file).imp_of_mem fun ha hb hPosition => ?_
  have hFile := (Source.file_of_mem_extract ha).trans (Source.file_of_mem_extract hb).symm
  exact Location.notAfter_of_position hFile hPosition

namespace Scan

/-! ## Files that are shown under different names -/

section Different

variable {files : List FoundFile} (hNames : (files.map FoundFile.name).Nodup)
include hNames

theorem pairwise_name_sortFound :
    (sortFound files).Pairwise fun a b => a.name < b.name := by
  have hSorted : (sortFound files).Pairwise fun a b => a.name ≤ b.name :=
    (List.pairwise_mergeSort name_le_trans name_le_total files).imp of_decide_eq_true
  have hDistinct : ((sortFound files).map FoundFile.name).Nodup :=
    ((List.mergeSort_perm files _).map _).nodup_iff.2 hNames
  refine (hSorted.and (List.pairwise_map.1 hDistinct)).imp fun ⟨hLe, hNe⟩ => ?_
  exact String.not_le.1 fun hGe => hNe (String.le_antisymm hLe hGe)

theorem inOrder_declarationsIn : InOrder (declarationsIn files) := by
  have hSources : ((sortFound files).filterMap FoundFile.source?).Pairwise
      fun a b => a.1 < b.1 := by
    rw [List.pairwise_filterMap]
    refine (pairwise_name_sortFound hNames).imp fun hLess source hSource source' hSource' => ?_
    obtain ⟨text, -, rfl⟩ := Option.map_eq_some_iff.1 hSource
    obtain ⟨text', -, rfl⟩ := Option.map_eq_some_iff.1 hSource'
    exact hLess
  rw [declarationsIn, InOrder, List.pairwise_flatMap]
  refine ⟨fun source _ => inOrder_extract source.2 source.1, ?_⟩
  refine hSources.imp fun {a b} hLess o ho o' ho' => ?_
  rw [← Source.file_of_mem_extract ho, ← Source.file_of_mem_extract ho'] at hLess
  exact Location.notAfter_of_lt hLess

/-- The report on files that are shown under different names is in order. -/
theorem inOrder_reportOn (request : ScanRequest) : (reportOn request files).InOrder :=
  Report.inOrder_build (inOrder_declarationsIn hNames) _ _ _

end Different

end Scan

/-- **A scan of a tree reports in order.** Whenever a scan gives a report, however its workers took
turns, the places of every duplicate come in order; the larger duplicates come first, and those of
one size in the order of their first places. -/
theorem inOrder_of_scan {σ : Type} {monitor : Monitor σ} (hLatched : monitor.Latched)
    (turns : Nat → List Nat) {tree : FileTree} (hProper : tree.Proper) (request : ScanRequest)
    (root : String) (state : σ) {result : ScanResult}
    (hResult : ((scanInTurns monitor turns tree request root).start state).1 = .ok result) :
    result.report.InOrder := by
  have hWhole : wholeScan tree request root = .ok result := by
    rcases concludes_scanInTurns hLatched turns tree request root { state } with hEnd | ⟨-, hEnd⟩
    · exact hEnd.symm.trans hResult
    · cases hEnd.symm.trans hResult
  rw [report_eq_reportOn hWhole]
  refine Scan.inOrder_reportOn ?_ request
  rw [Scan.map_name_found]
  exact Scan.nodup_relative_walk hProper request root

namespace Scan

/-! ## Files that are shown alike -/

/-- Files without text, at some paths. -/
def unreadableAt (paths : List (List UInt8)) : List FoundFile :=
  paths.map fun path => { path, text? := none }

/-- Two files among others that have no text. -/
def amongUnreadable (a b c : List (List UInt8)) (first second : FoundFile) : List FoundFile :=
  unreadableAt a ++ first :: (unreadableAt b ++ second :: unreadableAt c)

theorem map_path_amongUnreadable (a b c : List (List UInt8)) (first second : FoundFile) :
    (amongUnreadable a b c first second).map FoundFile.path =
      a ++ first.path :: (b ++ second.path :: c) := by
  simp [amongUnreadable, unreadableAt, Function.comp_def]

/-- Of two files that are shown under one name the one that was found first stands first. -/
theorem sources_of_shown_alike {p q : List UInt8} (hSame : shownName p = shownName q)
    (a b c : List (List UInt8)) (text text' : String) :
    (sortFound (amongUnreadable a b c ⟨p, some text⟩ ⟨q, some text'⟩)).filterMap
        FoundFile.source? = [(shownName q, text), (shownName q, text')] := by
  generalize hFiles : amongUnreadable a b c ⟨p, some text⟩ ⟨q, some text'⟩ = files
  have hNone : ∀ paths, (unreadableAt paths).filterMap FoundFile.source? = [] := by
    intro paths
    simp [unreadableAt, FoundFile.source?]
  have hRead : files.filterMap FoundFile.source? = [(shownName q, text), (shownName q, text')] := by
    simp [← hFiles, amongUnreadable, hNone, FoundFile.source?, FoundFile.name, hSame]
  have hPair : [(⟨p, some text⟩ : FoundFile), ⟨q, some text'⟩].Sublist (sortFound files) := by
    refine List.pair_sublist_mergeSort name_le_trans name_le_total ?_ ?_
    · exact decide_eq_true (show shownName p ≤ shownName q from hSame ▸ String.le_refl _)
    · rw [← hFiles]
      refine .trans (.cons_cons _ ?_) (List.sublist_append_right _ _)
      exact .trans (.cons_cons _ (List.nil_sublist _)) (List.sublist_append_right _ _)
  have hLength : ((sortFound files).filterMap FoundFile.source?).length = 2 := by
    rw [sortFound, ((List.mergeSort_perm files _).filterMap _).length_eq, hRead]
    rfl
  have hSublist := hPair.filterMap FoundFile.source?
  simp only [FoundFile.source?, FoundFile.name, hSame, List.filterMap_cons, Option.map_some,
    List.filterMap_nil] at hSublist
  exact (hSublist.eq_of_length hLength.symm).symm

/-- Paths that are not all shown under different names have two among them that are shown alike. -/
theorem exists_shown_alike {paths : List (List UInt8)} (hAlike : ¬(paths.map shownName).Nodup) :
    ∃ a p b q c, paths = a ++ p :: (b ++ q :: c) ∧ shownName p = shownName q := by
  simp only [List.nodup_iff_sublist, not_forall, not_not] at hAlike
  obtain ⟨name, hTwice⟩ := hAlike
  obtain ⟨pair, hPair, hNames⟩ := List.sublist_map_iff.1 hTwice
  obtain ⟨p, rest, rfl, hp, hRest⟩ := List.map_eq_cons_iff.1 hNames.symm
  obtain ⟨q, rfl, hq⟩ := List.map_eq_singleton_iff.1 hRest
  obtain ⟨front, back, rfl, hFront, hBack⟩ := List.cons_sublist_iff.1 hPair
  obtain ⟨a, b, rfl⟩ := List.append_of_mem hFront
  obtain ⟨b', c, rfl⟩ := List.append_of_mem (List.singleton_sublist.1 hBack)
  exact ⟨a, p, b ++ b', q, c, by simp, hp.trans hq.symm⟩

/-- A class that is declared on some line of a file. -/
def classOnLine (file : String) (line : Nat) : Occurrence where
  name := "A"
  kind := .classType
  file
  line
  column := 1
  context := some "export class A \x7b\x7d"

/-- The class as it is listed if it is declared in some places. -/
def classDeclaredIn (places : List (String × Nat)) : Duplicate :=
  .of ⟨"A", .classType⟩ (places.map fun place => classOnLine place.1 place.2)

/-- The report on two files that are shown alike, of which the first declares a class on its second
line and the other on its first. -/
theorem duplicates_of_shown_alike {p q : List UInt8} (hSame : shownName p = shownName q)
    (a b c : List (List UInt8)) :
    (reportOn { rules := { allowCrossModuleDuplicates := true } } (amongUnreadable a b c
        ⟨p, some "\nexport class A \x7b\x7d"⟩ ⟨q, some "export class A \x7b\x7d"⟩)).duplicates =
      [classDeclaredIn [(shownName q, 2), (shownName q, 1)]] := by
  have hDeclared : declarationsIn (amongUnreadable a b c ⟨p, some "\nexport class A \x7b\x7d"⟩
      ⟨q, some "export class A \x7b\x7d"⟩) =
        [classOnLine (shownName q) 2, classOnLine (shownName q) 1] := by
    rw [declarationsIn, sources_of_shown_alike hSame]
    generalize shownName q = name
    have hSecond : Source.extract "\nexport class A \x7b\x7d" name = [classOnLine name 2] := rfl
    have hFirst : Source.extract "export class A \x7b\x7d" name = [classOnLine name 1] := rfl
    simp only [List.flatMap_cons, hSecond, hFirst, List.flatMap_nil, List.cons_append,
      List.nil_append]
  rw [reportOn, hDeclared]
  exact List.mergeSort_singleton (classDeclaredIn [(shownName q, 2), (shownName q, 1)])

/-- **Reports are in order exactly when no two files are shown alike**, whatever the files hold. -/
theorem inOrder_reportOn_iff (paths : List (List UInt8)) :
    (∀ files : List FoundFile, files.map FoundFile.path = paths →
        ∀ request, (reportOn request files).InOrder) ↔
      (paths.map shownName).Nodup := by
  constructor
  · intro hInOrder
    by_contra hAlike
    obtain ⟨a, p, b, q, c, rfl, hSame⟩ := exists_shown_alike hAlike
    have hOrder := (hInOrder _ (map_path_amongUnreadable a b c ⟨p, _⟩ ⟨q, _⟩) _).locations
      (classDeclaredIn [(shownName q, 2), (shownName q, 1)])
      (duplicates_of_shown_alike hSame a b c ▸ List.mem_singleton_self _)
    exact absurd ((List.pairwise_pair.1 hOrder).line_le rfl) (Nat.not_succ_le_self 1)
  · rintro hNames files rfl request
    rw [List.map_map] at hNames
    exact inOrder_reportOn hNames request

/-- Two names that are no text are both shown as `\uFFFD.ts`. The place on the fifth line of the one
file stands before that on the first line of the other. -/
theorem fifth_line_before_first :
    let files : List FoundFile :=
      [⟨[0x7A, 0x2E, 0x74, 0x73], some "export class A \x7b\x7d"⟩,
        ⟨[0xFE, 0x2E, 0x74, 0x73], some "\n\n\n\nexport class A \x7b\x7d"⟩,
        ⟨[0xFF, 0x2E, 0x74, 0x73], some "export class A \x7b\x7d"⟩]
    let report := reportOn { rules := { maxDuplicatesPerName := 0 } } files
    report.duplicates = [classDeclaredIn [("z.ts", 1), ("\uFFFD.ts", 5), ("\uFFFD.ts", 1)]] ∧
      ¬report.InOrder := by
  intro files report
  have hSorted : sortFound files = files := List.mergeSort_of_pairwise (by decide +kernel)
  have hDeclared : declarationsIn files =
      [classOnLine "z.ts" 1, classOnLine "\uFFFD.ts" 5, classOnLine "\uFFFD.ts" 1] := by
    rw [declarationsIn, hSorted]
    decide +kernel
  have hListed : report.duplicates =
      [classDeclaredIn [("z.ts", 1), ("\uFFFD.ts", 5), ("\uFFFD.ts", 1)]] := by
    simp only [report, reportOn, hDeclared]
    exact List.mergeSort_singleton
      (classDeclaredIn [("z.ts", 1), ("\uFFFD.ts", 5), ("\uFFFD.ts", 1)])
  refine ⟨hListed, fun hInOrder => ?_⟩
  have hOrder := hInOrder.locations _ (hListed ▸ List.mem_singleton_self _)
  have hLast := (List.pairwise_cons.1 hOrder).2
  exact absurd ((List.pairwise_pair.1 hLast).line_le rfl) (by decide)

end Scan

end Homonym
