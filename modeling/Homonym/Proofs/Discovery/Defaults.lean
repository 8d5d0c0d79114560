import Homonym.Proofs.Discovery.Pruning
import Homonym.Proofs.Pattern.AnyDepth

/-!
# What is found by default

All default patterns are for every depth: they ask for the ending of the last name, or for a
directory of some name on the way. So the names on the way to a file tell whether a walk of the root
`.` finds it (`walk_finds_by_default`).

An exclude pattern that asks for an ending speaks of every name on the way, and not of the last one
alone, since the directories above a file are looked at as well (`rejects_anyDepth_iff`).
-/

namespace Homonym.Discovery

open Pattern
open IgnoreList (Matched)

/-! ## Patterns for every depth -/

/-- The patterns of the files with some endings, and of what is below directories of some names. -/
def anyDepth (endings dirs : List String) : List String :=
  endings.map ("**/*" ++ ·) ++ dirs.map fun dir => "**/" ++ dir ++ "/**"

theorem matched_map {texts : List String} {glob : String → Glob} {path : String} {isDir : Bool} :
    Matched (texts.map fun text => ⟨glob text, false, false⟩) path isDir ↔
      ∃ text ∈ texts, (glob text).accepts (bytes path.toList) = true := by
  simp [Matched, IgnoreRule.accepts]

section AnyDepth

variable {endings dirs : List String}
  (hEndings : ∀ ending ∈ endings, isOrdinaryEnding ending = true)
  (hDirs : ∀ dir ∈ dirs, dir.toList.all isOrdinary = true)
  (hUsable : unusable (anyDepth endings dirs) = false)
include hEndings hDirs hUsable

theorem patternRules_anyDepth :
    patternRules (anyDepth endings dirs) =
      endings.map (fun ending => ⟨.ending ending, false, false⟩) ++
        dirs.map fun dir => ⟨.inside dir, false, false⟩ := by
  have hRead : rulesRead (anyDepth endings dirs) =
      endings.map (fun ending => ⟨.ending ending, false, false⟩) ++
        dirs.map fun dir => ⟨.inside dir, false, false⟩ := by
    rw [rulesRead, anyDepth, List.filterMap_append, List.filterMap_map, List.filterMap_map,
      ← List.filterMap_eq_map, ← List.filterMap_eq_map]
    refine congrArg₂ _ (List.filterMap_congr fun ending hMem => ?_)
      (List.filterMap_congr fun dir hMem => ?_)
    · simp only [Function.comp_apply, IgnoreRule.ofLine?, IgnoreRule.parse_ending (hEndings _ hMem)]
    · simp only [Function.comp_apply, IgnoreRule.ofLine?, IgnoreRule.parse_inside (hDirs _ hMem)]
  rw [patternRules_eq, hUsable, hRead]
  rfl

theorem negated_of_mem_anyDepth :
    ∀ rule ∈ patternRules (anyDepth endings dirs), rule.negated = false := by
  rw [patternRules_anyDepth hEndings hDirs hUsable]
  simp +contextual [or_imp, forall_and]

theorem matched_anyDepth_iff {names : List String} (hNames : ∀ n ∈ names, Path.isName n = true)
    (isDir : Bool) :
    Matched (patternRules (anyDepth endings dirs)) ("/".intercalate names) isDir ↔
      (∃ ending ∈ endings, ∃ last ∈ names.getLast?, ending.toList <:+ last.toList) ∨
        ∃ dir ∈ dirs, dir ∈ names.dropLast := by
  rw [patternRules_anyDepth hEndings hDirs hUsable, IgnoreList.matched_append, matched_map,
    matched_map]
  refine or_congr ?_ ?_
  · exact exists_congr fun ending => and_congr_right fun hMem =>
      Glob.accepts_ending (hEndings ending hMem) hNames
  · exact exists_congr fun dir => and_congr_right fun hMem =>
      Glob.accepts_inside (hDirs dir hMem) hNames

/-! ## Selections -/

variable {options : DiscoveryOptions} {entries : List (String × Node)}

/-- Patterns for every depth want the files whose name has one of the endings, and what is below
one of the directories. -/
theorem takes_anyDepth_iff (hIncludes : options.includes = anyDepth endings dirs)
    {names : List String} (hNames : ∀ n ∈ names, Path.isName n = true) :
    (selectionNamed options entries ".").takes ("/".intercalate names) = true ↔
      (∃ ending ∈ endings, ∃ last ∈ names.getLast?, ending.toList <:+ last.toList) ∨
        ∃ dir ∈ dirs, dir ∈ names.dropLast := by
  have hKept := negated_of_mem_anyDepth hEndings hDirs hUsable
  rw [← matched_anyDepth_iff hEndings hDirs hUsable hNames false,
    ← IgnoreList.verdictStripped_eq_ignored_iff hKept "."]
  simp only [Selection.takes, selectionNamed, hIncludes, IgnoreList.verdict, strip_here _ hNames,
    beq_iff_eq]

/-- **Patterns for every depth pass over a path by any name on it.** -/
theorem rejects_anyDepth_iff (hExcludes : skipRules options entries =
      patternRules (anyDepth endings dirs))
    {names : List String} (hNames : ∀ n ∈ names, Path.isName n = true) (isDir : Bool) :
    (selectionNamed options entries ".").rejects ("/".intercalate names) isDir = true ↔
      (∃ name ∈ names, ∃ ending ∈ endings, ending.toList <:+ name.toList) ∨
        ∃ dir ∈ names.dropLast, dir ∈ dirs := by
  have hKept := hExcludes ▸ negated_of_mem_anyDepth hEndings hDirs hUsable
  have hMatched : ∀ way rest, names = way ++ rest → ∀ isDir,
      (Matched (skipRules options entries) ("/".intercalate way) isDir ↔
        (∃ ending ∈ endings, ∃ last ∈ way.getLast?, ending.toList <:+ last.toList) ∨
          ∃ dir ∈ dirs, dir ∈ way.dropLast) := by
    intro way rest hSplit isDir
    rw [hExcludes]
    refine matched_anyDepth_iff hEndings hDirs hUsable (fun n hn => hNames n ?_) isDir
    exact hSplit ▸ List.mem_append_left _ hn
  rw [rejects_here_iff hKept hNames]
  constructor
  · have hWhole : ∀ way rest, names = way ++ rest →
        ((∃ ending ∈ endings, ∃ last ∈ way.getLast?, ending.toList <:+ last.toList) ∨
          ∃ dir ∈ dirs, dir ∈ way.dropLast) →
        (∃ name ∈ names, ∃ ending ∈ endings, ending.toList <:+ name.toList) ∨
          ∃ dir ∈ names.dropLast, dir ∈ dirs := by
      rintro way rest rfl (⟨ending, hEnding, last, hLast, hEnds⟩ | ⟨dir, hDir, hMem⟩)
      · have hName := List.mem_append_left rest (List.mem_of_getLast? hLast)
        exact .inl ⟨last, hName, ending, hEnding, hEnds⟩
      · refine .inr ⟨dir, ?_, hDir⟩
        rcases eq_or_ne rest [] with rfl | hRest
        · rwa [List.append_nil]
        · rw [List.dropLast_append_of_ne_nil hRest]
          exact List.mem_append_left _ ((List.dropLast_prefix way).subset hMem)
    rintro (hHere | ⟨way, rest, hSplit, -, hAbove⟩)
    · exact hWhole names [] (by simp) ((hMatched names [] (by simp) isDir).1 hHere)
    · exact hWhole way rest hSplit ((hMatched way rest hSplit true).1 hAbove)
  · rintro (⟨name, hName, ending, hEnding, hEnds⟩ | ⟨dir, hMem, hDir⟩)
    · obtain ⟨front, back, rfl⟩ := List.append_of_mem hName
      have hWay : ∀ isDir, Matched (skipRules options entries)
          ("/".intercalate (front ++ [name])) isDir := fun isDir =>
        (hMatched _ back (by simp) isDir).2
          (.inl ⟨ending, hEnding, name, List.getLast?_concat, hEnds⟩)
      by_cases hBack : back = []
      · subst hBack
        exact .inl (hWay isDir)
      · exact .inr ⟨front ++ [name], back, by simp, hBack, hWay true⟩
    · exact .inl ((hMatched names [] (by simp) isDir).2 (.inr ⟨dir, hDir, hMem⟩))

end AnyDepth

/-! ## The defaults -/

theorem defaultIncludes_eq : defaultIncludes = anyDepth [".ts", ".tsx"] [] := by decide

theorem defaultExcludes_eq :
    defaultExcludes =
      anyDepth [".test.ts", ".spec.ts", ".d.ts"] ["node_modules", "dist", "build"] := by
  decide

/-- **What a walk finds by default.** Without an ignore file, a walk of the root `.` finds the files
whose name has one of the two endings, unless their name or one on the way begins with a dot or has
an ending of tests and declarations, or a directory on the way is named as one that holds what is
made or fetched. They come depth first, and in every directory in the order of the bytes of the
names. -/
theorem walk_finds_by_default {entries : List (String × Node)}
    (hPlain : (Node.dir entries).isPlain = true)
    (hIgnore : Node.entry? ".gitignore" entries = none) :
    ∃ found : List Place,
      walk (.dir entries) {} "." = found.map (fun place => .ok (Path.below "." place)) ∧
      found.Pairwise Node.Precedes ∧
      ∀ place, place ∈ found ↔
        (∃ content, (Node.dir entries).at? place = some (.file content)) ∧
        (∀ name ∈ place, name.toList.head? ≠ some '.') ∧
        (∃ last ∈ place.getLast?, ".ts".toList <:+ last.toList ∨ ".tsx".toList <:+ last.toList) ∧
        (∀ name ∈ place, ∀ ending ∈ [".test.ts", ".spec.ts", ".d.ts"],
          ¬ending.toList <:+ name.toList) ∧
        ∀ dir ∈ place.dropLast, dir ∉ ["node_modules", "dist", "build"] := by
  have hSkip : skipRules {} entries = patternRules
      (anyDepth [".test.ts", ".spec.ts", ".d.ts"] ["node_modules", "dist", "build"]) := by
    have hNone : ignoreRules {} entries = [] := by rw [ignoreRules, hIgnore]
    rw [skipRules, hNone, List.append_nil, ← defaultExcludes_eq]
  have hEndings : ∀ ending ∈ [".test.ts", ".spec.ts", ".d.ts"],
      isOrdinaryEnding ending = true := by decide
  have hDirs : ∀ dir ∈ ["node_modules", "dist", "build"],
      dir.toList.all isOrdinary = true := by decide
  have hUsable : unusable (anyDepth [".test.ts", ".spec.ts", ".d.ts"]
      ["node_modules", "dist", "build"]) = false := by decide +kernel
  have hWanted : ∀ ending ∈ [".ts", ".tsx"], isOrdinaryEnding ending = true := by decide
  have hUsable' : unusable (anyDepth [".ts", ".tsx"] []) = false := by decide +kernel
  have hKept : ∀ rule ∈ skipRules {} entries, rule.negated = false :=
    hSkip ▸ negated_of_mem_anyDepth hEndings hDirs hUsable
  obtain ⟨found, hWalk, hOrder, hFound⟩ := exists_found_here hKept hPlain
  refine ⟨found, hWalk, hOrder, fun place => ?_⟩
  rw [hFound place]
  refine and_congr_right fun hFile => ?_
  obtain ⟨content, hFile⟩ := hFile
  have hNames : ∀ name ∈ place, Path.isName name = true :=
    Node.isName_of_mem_places hPlain ((Node.mem_places hPlain).2 ⟨content, hFile⟩)
  refine and_congr ?hidden (and_congr ?wanted ?kept)
  case hidden =>
    simp [Walk.isHidden]
  case wanted =>
    rw [takes_anyDepth_iff hWanted (by simp) hUsable' defaultIncludes_eq hNames]
    simp only [List.exists_mem_cons_iff, List.not_mem_nil, false_and, exists_false, or_false,
      and_or_left, exists_or]
  case kept =>
    rw [← Bool.not_eq_true, rejects_anyDepth_iff hEndings hDirs hUsable hSkip hNames, not_or]
    simp only [not_exists, not_and]

/-- Files at the root and below, in a directory that is named as a test, in a hidden one and in one
that holds what is made. -/
theorem walk_finds_by_default_in_lib :
    let entries : List (String × Node) :=
      [(".cache", .dir [("a.ts", .file (.text ""))]),
        ("app.test.ts", .dir [("main.ts", .file (.text ""))]),
        ("build.ts", .file (.text "")),
        ("lib", .dir [("dist", .dir [("b.ts", .file (.text ""))]),
          ("view.d.ts", .file (.text "")), ("view.tsx", .file (.text ""))])]
    (Node.dir entries).isPlain = true ∧ Node.entry? ".gitignore" entries = none ∧
      ∃ found : List Place,
        walk (.dir entries) {} "." = found.map (fun place => .ok (Path.below "." place)) ∧
        ["build.ts"] ∈ found ∧ ["lib", "view.tsx"] ∈ found ∧ [".cache", "a.ts"] ∉ found ∧
        ["app.test.ts", "main.ts"] ∉ found ∧ ["lib", "dist", "b.ts"] ∉ found ∧
        ["lib", "view.d.ts"] ∉ found := by
  intro entries
  have hPlain : (Node.dir entries).isPlain = true := by decide
  have hIgnore : Node.entry? ".gitignore" entries = none := by decide
  obtain ⟨found, hWalk, -, hFound⟩ := walk_finds_by_default hPlain hIgnore
  refine ⟨hPlain, hIgnore, found, hWalk, (hFound _).2 ?_, (hFound _).2 ?_, fun hMem => ?_,
    fun hMem => ?_, fun hMem => ?_, fun hMem => ?_⟩
  · exact ⟨⟨.text "", rfl⟩, by decide, ⟨"build.ts", rfl, by decide⟩, by decide, by decide⟩
  · exact ⟨⟨.text "", rfl⟩, by decide, ⟨"view.tsx", rfl, by decide⟩, by decide, by decide⟩
  · exact absurd ((hFound _).1 hMem).2.1 (by decide)
  · exact absurd ((hFound _).1 hMem).2.2.2.1 (by decide)
  · exact absurd ((hFound _).1 hMem).2.2.2.2 (by decide)
  · exact absurd ((hFound _).1 hMem).2.2.2.1 (by decide)

end Homonym.Discovery
