import Homonym.Proofs.Discovery.Excluding
import Homonym.Proofs.Discovery.SeenPaths
import Homonym.Proofs.Path.Ancestors

/-!
# Directories that are not entered

A walk does not enter a directory that is passed over. Without an exclamation mark among the exclude
patterns and in the ignore file, that only saves work: what lies below such a directory is passed
over for itself as well, so the walk finds every wanted file (`walk_finds_all_wanted`).

A list of rules that take nothing back ignores a path if a rule matches it or a directory above it,
whichever rule that is (`IgnoreList.verdictUpward_eq_ignored_iff`). A directory and those above it
are all above what is below the directory. The root counts as one of them, under the empty path.
-/

namespace Homonym

open Pattern

/-! ## Rules that take nothing back -/

namespace Pattern.IgnoreList

/-- A rule of some list matches the path of a file or directory. -/
def Matched (rules : List IgnoreRule) (path : String) (isDir : Bool) : Prop :=
  ∃ rule ∈ rules, rule.accepts (bytes path.toList) isDir = true

theorem matched_append {rules more : List IgnoreRule} {path : String} {isDir : Bool} :
    Matched (rules ++ more) path isDir ↔ Matched rules path isDir ∨ Matched more path isDir := by
  simp only [Matched, List.mem_append, or_and_right, exists_or]

variable {rules : List IgnoreRule} (hKept : ∀ rule ∈ rules, rule.negated = false) (root : String)
include hKept

theorem verdictStripped_cases (path : String) (isDir : Bool) :
    (verdictStripped ⟨root, rules⟩ path.toList isDir = .ignored ∧ Matched rules path isDir) ∨
    (verdictStripped ⟨root, rules⟩ path.toList isDir = .unmatched ∧ ¬Matched rules path isDir) := by
  simp only [verdictStripped]
  cases hFind : rules.reverse.find? fun rule => rule.accepts (bytes path.toList) isDir with
  | some rule =>
    have hMem : rule ∈ rules := List.mem_reverse.1 (List.mem_of_find?_eq_some hFind)
    have hAccepts : rule.accepts (bytes path.toList) isDir = true :=
      List.find?_some (p := fun rule : IgnoreRule => rule.accepts (bytes path.toList) isDir) hFind
    exact .inl ⟨by simp [IgnoreRule.verdict, hKept rule hMem], rule, hMem, hAccepts⟩
  | none =>
    refine .inr ⟨rfl, fun hMatched => ?_⟩
    obtain ⟨rule, hMem, hAccepts⟩ := hMatched
    exact List.find?_eq_none.1 hFind rule (List.mem_reverse.2 hMem) hAccepts

theorem verdictStripped_eq_ignored_iff {path : String} {isDir : Bool} :
    verdictStripped ⟨root, rules⟩ path.toList isDir = .ignored ↔ Matched rules path isDir := by
  rcases verdictStripped_cases hKept root path isDir with ⟨hHere, hMatched⟩ | ⟨hHere, hMatched⟩
  · exact iff_of_true hHere hMatched
  · exact iff_of_false (by rw [hHere]; decide) hMatched

theorem firstVerdict_eq_ignored_iff (dirs : List String) :
    firstVerdict ⟨root, rules⟩ dirs = .ignored ↔ ∃ dir ∈ dirs, Matched rules dir true := by
  induction dirs with
  | nil => simp [firstVerdict]
  | cons dir dirs ih =>
    rw [List.exists_mem_cons_iff, ← ih, firstVerdict]
    rcases verdictStripped_cases hKept root dir true with ⟨hHere, hMatched⟩ | ⟨hHere, hMatched⟩
    · simp [hHere, hMatched]
    · simp [hHere, hMatched]

/-- **What rules that take nothing back ignore.** -/
theorem verdictUpward_eq_ignored_iff {path : String} (isDir : Bool)
    (hSeen : strip ⟨root, rules⟩ path.toList = path.toList) :
    verdictUpward ⟨root, rules⟩ path isDir = .ignored ↔
      Matched rules path isDir ∨ ∃ dir ∈ Path.ancestors path, Matched rules dir true := by
  rw [verdictUpward, hSeen, String.ofList_toList, ← firstVerdict_eq_ignored_iff hKept root]
  rcases verdictStripped_cases hKept root path isDir with ⟨hHere, hMatched⟩ | ⟨hHere, hMatched⟩
  · simp [hHere, hMatched]
  · simp [hHere, hMatched]

end Pattern.IgnoreList

namespace Discovery

open IgnoreList (Matched matched_append)

/-- Lines without an exclamation mark give no rule that takes something back. -/
theorem negated_of_mem_usable {number : Nat} {lines : List (List Char)}
    (hMarks : ∀ line ∈ lines, line.head? ≠ some '!') :
    ∀ rule ∈ usable (IgnoreList.readLines number lines).1, rule.negated = false := by
  intro rule hMem
  rw [usable] at hMem
  split at hMem
  · rw [IgnoreList.readLines_fst] at hMem
    obtain ⟨line, hLine, hRule⟩ := List.mem_filterMap.1 hMem
    exact IgnoreRule.negated_of_ofLine? (hMarks line hLine) hRule
  · cases hMem

/-- The rules of what is passed over below a root with given entries. -/
def skipRules (options : DiscoveryOptions) (entries : List (String × Node)) : List IgnoreRule :=
  patternRules options.excludes ++ ignoreRules options entries

theorem negated_of_mem_skipRules {options : DiscoveryOptions} {entries : List (String × Node)}
    (hExcludes : ∀ pattern ∈ options.excludes, pattern.toList.head? ≠ some '!')
    (hIgnore : ∀ content, Node.entry? ".gitignore" entries = some (.file content) →
      ∀ line ∈ (ignoreLines content).1, line.head? ≠ some '!') :
    ∀ rule ∈ skipRules options entries, rule.negated = false := by
  intro rule hMem
  rcases List.mem_append.1 hMem with hMem | hMem
  · exact negated_of_mem_usable (by simpa using hExcludes) rule hMem
  · rw [ignoreRules] at hMem
    split at hMem
    · rename_i content _ hEntry
      exact negated_of_mem_usable (hIgnore content hEntry) rule hMem
    · cases hMem

/-! ## The root `.` -/

/-- The root `.` is not taken off a path of names. -/
theorem strip_here (rules : List IgnoreRule) {names : List String}
    (hNames : ∀ n ∈ names, Path.isName n = true) :
    IgnoreList.strip ⟨".", rules⟩ ("/".intercalate names).toList =
      ("/".intercalate names).toList := by
  have hRoot : Path.same (String.ofList (dropDot ".".toList)) "." = true := by decide
  rw [IgnoreList.strip, hRoot]
  cases names with
  | nil => rfl
  | cons first names =>
    have hFirst := hNames first List.mem_cons_self
    cases names with
    | nil => exact dropDot_name hFirst
    | cons next rest =>
      rw [Path.toList_intercalate_cons]
      exact dropDot_inner hFirst _

section Here

variable {options : DiscoveryOptions} {entries : List (String × Node)}
  (hKept : ∀ rule ∈ skipRules options entries, rule.negated = false)
include hKept

/-- **What is passed over below the root `.`.** -/
theorem rejects_here_iff {names : List String} (hNames : ∀ n ∈ names, Path.isName n = true)
    (isDir : Bool) :
    (selectionNamed options entries ".").rejects ("/".intercalate names) isDir = true ↔
      Matched (skipRules options entries) ("/".intercalate names) isDir ∨
      ∃ way rest, names = way ++ rest ∧ rest ≠ [] ∧
        Matched (skipRules options entries) ("/".intercalate way) true := by
  obtain ⟨hExcludes, hIgnore⟩ := List.forall_mem_append.1 hKept
  have hAbove : ∀ rules, (∃ dir ∈ Path.ancestors ("/".intercalate names), Matched rules dir true) ↔
      ∃ way rest, names = way ++ rest ∧ rest ≠ [] ∧ Matched rules ("/".intercalate way) true := by
    intro rules
    simp only [Path.mem_ancestors hNames]
    constructor
    · rintro ⟨dir, ⟨way, rest, hSplit, hRest, rfl⟩, hDir⟩
      exact ⟨way, rest, hSplit, hRest, hDir⟩
    · rintro ⟨way, rest, hSplit, hRest, hDir⟩
      exact ⟨_, ⟨way, rest, hSplit, hRest, rfl⟩, hDir⟩
  simp only [Selection.rejects, selectionNamed, Bool.or_eq_true, beq_iff_eq, skipRules,
    matched_append,
    IgnoreList.verdictUpward_eq_ignored_iff hExcludes "." isDir (strip_here _ hNames),
    IgnoreList.verdictUpward_eq_ignored_iff hIgnore "." isDir (strip_here _ hNames), hAbove]
  simp only [and_or_left, exists_or]
  exact or_or_or_comm

/-- What is below a directory that is passed over is passed over. -/
theorem rejects_here_append {way rest : List String}
    (hNames : ∀ n ∈ way ++ rest, Path.isName n = true) (hRest : rest ≠ [])
    (hRejects : (selectionNamed options entries ".").rejects ("/".intercalate way) true = true)
    (isDir : Bool) :
    (selectionNamed options entries ".").rejects ("/".intercalate (way ++ rest)) isDir = true := by
  have hWay : ∀ n ∈ way, Path.isName n = true := fun n hn => hNames n (List.mem_append_left _ hn)
  rw [rejects_here_iff hKept hNames]
  right
  rcases (rejects_here_iff hKept hWay true).1 hRejects with hHere | ⟨front, back, rfl, -, hAbove⟩
  · exact ⟨way, rest, rfl, hRest, hHere⟩
  · exact ⟨front, back ++ rest, List.append_assoc _ _ _, by simp [hRest], hAbove⟩

/-- **What a walk of the root `.` finds.** -/
theorem exists_found_here (hPlain : (Node.dir entries).isPlain = true) :
    ∃ found : List Place,
      walk (.dir entries) options "." = found.map (fun place => .ok (Path.below "." place)) ∧
      found.Pairwise Node.Precedes ∧
      ∀ place, place ∈ found ↔
        (∃ content, (Node.dir entries).at? place = some (.file content)) ∧
        (options.skipHidden = true → ∀ name ∈ place, Walk.isHidden name = false) ∧
        (selectionNamed options entries ".").takes ("/".intercalate place) = true ∧
        (selectionNamed options entries ".").rejects ("/".intercalate place) false = false := by
  let w : Walk := ⟨.dir entries, ".", options.followLinks, options.skipHidden,
    selectionNamed options entries "."⟩
  have hWalk : walk (.dir entries) options "." = w.outcomes := by
    rw [walk, prepare_fst, selection_here options hPlain]
  have hRoot : "." ≠ "" := by decide
  have hUp : (Path.components ".").getLast? ≠ some .up := by decide
  have hRootPath : w.relative w.rootEntry = "" := Walk.relative_rootEntry hRoot hUp
  obtain ⟨found, hOutcomes, hOrder, hFound⟩ :=
    Walk.exists_found (w := w) hPlain (FileTree.lookup_here entries)
  refine ⟨found, hWalk.trans hOutcomes, hOrder, fun place => ?_⟩
  rw [hFound place, hRootPath]
  refine and_congr_right fun hFile => and_congr_right fun _ => and_congr_right fun _ => ?_
  obtain ⟨content, hFile⟩ := hFile
  have hMem : place ∈ Node.placesOf entries := by
    rw [← Node.places]
    exact (Node.mem_places hPlain).2 ⟨content, hFile⟩
  obtain ⟨hSome, hNames⟩ := place_of_mem hPlain hMem
  refine and_iff_left_of_imp fun hFree => ?_
  -- A directory on the way that is passed over, the root or another, would take the file with it.
  have hWays : ∀ way rest, place = way ++ rest → rest ≠ [] →
      (selectionNamed options entries ".").rejects ("/".intercalate way) true = false := by
    rintro way rest rfl hRest
    refine Bool.eq_false_iff.2 fun hRejects => Bool.eq_false_iff.1 hFree ?_
    exact rejects_here_append hKept hNames hRest hRejects false
  exact ⟨fun way rest hSplit _ hRest => hWays way rest hSplit hRest, hWays [] place rfl hSome⟩

end Here

/-- **Not entering a directory loses no file.** If no exclude pattern and no line of the ignore file
takes anything back, a walk of the root `.` finds the files that are wanted and not passed over
themselves, whatever the directories on the way; and what is below a directory that is passed over
is passed over itself. -/
theorem walk_finds_all_wanted {entries : List (String × Node)} {options : DiscoveryOptions}
    (hPlain : (Node.dir entries).isPlain = true)
    (hExcludes : ∀ pattern ∈ options.excludes, pattern.toList.head? ≠ some '!')
    (hIgnore : ∀ content, Node.entry? ".gitignore" entries = some (.file content) →
      ∀ line ∈ (ignoreLines content).1, line.head? ≠ some '!') :
    let chosen := (selection (.dir entries) options ".").1
    (∃ found : List Place,
      walk (.dir entries) options "." = found.map (fun place => .ok (Path.below "." place)) ∧
      found.Pairwise Node.Precedes ∧
      ∀ place, place ∈ found ↔
        (∃ content, (Node.dir entries).at? place = some (.file content)) ∧
        (options.skipHidden = true → ∀ name ∈ place, Walk.isHidden name = false) ∧
        chosen.takes ("/".intercalate place) = true ∧
        chosen.rejects ("/".intercalate place) false = false) ∧
    ∀ way rest, (∀ name ∈ way ++ rest, Path.isName name = true) → rest ≠ [] →
      chosen.rejects ("/".intercalate way) true = true →
      chosen.rejects ("/".intercalate (way ++ rest)) false = true := by
  intro chosen
  have hKept := negated_of_mem_skipRules hExcludes hIgnore
  have hChosen : chosen = selectionNamed options entries "." := selection_here options hPlain
  rw [hChosen]
  refine ⟨exists_found_here hKept hPlain, fun way rest hNames hRest hRejects => ?_⟩
  exact rejects_here_append hKept hNames hRest hRejects false

/-- Directories that an exclude pattern and the ignore file leave out, at the top and below. -/
theorem walk_finds_all_wanted_around_dist :
    let entries : List (String × Node) :=
      [(".gitignore", .file (.text "out/\n")), ("dist", .dir [("a.ts", .file (.text ""))]),
        ("out", .dir [("b.ts", .file (.text ""))]),
        ("src", .dir [("dist", .dir [("c.ts", .file (.text ""))]), ("main.ts", .file (.text ""))])]
    let options : DiscoveryOptions := { excludes := ["dist/"] }
    let chosen := (selection (.dir entries) options ".").1
    (Node.dir entries).isPlain = true ∧
      (∀ pattern ∈ options.excludes, pattern.toList.head? ≠ some '!') ∧
      (∀ content, Node.entry? ".gitignore" entries = some (.file content) →
        ∀ line ∈ (ignoreLines content).1, line.head? ≠ some '!') ∧
      (∃ found : List Place,
        walk (.dir entries) options "." = found.map (fun place => .ok (Path.below "." place)) ∧
        ["src", "main.ts"] ∈ found ∧ ["dist", "a.ts"] ∉ found ∧ ["out", "b.ts"] ∉ found ∧
        ["src", "dist", "c.ts"] ∉ found) ∧
      chosen.rejects "src/dist" true = true ∧ chosen.rejects "src/dist/c.ts" false = true := by
  intro entries options chosen
  have hPlain : (Node.dir entries).isPlain = true := by decide
  have hExcludes : ∀ pattern ∈ options.excludes, pattern.toList.head? ≠ some '!' := by decide
  have hIgnore : ∀ content, Node.entry? ".gitignore" entries = some (.file content) →
      ∀ line ∈ (ignoreLines content).1, line.head? ≠ some '!' := by
    intro content hEntry
    cases hEntry
    decide
  have hChosen : chosen = selectionNamed options entries "." := selection_here options hPlain
  obtain ⟨⟨found, hWalk, -, hFound⟩, hBelow⟩ := walk_finds_all_wanted hPlain hExcludes hIgnore
  rw [selection_here options hPlain] at hFound hBelow
  have hDist : (selectionNamed options entries ".").rejects "src/dist" true = true := by
    decide +kernel
  refine ⟨hPlain, hExcludes, hIgnore, ⟨found, hWalk, (hFound _).2 ?_, fun hMem => ?_,
    fun hMem => ?_, fun hMem => ?_⟩, ?_⟩
  · exact ⟨⟨.text "", rfl⟩, by decide, by decide +kernel, by decide +kernel⟩
  · exact absurd ((hFound _).1 hMem).2.2.2 (by decide +kernel)
  · exact absurd ((hFound _).1 hMem).2.2.2 (by decide +kernel)
  · exact absurd ((hFound _).1 hMem).2.2.2 (by decide +kernel)
  · rw [hChosen]
    exact ⟨hDist, hBelow ["src", "dist"] ["c.ts"] (by decide) (by simp) hDist⟩

end Discovery

end Homonym
