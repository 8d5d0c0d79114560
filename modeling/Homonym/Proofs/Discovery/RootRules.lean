import Homonym.Discovery.Walk
import Homonym.Proofs.FileTree.Plain

/-!
# The rules of a root

What is wanted below a root is said by its include patterns, its exclude patterns and its ignore
file. Each of these lists is used as a whole, or not at all if its globs nest too deep or take too
much room (`patternRules_eq`); one that cannot be used cannot be used with more patterns either
(`unusable_append`).

The rules of a root are the same under every name (`selection_named`).
-/

namespace Homonym

open Pattern

namespace Pattern

/-- The rule of a line, if it has one that can be read. -/
def IgnoreRule.ofLine? (line : List Char) : Option IgnoreRule :=
  match IgnoreRule.parse line with
  | .ok rule => rule
  | .error _ => none

theorem IgnoreList.readLines_fst (number : Nat) (lines : List (List Char)) :
    (readLines number lines).1 = lines.filterMap IgnoreRule.ofLine? := by
  induction lines generalizing number with
  | nil => rfl
  | cons line lines ih =>
    simp only [readLines, List.filterMap_cons, IgnoreRule.ofLine?, ← ih (number + 1)]
    cases IgnoreRule.parse line with
    | error e => rfl
    | ok rule => cases rule <;> rfl

end Pattern

namespace Discovery

/-- The rules that are used of those that were read: all, or none if their globs cannot be used. -/
def usable (rules : List IgnoreRule) : List IgnoreRule :=
  if (fault? (rules.map IgnoreRule.glob)).isNone then rules else []

/-- The rules of some patterns. -/
def patternRules (patterns : List String) : List IgnoreRule :=
  usable (IgnoreList.readLines 1 (patterns.map String.toList)).1

/-- The rules of the ignore file among some entries, if it is to be honoured. -/
def ignoreRules (options : DiscoveryOptions) (entries : List (String × Node)) : List IgnoreRule :=
  match options.respectIgnoreFile, Node.entry? ".gitignore" entries with
  | true, some (.file content) => usable (IgnoreList.readLines 1 (ignoreLines content).1).1
  | _, _ => []

/-- What is wanted below a root with given entries, by the name of the root. -/
def selectionNamed (options : DiscoveryOptions) (entries : List (String × Node)) (name : String) :
    Selection :=
  ⟨⟨name, patternRules options.includes⟩, ⟨name, patternRules options.excludes⟩,
    ⟨name, ignoreRules options entries⟩⟩

theorem buildList_fst (root what : String) (rules : List IgnoreRule) :
    (buildList root what rules).1 = ⟨root, usable rules⟩ := by
  unfold buildList usable
  cases fault? (rules.map IgnoreRule.glob) <;> rfl

theorem patternList_fst (root what : String) (patterns : List String) :
    (patternList root what patterns).1 = ⟨root, patternRules patterns⟩ :=
  buildList_fst root what _

theorem ignoreFileList_fst {tree : FileTree} {root : String} {entries : List (String × Node)}
    (options : DiscoveryOptions) (hPlain : (Node.dir entries).isPlain = true)
    (hLookup : tree.lookup (Path.join root ".gitignore") =
      match Node.entry? ".gitignore" entries with
      | some node => .ok node
      | none => .error .notFound) :
    (ignoreFileList tree options root).1 = ⟨root, ignoreRules options entries⟩ := by
  unfold ignoreFileList ignoreRules
  simp only [FileTree.pathExists, FileTree.read, hLookup]
  cases options.respectIgnoreFile with
  | false => rfl
  | true =>
    cases hEntry : Node.entry? ".gitignore" entries with
    | none => rfl
    | some node =>
      cases node with
      | link target =>
        cases Node.isPlain_of_mem hPlain ((Node.entry?_eq_some_iff hPlain).1 hEntry)
      | dir inner => rfl
      | file content => exact buildList_fst root _ _

/-- **The rules of a root are the same under every name.** -/
theorem selection_named {name : String} {entries : List (String × Node)}
    (options : DiscoveryOptions) (hName : Node.isEntryName name = true)
    (hPlain : (Node.dir entries).isPlain = true) :
    (selection (.dir [(name, .dir entries)]) options name).1 =
      selectionNamed options entries name := by
  have hIgnore : Node.isEntryName ".gitignore" = true := by decide
  have hLookup := FileTree.lookup_child hName hPlain hIgnore
  rw [selectionNamed, ← patternList_fst name "include", ← patternList_fst name "exclude",
    ← ignoreFileList_fst options hPlain hLookup]
  rfl

/-- The rules of the root `.`. -/
theorem selection_here {entries : List (String × Node)} (options : DiscoveryOptions)
    (hPlain : (Node.dir entries).isPlain = true) :
    (selection (.dir entries) options ".").1 = selectionNamed options entries "." := by
  have hIgnore : Node.isEntryName ".gitignore" = true := by decide
  have hLookup := FileTree.lookup_here_child hPlain hIgnore
  rw [selectionNamed, ← patternList_fst "." "include", ← patternList_fst "." "exclude",
    ← ignoreFileList_fst options hPlain hLookup]
  rfl

theorem selection_fst (tree : FileTree) (options : DiscoveryOptions) (root : String) :
    (selection tree options root).1 =
      ⟨⟨root, patternRules options.includes⟩, ⟨root, patternRules options.excludes⟩,
        (ignoreFileList tree options root).1⟩ := by
  rw [← patternList_fst root "include", ← patternList_fst root "exclude"]
  rfl

/-- No rules say nothing. -/
theorem verdictUpward_nil (root path : String) (isDir : Bool) :
    IgnoreList.verdictUpward ⟨root, []⟩ path isDir = .unmatched := by
  have hFirst : ∀ dirs, IgnoreList.firstVerdict ⟨root, []⟩ dirs = .unmatched := by
    intro dirs
    induction dirs with
    | nil => rfl
    | cons dir rest ih => exact ih
  exact hFirst _

/-! ## Rules of patterns -/

/-- The rules that can be read of some patterns. -/
def rulesRead (patterns : List String) : List IgnoreRule :=
  patterns.filterMap fun pattern => IgnoreRule.ofLine? pattern.toList

/-- The globs of some patterns cannot be used: one nests too deep, or they take too much room. -/
def unusable (patterns : List String) : Bool :=
  (fault? ((rulesRead patterns).map IgnoreRule.glob)).isSome

/-- **Patterns give all their rules or none.** -/
theorem patternRules_eq (patterns : List String) :
    patternRules patterns = if unusable patterns then [] else rulesRead patterns := by
  have hRead : (IgnoreList.readLines 1 (patterns.map String.toList)).1 = rulesRead patterns := by
    rw [IgnoreList.readLines_fst, List.filterMap_map]
    rfl
  rw [patternRules, usable, hRead, unusable]
  cases fault? ((rulesRead patterns).map IgnoreRule.glob) <;> rfl

theorem rulesRead_append (patterns extra : List String) :
    rulesRead (patterns ++ extra) = rulesRead patterns ++ rulesRead extra :=
  List.filterMap_append

/-- More patterns do not make a list usable. -/
theorem unusable_append {patterns : List String} (hUnusable : unusable patterns = true)
    (extra : List String) : unusable (patterns ++ extra) = true := by
  rw [unusable, rulesRead_append, List.map_append]
  exact isSome_fault?_append hUnusable _

end Discovery

end Homonym
