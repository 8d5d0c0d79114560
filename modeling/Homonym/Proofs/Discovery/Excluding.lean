import Mathlib.Data.List.Flatten
import Homonym.Proofs.Discovery.RootRules
import Homonym.Proofs.Pattern.OnePath
import Homonym.Proofs.Scan.WalkedFiles

/-!
# Excluding more

A pattern that does not take anything back can only pass over more: where it has a say, it says
that a path is ignored (`IgnoreList.isStricter_verdictUpward`). A walk that passes over more goes
less far, so that its files are some of those of the other walk, in their order (`sublist_walk`).

That needs the patterns to be usable. If one more makes their globs nest too deep or take too much
room, none of them is used (`patternRules_eq`), and what the others passed over is walked as well
(`sublist_walk_iff`).
-/

namespace Homonym

open Pattern

/-! ## Verdicts -/

namespace Pattern

/-- The verdict is the other one, unless it is that the path is ignored. -/
def Verdict.IsStricter (v other : Verdict) : Prop :=
  v = .ignored ∨ v = other

theorem Verdict.IsStricter.ignored {v other : Verdict} (h : v.IsStricter other)
    (hOther : other = .ignored) : v = .ignored :=
  h.elim id fun hSame => hSame.trans hOther

namespace IgnoreList

variable (rules : List IgnoreRule) {added : List IgnoreRule}
  (hAdded : ∀ rule ∈ added, rule.negated = false) (root : String)
include hAdded

theorem isStricter_verdictStripped (path : List Char) (isDir : Bool) :
    (verdictStripped ⟨root, rules ++ added⟩ path isDir).IsStricter
      (verdictStripped ⟨root, rules⟩ path isDir) := by
  simp only [verdictStripped, List.reverse_append, List.find?_append]
  cases hFind : added.reverse.find? fun rule => rule.accepts (bytes path) isDir with
  | none => exact .inr rfl
  | some rule =>
    have hMem : rule ∈ added := List.mem_reverse.1 (List.mem_of_find?_eq_some hFind)
    exact .inl (by simp [IgnoreRule.verdict, hAdded rule hMem])

theorem isStricter_firstVerdict (dirs : List String) :
    (firstVerdict ⟨root, rules ++ added⟩ dirs).IsStricter (firstVerdict ⟨root, rules⟩ dirs) := by
  induction dirs with
  | nil => exact .inr rfl
  | cons dir dirs ih =>
    simp only [firstVerdict]
    rcases isStricter_verdictStripped rules hAdded root dir.toList true with hHere | hHere
    · rw [hHere]
      exact .inl rfl
    · rw [hHere]
      cases verdictStripped ⟨root, rules⟩ dir.toList true with
      | unmatched => exact ih
      | ignored => exact .inr rfl
      | kept => exact .inr rfl

/-- **More rules that take nothing back are stricter.** -/
theorem isStricter_verdictUpward (path : String) (isDir : Bool) :
    (verdictUpward ⟨root, rules ++ added⟩ path isDir).IsStricter
      (verdictUpward ⟨root, rules⟩ path isDir) := by
  have hSeen : strip ⟨root, rules ++ added⟩ path.toList = strip ⟨root, rules⟩ path.toList := rfl
  simp only [verdictUpward, hSeen]
  generalize strip ⟨root, rules⟩ path.toList = seen
  rcases isStricter_verdictStripped rules hAdded root seen isDir with hHere | hHere
  · rw [hHere]
    exact .inl rfl
  · rw [hHere]
    cases verdictStripped ⟨root, rules⟩ seen isDir with
    | unmatched => exact isStricter_firstVerdict rules hAdded root _
    | ignored => exact .inr rfl
    | kept => exact .inr rfl

end IgnoreList

end Pattern

/-! ## Rules -/

namespace Pattern

theorem negated_readMarks {line : List Char} (hMark : line.head? ≠ some '!') :
    (readMarks line).1 = false := by
  unfold readMarks
  split <;> simp_all

theorem head?_trimLine {line : List Char} (hSome : trimLine line ≠ []) :
    (trimLine line).head? = line.head? := by
  have hFront : trimLine line <+: line := by
    unfold trimLine
    split
    · exact List.prefix_rfl
    · exact Text.trimEnd_prefix_self line
  generalize trimLine line = trimmed at hSome hFront
  obtain ⟨more, rfl⟩ := hFront
  exact (List.head?_append_of_ne_nil trimmed hSome).symm

/-- Only an exclamation mark makes a rule take something back. -/
theorem IgnoreRule.negated_of_ofLine? {line : List Char} {rule : IgnoreRule}
    (hMark : line.head? ≠ some '!') (hRule : ofLine? line = some rule) :
    rule.negated = false := by
  simp only [ofLine?, IgnoreRule.parse] at hRule
  split at hRule
  · rename_i hParse
    subst hRule
    split at hParse
    · cases hParse
    · rename_i hLine
      split at hParse
      · cases hParse
      · cases hParse
        have hSome : trimLine line ≠ [] := fun hNone => hLine (.inr hNone)
        exact negated_readMarks (by rwa [head?_trimLine hSome])
  · cases hRule

end Pattern

namespace Discovery

/-- Usable patterns without an exclamation mark add rules that take nothing back. -/
theorem exists_patternRules_append {patterns extra : List String}
    (hMarks : ∀ pattern ∈ extra, pattern.toList.head? ≠ some '!')
    (hUsable : unusable (patterns ++ extra) = false) :
    ∃ added, (∀ rule ∈ added, rule.negated = false) ∧
      patternRules (patterns ++ extra) = patternRules patterns ++ added := by
  have hFirst : unusable patterns = false := by
    rw [← Bool.not_eq_true] at hUsable ⊢
    exact fun hUnusable => hUsable (unusable_append hUnusable extra)
  refine ⟨rulesRead extra, fun rule hMem => ?_, ?_⟩
  · obtain ⟨pattern, hPattern, hRule⟩ := List.mem_filterMap.1 hMem
    exact IgnoreRule.negated_of_ofLine? (hMarks pattern hPattern) hRule
  · rw [patternRules_eq, patternRules_eq, hUsable, hFirst, rulesRead_append]
    rfl

/-! ## Walks -/

open Scan (successes)

/-- The selection takes what the other takes, and passes over what it passes over and maybe more. -/
structure Selection.Narrows (m other : Selection) : Prop where
  takes : ∀ path, m.takes path = other.takes path
  rejects : ∀ path isDir, other.rejects path isDir = true → m.rejects path isDir = true

namespace Selection.Narrows

variable {m other : Selection} (hNarrows : m.Narrows other) (w : Walk)
include hNarrows

theorem enters {path : String} (hEnters : Walk.enters { w with selection := m } path = true) :
    Walk.enters { w with selection := other } path = true := by
  simp only [Walk.enters, Bool.not_eq_true', ← Bool.not_eq_true] at hEnters ⊢
  exact fun hRejects => hEnters (hNarrows.rejects _ _ hRejects)

theorem wants {path : String} (hWants : Walk.wants { w with selection := m } path = true) :
    Walk.wants { w with selection := other } path = true := by
  simp only [Walk.wants, Bool.and_eq_true, Bool.not_eq_true', ← Bool.not_eq_true] at hWants ⊢
  refine ⟨(hNarrows.takes _).symm.trans hWants.1, ?_⟩
  exact fun hRejects => hWants.2 (hNarrows.rejects _ _ hRejects)

theorem sublist_pathsAt {bound : Nat} {above : List String}
    (hBelow : ∀ dir entries,
      (successes (Walk.below { w with selection := m } bound above dir entries)).Sublist
        (successes (Walk.below { w with selection := other } bound above dir entries)))
    (path : String) (found : Except FileError Node) :
    (Walk.pathsAt { w with selection := m } bound above path found).Sublist
      (Walk.pathsAt { w with selection := other } bound above path found) := by
  match found with
  | .error _ | .ok (.link _) => exact .refl _
  | .ok (.file _) =>
    simp only [Walk.pathsAt]
    split
    · rename_i hWants
      rw [if_pos (hNarrows.wants w hWants)]
    · exact List.nil_sublist _
  | .ok (.dir inner) =>
    simp only [Walk.pathsAt]
    split
    · rename_i hEnters
      rw [if_pos (hNarrows.enters w hEnters)]
      exact hBelow path inner
    · exact List.nil_sublist _

theorem sublist_below (bound : Nat) (above : List String) (dir : String)
    (entries : List (String × Node)) :
    (successes (Walk.below { w with selection := m } bound above dir entries)).Sublist
      (successes (Walk.below { w with selection := other } bound above dir entries)) := by
  induction bound generalizing above dir entries with
  | zero => exact .refl _
  | succ bound ih =>
    rw [Walk.successes_below_succ, Walk.successes_below_succ]
    -- The names that are skipped and what an entry stands for do not depend on the selection.
    exact .flatMap_right _ fun e _ => hNarrows.sublist_pathsAt w (ih _) _ _

theorem isRootRejected (hRoot : Walk.isRootRejected { w with selection := other } = true) :
    Walk.isRootRejected { w with selection := m } = true := by
  simp only [Walk.isRootRejected, Bool.and_eq_true, Bool.not_eq_true', ← Bool.not_eq_true]
    at hRoot ⊢
  exact ⟨hRoot.1, fun hEnters => hRoot.2 (hNarrows.enters w hEnters)⟩

theorem sublist_outcomes :
    (successes (Walk.outcomes { w with selection := m })).Sublist
      (successes (Walk.outcomes { w with selection := other })) := by
  simp only [Walk.outcomes]
  split
  · exact .refl _
  · cases hRoot : Walk.isRootRejected { w with selection := m } with
    | true => exact List.nil_sublist _
    | false =>
      have hOther : ¬Walk.isRootRejected { w with selection := other } = true :=
        fun hRejected => Bool.false_ne_true (hRoot.symm.trans (hNarrows.isRootRejected w hRejected))
      rw [if_neg hOther]
      exact hNarrows.sublist_below w _ _ _ _
  · exact .refl _

end Selection.Narrows

section Excludes

variable (tree : FileTree) (options : DiscoveryOptions) (root : String)

/-- More rules that take nothing back narrow a selection. -/
theorem selection_narrows {excludes fewer : List String} {added : List IgnoreRule}
    (hAdded : ∀ rule ∈ added, rule.negated = false)
    (hRules : patternRules excludes = patternRules fewer ++ added) :
    (selection tree { options with excludes } root).1.Narrows
      (selection tree { options with excludes := fewer } root).1 := by
  rw [selection_fst, selection_fst, hRules]
  refine ⟨fun path => rfl, fun path isDir hRejects => ?_⟩
  simp only [Selection.rejects, Bool.or_eq_true, beq_iff_eq] at hRejects ⊢
  refine hRejects.imp_left fun hIgnored => ?_
  exact (IgnoreList.isStricter_verdictUpward _ hAdded root path isDir).ignored hIgnored

/-- Any exclude patterns narrow a selection. -/
theorem selection_narrows_nil (excludes : List String) :
    (selection tree { options with excludes } root).1.Narrows
      (selection tree { options with excludes := [] } root).1 := by
  have hNone : patternRules [] = [] := rfl
  rw [selection_fst, selection_fst, hNone]
  refine ⟨fun path => rfl, fun path isDir hRejects => ?_⟩
  simp only [Selection.rejects, Bool.or_eq_true, beq_iff_eq, verdictUpward_nil] at hRejects ⊢
  exact .inr (hRejects.resolve_left (by decide))

theorem sublist_walk {excludes fewer : List String}
    (hNarrows : (selection tree { options with excludes } root).1.Narrows
      (selection tree { options with excludes := fewer } root).1) :
    (successes (walk tree { options with excludes } root)).Sublist
      (successes (walk tree { options with excludes := fewer } root)) := by
  rw [walk, walk, prepare_fst, prepare_fst]
  exact hNarrows.sublist_outcomes (prepare tree { options with excludes := fewer } root).1

theorem walk_of_unusable {excludes : List String} (hUnusable : unusable excludes = true) :
    walk tree { options with excludes } root = walk tree { options with excludes := [] } root := by
  have hRules : patternRules excludes = patternRules [] := by
    rw [patternRules_eq, hUnusable]
    rfl
  rw [walk, walk, prepare_fst, prepare_fst, selection_fst, selection_fst, hRules]
  rfl

/-- **When excluding more walks less.** The files that are walked with further patterns are some of
those that are walked without them, in their order, unless the patterns together cannot be used and
those that were there before passed something over. -/
theorem sublist_walk_iff {extra : List String}
    (hMarks : ∀ pattern ∈ extra, pattern.toList.head? ≠ some '!') :
    (successes (walk tree { options with excludes := options.excludes ++ extra } root)).Sublist
        (successes (walk tree options root)) ↔
      (unusable (options.excludes ++ extra) = true →
        successes (walk tree options root) =
          successes (walk tree { options with excludes := [] } root)) := by
  constructor
  · intro hLess hUnusable
    rw [walk_of_unusable tree options root hUnusable] at hLess
    exact (sublist_walk tree options root
      (selection_narrows_nil tree options root options.excludes)).antisymm hLess
  · intro hSame
    cases hUsable : unusable (options.excludes ++ extra) with
    | true =>
      rw [walk_of_unusable tree options root hUsable, ← hSame hUsable]
    | false =>
      obtain ⟨added, hAdded, hRules⟩ := exists_patternRules_append hMarks hUsable
      exact sublist_walk tree options root (selection_narrows tree options root hAdded hRules)

end Excludes

end Discovery

/-! ## Globs that nest too deep -/

namespace Pattern

/-- A letter in several braces. -/
def inBraces : Nat → List Char
  | 0 => ['a']
  | depth + 1 => '\x7b' :: inBraces depth ++ ['\x7d']

/-- The token of a letter in several braces. -/
def Token.inBraces : Nat → Token
  | 0 => .literal 'a'
  | depth + 1 => .alternates [[inBraces depth]]

theorem Token.isVoid_inBraces (depth : Nat) : (Token.inBraces depth).isVoid = false := by
  cases depth <;> rfl

theorem Draft.read_inBraces (d : Draft) (depth : Nat) (rest : List Char) :
    ∃ last, d.read 0 (inBraces depth ++ rest) =
      Draft.read { d with tokens := .inBraces depth :: d.tokens, last } 0 rest := by
  induction depth generalizing d rest with
  | zero => exact ⟨some 'a', rfl⟩
  | succ depth ih =>
    obtain ⟨last, hInner⟩ := ih { d.openGroup with last := some '\x7b' } ('\x7d' :: rest)
    have hOpen : d.read 0 (inBraces (depth + 1) ++ rest) =
        Draft.read { d.openGroup with last := some '\x7b' } 0
          (inBraces depth ++ '\x7d' :: rest) := by
      rw [inBraces, List.append_assoc]
      rfl
    refine ⟨some '\x7d', ?_⟩
    rw [hOpen, hInner]
    simp [Draft.read, Draft.step, Draft.closeGroup, Draft.openGroup, Except.map,
      Token.isVoid_inBraces, Token.inBraces]

theorem Glob.parse_inBraces (depth : Nat) :
    Glob.parse (inBraces depth) = .ok ⟨[.inBraces depth]⟩ := by
  obtain ⟨last, hRead⟩ := Draft.read_inBraces {} depth []
  rw [List.append_nil] at hRead
  rw [Glob.parse, hRead]
  rfl

theorem Token.levels_inBraces (depth : Nat) : (Token.inBraces depth).levels = depth := by
  have hParts : ∀ depth, levelIfSeveral (partsOf [Token.inBraces depth]) = 0 := by
    intro depth
    cases depth <;> rfl
  induction depth with
  | zero => rfl
  | succ depth ih =>
    have hOne : levelIfSeveral 1 = 0 := rfl
    simp only [inBraces, Token.levels, levelsAll, levelsSome, hParts, ih, List.length_nil,
      Nat.zero_add, hOne]
    omega

end Pattern

namespace Discovery

/-- **Braces nest too deep from the limit on.** No patterns can be used together with such a one. -/
theorem unusable_inBraces {depth : Nat} (hDeep : nestingLimit ≤ depth + 1)
    (patterns : List String) :
    unusable (patterns ++ [String.ofList ('/' :: inBraces (depth + 1))]) = true := by
  have hRule : IgnoreRule.parse ('/' :: inBraces (depth + 1)) =
      .ok (some { glob := ⟨[.inBraces (depth + 1)]⟩, negated := false, onlyDirs := false }) :=
    IgnoreRule.parse_braced (Glob.parse_inBraces (depth + 1))
  have hGlob : Glob.isTooDeep ⟨[.inBraces (depth + 1)]⟩ = true := by
    simp only [Glob.isTooDeep, levelsAll, Token.levels_inBraces, decide_eq_true_eq]
    omega
  have hRead : rulesRead [String.ofList ('/' :: inBraces (depth + 1))] =
      [{ glob := ⟨[.inBraces (depth + 1)]⟩, negated := false, onlyDirs := false }] := by
    simp only [rulesRead, IgnoreRule.ofLine?, String.toList_ofList, hRule, List.filterMap_cons,
      List.filterMap_nil]
  rw [unusable, isSome_fault?, rulesRead_append, hRead]
  simp [hGlob]

end Discovery

end Homonym
