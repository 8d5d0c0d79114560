import Mathlib.Data.List.Basic
import Homonym.Pattern.GlobRoom
import Homonym.Pattern.IgnoreList
import Homonym.Proofs.Text.ByteOffsets
import Homonym.Proofs.Text.ByteOrder

/-!
# Patterns for one path

Every path has a pattern that matches it and nothing else: the path behind a slash, every character
escaped and the whole in braces. The slash ties the pattern to the root. The braces keep the end of
the line from being read as a blank, a mark of directories or a final dot.

Such a pattern is compiled, and so it serves for paths alone that are not too long. A pattern for
the directory at one path needs no braces, as the mark of directories ends its line; it is looked up
as it is and serves for paths of any length.
-/

namespace Homonym.Pattern

open Text

/-- A text with a backslash in front of every character. -/
def escaped : List Char → List Char
  | [] => []
  | c :: rest => '\\' :: c :: escaped rest

/-- The pattern of one path. -/
def onePath (path : List Char) : List Char :=
  '/' :: '\x7b' :: escaped path ++ ['\x7d']

/-- The glob of one path. -/
def Glob.onePath (path : List Char) : Glob :=
  ⟨[.alternates [path.map .literal]]⟩

/-- The pattern of the directory at one path. -/
def oneDir (path : List Char) : List Char :=
  '/' :: escaped path ++ ['\\', '/']

/-- The glob of a path that is looked up as it is. -/
def Glob.plain (path : List Char) : Glob :=
  ⟨path.map .literal⟩

/-! ## Reading it -/

theorem Draft.read_escaped (d : Draft) (path rest : List Char) :
    ∃ last, d.read 0 (escaped path ++ rest) =
      Draft.read { d with tokens := (path.map .literal).reverse ++ d.tokens, last } 0 rest := by
  induction path generalizing d with
  | nil => exact ⟨d.last, rfl⟩
  | cons c path ih =>
    obtain ⟨last, hLast⟩ := ih { d.push (.literal c) with last := some c }
    refine ⟨last, ?_⟩
    have hStep : d.read 0 (escaped (c :: path) ++ rest) =
        Draft.read { d.push (.literal c) with last := some c } 0 (escaped path ++ rest) := rfl
    rw [hStep, hLast]
    simp [Draft.push]

theorem Glob.parse_onePath {path : List Char} (hSome : path ≠ []) :
    Glob.parse ('\x7b' :: escaped path ++ ['\x7d']) = .ok (.onePath path) := by
  obtain ⟨last, hRead⟩ :=
    Draft.read_escaped { tokens := [], groups := [⟨[], []⟩], last := some '\x7b' } path ['\x7d']
  have hOpen : Draft.read {} 0 ('\x7b' :: escaped path ++ ['\x7d']) =
      Draft.read { tokens := [], groups := [⟨[], []⟩], last := some '\x7b' } 0
        (escaped path ++ ['\x7d']) := rfl
  obtain ⟨c, rest, rfl⟩ := List.exists_cons_of_ne_nil hSome
  rw [Glob.parse, hOpen, hRead]
  simp [Draft.read, Draft.step, Draft.closeGroup, Except.map, Glob.onePath, Token.isVoid]

theorem endsWith_concat_ne (text ending : List Char) {c e : Char} (hNe : c ≠ e) :
    endsWith (text ++ [c]) (ending ++ [e]) = false := by
  simp [endsWith, after?, Ne.symm hNe]

theorem trimLine_concat {front : List Char} {c : Char} (hc : isBlank c = false) :
    trimLine (front ++ [c]) = front ++ [c] := by
  have hSpace : c ≠ ' ' := by
    rintro rfl
    cases hc
  have hEnd : endsWith (front ++ [c]) ['\\', ' '] = false := endsWith_concat_ne _ ['\\'] hSpace
  have hAll : [c].all isBlank = false := by simp [hc]
  rw [trimLine, hEnd, trimEnd_append, hAll]
  simp [trimEnd, hc]

/-- In braces and behind a slash, a text is read as a glob as it is. -/
theorem IgnoreRule.parse_braced {body : List Char} {glob : Glob}
    (hGlob : Glob.parse ('\x7b' :: body ++ ['\x7d']) = .ok glob) :
    IgnoreRule.parse ('/' :: '\x7b' :: body ++ ['\x7d']) =
      .ok (some { glob, negated := false, onlyDirs := false }) := by
  have hTrim : trimLine ('/' :: '\x7b' :: body ++ ['\x7d']) =
      '/' :: '\x7b' :: body ++ ['\x7d'] := trimLine_concat (by decide)
  have hMarks : readMarks ('/' :: '\x7b' :: body ++ ['\x7d']) =
      (false, true, '\x7b' :: body ++ ['\x7d']) := rfl
  have hDir : readDirMark ('\x7b' :: body ++ ['\x7d']) =
      (false, '\x7b' :: body ++ ['\x7d']) := by
    simp [readDirMark]
  have hText : globText true ('\x7b' :: body ++ ['\x7d']) = '\x7b' :: body ++ ['\x7d'] := by
    have hEnd : endsWith ('\x7b' :: body ++ ['\x7d']) ['/', '*', '*'] = false :=
      endsWith_concat_ne _ ['/', '*'] (by decide)
    rw [globText]
    simp only [true_or, if_true, hEnd]
    rfl
  have hHead : ('/' :: '\x7b' :: body ++ ['\x7d']).head? ≠ some '#' := by simp
  have hLine : '/' :: '\x7b' :: body ++ ['\x7d'] ≠ [] := by simp
  rw [IgnoreRule.parse]
  simp only [hTrim, hHead, hLine, or_self, if_false, hMarks, hDir, hText, hGlob]

theorem IgnoreRule.parse_onePath {path : List Char} (hSome : path ≠ []) :
    IgnoreRule.parse (Pattern.onePath path) =
      .ok (some { glob := .onePath path, negated := false, onlyDirs := false }) :=
  IgnoreRule.parse_braced (Glob.parse_onePath hSome)

theorem escaped_append (a b : List Char) : escaped (a ++ b) = escaped a ++ escaped b := by
  induction a with
  | nil => rfl
  | cons c a ih => simp [escaped, ih]

theorem Glob.parse_escaped (path : List Char) : Glob.parse (escaped path) = .ok (.plain path) := by
  obtain ⟨last, hRead⟩ := Draft.read_escaped {} path []
  rw [List.append_nil] at hRead
  rw [Glob.parse, hRead]
  simp [Draft.read, Glob.plain]

/-- An escaped text does not end in stars: the last character has its backslash in front of it. -/
theorem endsWith_escaped (path : List Char) : endsWith (escaped path) ['/', '*', '*'] = false := by
  rcases List.eq_nil_or_concat' path with rfl | ⟨front, c, rfl⟩
  · rfl
  · rw [escaped_append]
    by_cases hStar : '*' = c <;> simp [endsWith, escaped, after?, hStar]

theorem IgnoreRule.parse_oneDir (path : List Char) :
    IgnoreRule.parse (oneDir path) =
      .ok (some { glob := .plain path, negated := false, onlyDirs := true }) := by
  have hTrim : trimLine (oneDir path) = oneDir path := by
    have hLine : oneDir path = '/' :: escaped path ++ ['\\'] ++ ['/'] := by simp [oneDir]
    rw [hLine]
    exact trimLine_concat (by decide)
  have hMarks : readMarks (oneDir path) = (false, true, escaped path ++ ['\\', '/']) := rfl
  have hDir : readDirMark (escaped path ++ ['\\', '/']) = (true, escaped path) := by
    simp [readDirMark]
  have hText : globText true (escaped path) = escaped path := by
    rw [globText]
    simp only [true_or, if_true, endsWith_escaped]
    rfl
  have hHead : (oneDir path).head? ≠ some '#' := by simp [oneDir]
  have hLine : oneDir path ≠ [] := by simp [oneDir]
  rw [IgnoreRule.parse]
  simp only [hTrim, hHead, hLine, or_self, if_false, hMarks, hDir, hText, Glob.parse_escaped]

/-! ## Matching it -/

theorem expect_append (test : Bytes → Bool) (a b text : Bytes) :
    expect test (a ++ b) text = expect (expect test b) a text := by
  induction a generalizing text with
  | nil => rfl
  | cons w a ih =>
    simp only [List.cons_append, expect]
    exact congrArg (one (· == w) · text) (funext ih)

theorem expect_isEmpty (word text : Bytes) :
    expect List.isEmpty word text = decide (text = word) := by
  induction word generalizing text with
  | nil => cases text <;> simp [expect]
  | cons w word ih =>
    cases text with
    | nil => rfl
    | cons b text => simp [expect, one, ih, Bool.decide_and, Bool.beq_eq_decide_eq]

theorem runAll_literals (path : List Char) (test : Bytes → Bool) (text : Bytes) :
    runAll (path.map .literal) test text = expect test (bytes path) text := by
  induction path generalizing text with
  | nil => simp [runAll, bytes, expect]
  | cons c path ih =>
    rw [List.map_cons, runAll, Token.run, bytes, List.flatMap_cons, expect_append]
    exact congrArg (expect · (String.utf8EncodeChar c) text) (funext ih)

theorem Glob.accepts_onePath (path : List Char) (text : Bytes) :
    (Glob.onePath path).accepts text = decide (text = bytes path) := by
  have hAlive : (Glob.onePath path).isDead = false := rfl
  have hTakes : (Glob.onePath path).takesAll text =
      runAll (path.map .literal) List.isEmpty text := by
    rw [takesAll_eq]
    simp [Glob.onePath, runAll, Token.run, runSome]
  rw [Glob.accepts, hAlive, hTakes, runAll_literals, expect_isEmpty]
  rfl

theorem Glob.accepts_plain {path : List Char} (hSome : path ≠ []) (text : Bytes) :
    (Glob.plain path).accepts text = decide (text = bytes path) := by
  obtain ⟨c, rest, rfl⟩ := List.exists_cons_of_ne_nil hSome
  have hPath : (Glob.plain (c :: rest)).isPath = true := by
    simp [Glob.isPath, Glob.plain, Token.isLiteral]
  have hTakes : (Glob.plain (c :: rest)).takesAll text =
      runAll ((c :: rest).map .literal) List.isEmpty text := takesAll_eq _ text
  rw [Glob.accepts, Glob.isDead, hPath, hTakes, runAll_literals, expect_isEmpty]
  simp

/-! ## Keeping to the limits -/

theorem levelsAll_literals (path : List Char) : levelsAll (path.map .literal) = 0 := by
  induction path with
  | nil => rfl
  | cons c path ih => simp [levelsAll, Token.levels, ih]

theorem length_bytes (text : List Char) : (bytes text).length = byteSize text := by
  induction text with
  | nil => rfl
  | cons c text ih =>
    rw [bytes, List.flatMap_cons, List.length_append, String.length_utf8EncodeChar, byteSize_cons]
    exact congrArg (c.utf8Size + ·) ih

theorem roomAll_literals (path : List Char) :
    roomAll (path.map .literal) = stateRoom * (bytes path).length := by
  induction path with
  | nil => rfl
  | cons c path ih =>
    rw [List.map_cons, roomAll, Token.room, ih, bytes, bytes, List.flatMap_cons, List.length_append,
      Nat.mul_add]

theorem levelIfSeveral_le (parts : Nat) : levelIfSeveral parts ≤ 1 := by
  unfold levelIfSeveral
  split <;> omega

theorem Glob.isTooDeep_onePath (path : List Char) : (Glob.onePath path).isTooDeep = false := by
  have hSeveral := levelIfSeveral_le (partsOf (path.map .literal))
  have hLevels : levelsAll (Glob.onePath path).tokens =
      1 + levelIfSeveral (partsOf (path.map .literal)) := by
    simp [Glob.onePath, levelsAll, Token.levels, levelsSome, levelsAll_literals,
      show levelIfSeveral 1 = 0 from rfl]
  rw [Glob.isTooDeep, nestingLimit, decide_eq_false_iff_not]
  omega

theorem automatonRoom_onePath (path : List Char) :
    automatonRoom [.onePath path] = stateRoom * (bytes path).length + 328 := by
  simp only [automatonRoom, roomTogether, Glob.room, Glob.onePath, roomAll, Token.room, roomSome,
    roomAll_literals, stateRoom, wayRoom]
  omega

/-- The pattern of a path that does not take too much room can be used. -/
theorem fault?_onePath {path : List Char} (hRoom : automatonRoom [.onePath path] ≤ roomLimit) :
    fault? [.onePath path] = none := by
  have hSearched : ([Glob.onePath path].filter Glob.isSearched) = [.onePath path] := rfl
  have hKeyed : (Glob.onePath path).isKeyed = false := rfl
  rw [← Option.isNone_iff_eq_none, ← Bool.not_eq_false, Option.isNone_eq_false_iff, isSome_fault?,
    areTooLarge, hSearched]
  simp [Glob.isTooDeep_onePath, hKeyed, hRoom]

/-- The pattern of a directory can always be used. -/
theorem fault?_plain {path : List Char} (hSome : path ≠ []) : fault? [.plain path] = none := by
  have hDeep : (Glob.plain path).isTooDeep = false := by
    simp [Glob.isTooDeep, Glob.plain, levelsAll_literals, nestingLimit]
  have hPlain : (Glob.plain path).isPlain = true := by
    obtain ⟨c, rest, rfl⟩ := List.exists_cons_of_ne_nil hSome
    simp [Glob.isPlain, Glob.plain, Token.isLiteral]
  rw [← Option.isNone_iff_eq_none, ← Bool.not_eq_false, Option.isNone_eq_false_iff, isSome_fault?]
  simp [areTooLarge, hDeep, Glob.isSearched, Glob.isKeyed, hPlain, automatonRoom,
    roomTogether, stateRoom, roomLimit]

theorem bytes_injective : Function.Injective bytes := by
  intro a b hBytes
  refine List.le_antisymm (List.not_lt.1 fun hLess => ?_) (List.not_lt.1 fun hLess => ?_)
  · exact absurd (bytes_lt hLess) (by rw [hBytes]; exact List.lt_irrefl _)
  · exact absurd (bytes_lt hLess) (by rw [hBytes]; exact List.lt_irrefl _)

namespace IgnoreList

/-- The patterns of one path are read without a fault. -/
theorem readLines_onePath {path : List Char} (hSome : path ≠ []) :
    readLines 1 [Pattern.onePath path] =
      ([{ glob := .onePath path, negated := false, onlyDirs := false }], []) := by
  rw [readLines, readLines, IgnoreRule.parse_onePath hSome]

/-- **The pattern of one path matches it and nothing else.** -/
theorem verdictStripped_onePath (root : String) (path text : List Char) (isDir : Bool) :
    verdictStripped ⟨root, [⟨.onePath path, false, false⟩]⟩ text isDir =
      if text = path then .ignored else .unmatched := by
  have hAccepts : IgnoreRule.accepts ⟨.onePath path, false, false⟩ (bytes text) isDir =
      decide (text = path) := by
    rw [IgnoreRule.accepts, Glob.accepts_onePath]
    simp [bytes_injective.eq_iff]
  simp only [verdictStripped, List.reverse_singleton, List.find?_singleton, hAccepts]
  by_cases hText : text = path
  · simp [hText, IgnoreRule.verdict]
  · simp [hText]

/-- The patterns of the directory at one path are read without a fault. -/
theorem readLines_oneDir (path : List Char) :
    readLines 1 [oneDir path] =
      ([{ glob := .plain path, negated := false, onlyDirs := true }], []) := by
  rw [readLines, readLines, IgnoreRule.parse_oneDir]

/-- **The pattern of a directory matches the directory and nothing else.** -/
theorem verdictStripped_oneDir (root : String) {path : List Char} (hSome : path ≠ [])
    (text : List Char) (isDir : Bool) :
    verdictStripped ⟨root, [⟨.plain path, false, true⟩]⟩ text isDir =
      if isDir = true ∧ text = path then .ignored else .unmatched := by
  have hAccepts : IgnoreRule.accepts ⟨.plain path, false, true⟩ (bytes text) isDir =
      decide (isDir = true ∧ text = path) := by
    rw [IgnoreRule.accepts, Glob.accepts_plain hSome]
    simp [bytes_injective.eq_iff]
  simp only [verdictStripped, List.reverse_singleton, List.find?_singleton, hAccepts]
  by_cases hText : isDir = true ∧ text = path
  · simp [hText, IgnoreRule.verdict]
  · simp [hText]

end IgnoreList

end Homonym.Pattern
