import Homonym.Proofs.Source.Cut
import Homonym.Proofs.Source.Grammar
import Homonym.Proofs.Source.OpenList

/-!
# Occurrences point at their own text

Line and column of an occurrence are counted from what is left of a text, not from what has been
read. They are right nevertheless: the line is there, the column is a place on it that is not blank,
and what stands from there on is the statement that the occurrence was read from
(`Occurrence.PointsInto`). So it begins with `export` exactly if the occurrence is exported, it has
the excerpt that the occurrence carries, and the name stands in it.

* `isInfix_of_mem_declared`: every name that a statement declares is a part of the statement.
* `extract_points_at_text`: every occurrence points into its line.
-/

namespace Homonym

namespace Source

open Text

/-! ## Names are parts of their statement -/

/-- What a declaration of a kind may be named: a namespace by a dotted name, anything else by an
identifier. -/
def IsNameOf (kind : Kind) (name : List Char) : Prop :=
  if kind = .nameSpace then Dotted name else IsIdentifier name

theorem Named.isInfix {word : String} {name form rest : List Char} (h : Named word name form rest) :
    name <:+: form ∧ IsIdentifier name := by
  obtain ⟨-, hName⟩ := h
  exact ⟨(List.suffix_append _ _).isInfix, hName.holds⟩

theorem Form.isInfix {kind : Kind} {name form rest : List Char} (h : Form kind name form rest) :
    name <:+: form ∧ IsNameOf kind name := by
  cases h with
  | function _ hName =>
    exact ⟨((List.suffix_append _ _).trans (List.suffix_append _ _)).isInfix, hName.holds⟩
  | classType hNamed => exact hNamed.isInfix
  | interfaceType hNamed => exact hNamed.isInfix
  | typeAlias hNamed _ _ =>
    obtain ⟨hInfix, hName⟩ := hNamed.isInfix
    exact ⟨hInfix.trans (List.prefix_append _ _).isInfix, hName⟩
  | enumeration _ hNamed =>
    obtain ⟨hInfix, hName⟩ := hNamed.isInfix
    exact ⟨hInfix.trans (List.suffix_append _ _).isInfix, hName⟩
  | nameSpace _ hName => exact ⟨(List.suffix_append _ _).isInfix, hName.holds⟩

theorem isInfix_of_bindingName? {binding name : List Char} (h : bindingName? binding = some name) :
    name <:+: binding ∧ IsIdentifier name := by
  rw [bindingName?] at h
  split at h
  · rename_i read rest hRead
    split at h
    · cases h
      obtain ⟨hText, hName⟩ := identifier?_eq_some_iff.1 hRead
      have hFront : name <+: trimStart binding := ⟨rest, hText.symm⟩
      exact ⟨hFront.isInfix.trans (trimStart_suffix binding).isInfix, hName.holds⟩
    · cases h
  · cases h

/-- The pieces of a list are parts of it, and the first is its front. -/
theorem isInfix_bindings (s : BindingState) (text : List Char) :
    (∀ first ∈ (bindings s text).head?, first <+: text) ∧
      ∀ piece ∈ bindings s text, piece <:+: text := by
  induction text generalizing s with
  | nil =>
    refine ⟨?_, ?_⟩
    · rintro first ⟨⟩
      exact List.prefix_rfl
    · intro piece hMem
      obtain rfl := List.mem_singleton.1 hMem
      exact List.infix_rfl
  | cons c text ih =>
    cases hStep : s.step? c with
    | none =>
      rw [bindings_cons_ended hStep]
      refine ⟨?_, ?_⟩
      · rintro first ⟨⟩
        exact List.nil_prefix
      · intro piece hMem
        rw [List.mem_singleton.1 hMem]
        exact List.nil_infix
    | some t =>
      obtain ⟨hFirst, hAll⟩ := ih t
      obtain ⟨first, more, hPieces⟩ := exists_bindings_eq_cons t text
      rw [hPieces] at hFirst hAll
      rw [bindings_cons hStep, hPieces]
      have hBehind : ∀ piece ∈ first :: more, piece <:+: c :: text :=
        fun piece hMem => (hAll piece hMem).trans (List.suffix_cons c text).isInfix
      split
      · have hNil : [] <:+: c :: text := List.nil_infix
        refine ⟨?_, List.forall_mem_cons.2 ⟨hNil, hBehind⟩⟩
        rintro _ ⟨⟩
        exact List.nil_prefix
      · have hFront : c :: first <+: c :: text := List.cons_prefix_cons.2 ⟨rfl, hFirst first rfl⟩
        refine ⟨?_, List.forall_mem_cons.2 ⟨hFront.isInfix, fun piece hMem => ?_⟩⟩
        · rintro _ ⟨⟩
          exact hFront
        · exact hBehind piece (List.mem_cons_of_mem _ hMem)

theorem isInfix_of_mem_boundNames {list name : List Char} (h : name ∈ boundNames list) :
    name <:+: list ∧ IsIdentifier name := by
  obtain ⟨piece, hMem, hRead⟩ := List.mem_filterMap.1 h
  obtain ⟨hInfix, hName⟩ := isInfix_of_bindingName? hRead
  exact ⟨hInfix.trans ((isInfix_bindings {} list).2 piece hMem), hName⟩

theorem isInfix_of_mem_declaredNames {text name : List Char} {kind : Kind}
    (h : (kind, name) ∈ declaredNames text) : name <:+: text ∧ IsNameOf kind name := by
  rw [declaredNames] at h
  split at h
  · rename_i found hSingle
    obtain rfl := List.mem_singleton.1 h
    obtain ⟨form, rest, rfl, hForm⟩ := single?_eq_some_iff.1 hSingle
    obtain ⟨hInfix, hName⟩ := hForm.isInfix
    exact ⟨hInfix.trans (List.prefix_append _ _).isInfix, hName⟩
  · split at h
    · rename_i list hList
      obtain ⟨bound, hBound, hPair⟩ := List.mem_map.1 h
      cases hPair
      obtain ⟨lead, rfl, -⟩ := bindingList?_eq_some hList
      obtain ⟨hInfix, hName⟩ := isInfix_of_mem_boundNames hBound
      exact ⟨hInfix.trans (List.suffix_append _ _).isInfix, hName⟩
    · cases h

/-- Every name that a statement declares is a part of the statement. -/
theorem isInfix_of_mem_declared {statement name : List Char} {kind : Kind}
    (h : (kind, name) ∈ (declared statement).2) : name <:+: statement ∧ IsNameOf kind name := by
  obtain ⟨front, -, hStatement⟩ := exists_modifiers statement
  obtain ⟨hInfix, hName⟩ := isInfix_of_mem_declaredNames h
  have hRest : (modifiers statement).2 <:+ statement := ⟨front, hStatement.symm⟩
  exact ⟨hInfix.trans hRest.isInfix, hName⟩

/-- A statement is exported if `export` and a blank stand at its front. -/
theorem declared_fst_iff {statement : List Char} :
    (declared statement).1 = true ↔
      ∃ c rest, statement = "export".toList ++ c :: rest ∧ isBlank c = true := by
  have hKeyword : (declared statement).1 = (keyword? "export" statement).isSome := by
    simp only [declared, modifiers]
    cases keyword? "export" statement <;> rfl
  rw [hKeyword, Option.isSome_iff_exists]
  constructor
  · rintro ⟨after, hAfter⟩
    obtain ⟨-, _, ⟨hSome, hBlanks⟩, rfl⟩ := keyword?_eq_some_iff.1 hAfter
    rename_i blanks
    obtain ⟨c, more, rfl⟩ := List.exists_cons_of_ne_nil hSome
    exact ⟨c, more ++ after, List.append_assoc _ _ _, hBlanks c List.mem_cons_self⟩
  · rintro ⟨c, rest, rfl, hBlank⟩
    refine ⟨trimStart rest, Option.bind_eq_some_iff.2 ⟨c :: rest, ?_, ?_⟩⟩
    · exact after?_eq_some_iff.2 rfl
    · rw [afterBlanks?, if_pos hBlank]

end Source

/-! ## Occurrences and their lines -/

/-- The occurrence is found in the text of its line, from its column on. -/
structure Occurrence.PointsInto (o : Occurrence) (text : List Char) : Prop where
  column_pos : 1 ≤ o.column
  column_le : o.column ≤ text.length
  unblank : ∀ c ∈ text[o.column - 1]?, Text.isBlank c = false
  context_eq : o.context = some (excerpt (String.ofList (text.drop (o.column - 1))))
  name_valid : Source.IsNameOf o.kind o.name.toList
  name_isInfix : o.name.toList <:+: text.drop (o.column - 1)
  exported_iff : o.exported = true ↔
    ∃ c rest, text.drop (o.column - 1) = "export".toList ++ c :: rest ∧ Text.isBlank c = true

namespace Source

open Text

theorem noBreak_of_mem_lines {text line : List Char} (h : line ∈ lines text) : '\n' ∉ line := by
  generalize hLength : text.length = n
  induction n using Nat.strongRecOn generalizing text with
  | ind n ih =>
    by_cases hBreak : '\n' ∈ text
    · obtain ⟨first, mark, rest, rfl, hFirst, hMark⟩ := exists_lineEnd hBreak
      rw [lines_append_lineEnd hFirst hMark] at h
      rcases List.mem_cons.1 h with rfl | hMem
      · exact hFirst
      · have hShorter : rest.length < n := by
          have hPos : 0 < mark.length := by rcases hMark with rfl | ⟨rfl, _⟩ <;> simp
          simp only [List.length_append] at hLength
          omega
        exact ih _ hShorter hMem rfl
    · by_cases hText : text = []
      · subst hText
        cases h
      · rw [lines_of_noBreak hBreak hText] at h
        rw [List.mem_singleton.1 h]
        exact hBreak

theorem excerpt_of_noBreak {text : List Char} (h : '\n' ∉ text) :
    excerpt (String.ofList text) = String.ofList (lineExcerpt text) := by
  rw [excerpt, String.toList_ofList, excerptChars]
  show String.ofList (lineExcerpt (lineOf text)) = _
  rw [lineOf_of_noBreak h]

/-- The places of a line are ends of it. -/
theorem suffix_of_mem_startsOf {s : Nesting} {line start : List Char} (hLine : '\n' ∉ line)
    (h : start ∈ (startsOf s line).2) : start <:+ line := by
  rw [startsOf_eq s hLine] at h
  obtain ⟨front, hFront, -⟩ := (mem_startIf_starts (Cursor.lineStart 1 s)).1 h
  exact ⟨front, hFront.symm⟩

theorem pointsInto_of_mem_statementAt {file : String} {number : Nat} {line start : List Char}
    (hLine : '\n' ∉ line) (hStart : start <:+ line) {o : Occurrence}
    (h : o ∈ statementAt file number line start) :
    o.file = file ∧ o.line = number ∧ o.PointsInto line := by
  have hSuffix : trimStart start <:+ line := (trimStart_suffix start).trans hStart
  have hDrop : trimStart start = line.drop (line.length - (trimStart start).length) :=
    List.suffix_iff_eq_drop.1 hSuffix
  have hLength := hSuffix.length_le
  simp only [statementAt] at h
  split at h
  · cases h
  · rename_i hIdle
    split at h
    · cases h
    · obtain ⟨⟨kind, name⟩, hMem, rfl⟩ := List.mem_map.1 h
      obtain ⟨hInfix, hName⟩ := isInfix_of_mem_declared hMem
      have hUnblank := unblank_trimStart start
      have hPos : 0 < (trimStart start).length := by
        refine List.length_pos_iff.2 fun hNil => hIdle ?_
        rw [hNil]
        rfl
      have hExcerpt := excerpt_of_noBreak fun hMem => hLine (hSuffix.subset hMem)
      refine ⟨rfl, rfl, ?_⟩
      -- The statement is what stands on the line from the column on.
      generalize trimStart start = statement at *
      have hAt : line.drop (line.length - statement.length + 1 - 1) = statement := hDrop.symm
      refine
        { column_pos := Nat.le_add_left _ _
          column_le := ?_
          unblank := ?_
          context_eq := ?_
          name_valid := ?_
          name_isInfix := ?_
          exported_iff := ?_ }
      · show line.length - statement.length + 1 ≤ line.length
        omega
      · intro c hc
        refine hUnblank c ?_
        rw [hDrop, List.head?_drop]
        exact hc
      · rw [hAt, hExcerpt]
      · rw [String.toList_ofList]
        exact hName
      · rw [hAt, String.toList_ofList]
        exact hInfix
      · rw [hAt]
        exact declared_fst_iff

theorem pointsInto_of_mem_extractLines {file : String} {number : Nat} {s : Nesting}
    {lines : List (List Char)} (hLines : ∀ line ∈ lines, '\n' ∉ line) {o : Occurrence}
    (h : o ∈ extractLines file number s lines) :
    o.file = file ∧ ∃ i line, o.line = number + i ∧ lines[i]? = some line ∧ o.PointsInto line := by
  induction lines generalizing number s with
  | nil => cases h
  | cons line lines ih =>
    obtain ⟨hLine, hRest⟩ := List.forall_mem_cons.1 hLines
    rcases List.mem_append.1 h with hHere | hLater
    · obtain ⟨start, hStart, hMem⟩ := List.mem_flatMap.1 hHere
      obtain ⟨hFile, hNumber, hPoints⟩ :=
        pointsInto_of_mem_statementAt hLine (suffix_of_mem_startsOf hLine hStart) hMem
      exact ⟨hFile, 0, line, hNumber, rfl, hPoints⟩
    · obtain ⟨hFile, i, found, hNumber, hFound, hPoints⟩ := ih hRest hLater
      exact ⟨hFile, i + 1, found, by omega, hFound, hPoints⟩

/-- **Every occurrence points at its own text.** Its line is one of the text, without the byte order
mark, and it points into that line. -/
theorem extract_points_at_text {source file : String} {o : Occurrence}
    (h : o ∈ extract source file) :
    let found := lines (dropMark source.toList)
    o.file = file ∧ 1 ≤ o.line ∧ o.line ≤ found.length ∧
      ∃ line, found[o.line - 1]? = some line ∧ o.PointsInto line := by
  intro found
  have hLines : ∀ line ∈ found, '\n' ∉ line := fun line hMem => noBreak_of_mem_lines hMem
  obtain ⟨hFile, i, line, hNumber, hLine, hPoints⟩ := pointsInto_of_mem_extractLines hLines h
  have hIndex : o.line - 1 = i := by omega
  have hBound : i < found.length := (List.getElem?_eq_some_iff.1 hLine).1
  exact ⟨hFile, by omega, by omega, line, by rw [hIndex, hLine], hPoints⟩

/-- Behind a byte order mark and a line end of two characters, a namespace that follows another
statement and a wide blank. -/
theorem namespace_points_at_text :
    let source := "\uFEFFlet é;\r\nf('ü');\u3000export namespace a.b \x7b\x7d"
    let o : Occurrence :=
      ⟨"a.b", .nameSpace, "a.ts", 2, 9, some "export namespace a.b \x7b\x7d", true⟩
    o ∈ extract source "a.ts" ∧ 1 ≤ o.line ∧ o.line ≤ (lines (dropMark source.toList)).length ∧
      ∃ line, (lines (dropMark source.toList))[o.line - 1]? = some line ∧ o.PointsInto line := by
  intro source o
  have hMem : o ∈ extract source "a.ts" := by decide
  exact ⟨hMem, (extract_points_at_text hMem).2⟩

end Source

end Homonym
