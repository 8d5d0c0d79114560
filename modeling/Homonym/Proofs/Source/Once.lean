import Homonym.Proofs.Source.Order
import Homonym.Proofs.Source.OwnText

/-!
# No statement is read twice

A line is looked at from several places: from its front, and from behind every semicolon, closing
brace and block comment that leaves the nesting. Blanks are skipped at each of them, so two places
could in principle come to the same statement and report it twice. They do not. The character in
front of a later place is not blank, so whoever skips blanks stops at it or before
(`length_lt_of_mem_starts`), and the statements of a line begin in different columns
(`pairwise_startsOf`).

Hence occurrences share a position only within one statement, and there only as bindings of one list
(`pairwise_declared`). `extract_reads_once` puts this together with the order of the occurrences.
-/

namespace Homonym

/-- Both occurrences are bindings of the one `const`, `let` or `var` list that stands on the line
from their column on, behind its modifiers, and the first comes before the second in it. -/
structure Occurrence.BoundBefore (line : List Char) (a b : Occurrence) : Prop where
  kind_left : a.kind = .binding
  kind_right : b.kind = .binding
  exported_eq : a.exported = b.exported
  context_eq : a.context = b.context
  same_list : ∃ front lead list, line.drop (a.column - 1) = front ++ lead ++ list ∧
    Source.Modifiers a.exported front ∧
    (Text.Keyword "const" lead ∨ Text.Keyword "let" lead ∨ Text.Keyword "var" lead) ∧
    [a.name.toList, b.name.toList].Sublist (Source.boundNames list)

namespace Source

open Text

/-! ## The places of a line -/

/-- A statement may begin behind a blank only if that is a line feed. -/
theorem not_isBlank_of_opens {a : Automaton} {c : Char} (h : a.opens c = true) (hc : c ≠ '\n') :
    ¬isBlank c = true := by
  have hEnds : a.ends c = true := (Bool.and_eq_true_iff.1 h).1
  have hMark : c = ';' ∨ c = '\x7d' ∨ c = '/' := by
    obtain ⟨mode, depth, resume⟩ := a
    cases mode <;> simp [Automaton.ends, hc] at hEnds <;> tauto
  rcases hMark with rfl | rfl | rfl <;> decide

theorem trimStart_cons_of_not_blank {c : Char} (hc : ¬isBlank c = true) (rest : List Char) :
    trimStart (c :: rest) = c :: rest :=
  List.dropWhile_cons_of_neg hc

theorem length_trimStart_le_cons (c : Char) (rest : List Char) :
    (trimStart rest).length ≤ (trimStart (c :: rest)).length := by
  by_cases hBlank : isBlank c = true
  · rw [trimStart, trimStart, List.dropWhile_cons_of_pos hBlank]
  · rw [trimStart_cons_of_not_blank hBlank]
    exact (trimStart_suffix rest).length_le.trans (Nat.le_succ _)

/-- Every place behind the front of a text lies behind its first character that is not blank. -/
theorem length_lt_of_mem_starts {a : Automaton} {text start : List Char} (hText : '\n' ∉ text)
    (h : start ∈ a.starts text) : start.length < (trimStart text).length := by
  induction text generalizing a with
  | nil => cases h
  | cons c rest ih =>
    obtain ⟨hc, hRest⟩ := not_or.1 (List.mem_cons.not.1 hText)
    have hLater : start ∈ (a.read c).starts rest → start.length < (trimStart (c :: rest)).length :=
      fun hMem => (ih hRest hMem).trans_le (length_trimStart_le_cons c rest)
    rw [Automaton.starts, Nesting.startIf] at h
    split at h
    · rename_i hOpens
      rcases List.mem_cons.1 h with rfl | hMem
      · rw [trimStart_cons_of_not_blank (not_isBlank_of_opens hOpens (Ne.symm hc))]
        exact Nat.lt_succ_self _
      · exact hLater hMem
    · exact hLater h

theorem pairwise_startIf (fresh : Bool) (a : Automaton) {text : List Char} (hText : '\n' ∉ text) :
    (Nesting.startIf fresh text (a.starts text)).Pairwise fun first later =>
      later.length < (trimStart first).length := by
  induction text generalizing fresh a with
  | nil => cases fresh <;> simp [Nesting.startIf, Automaton.starts]
  | cons c rest ih =>
    have hRest := ih (a.opens c) (a.read c) fun hMem => hText (List.mem_cons_of_mem _ hMem)
    cases fresh with
    | false => exact hRest
    | true => exact .cons (fun start hMem => length_lt_of_mem_starts hText hMem) hRest

/-- Of two places of a line, the later one lies behind the first character that is not blank from
the earlier one on. -/
theorem pairwise_startsOf (s : Nesting) {line : List Char} (hLine : '\n' ∉ line) :
    (startsOf s line).2.Pairwise fun first later => later.length < (trimStart first).length := by
  rw [startsOf_eq s hLine]
  exact pairwise_startIf _ _ hLine

/-! ## The declarations of a statement -/

/-- Only the bindings of a list are several declarations of one statement. -/
theorem pairwise_declared (statement : List Char) :
    (declared statement).2.Pairwise fun a b =>
      a.1 = .binding ∧ b.1 = .binding ∧ ∃ front lead list, statement = front ++ lead ++ list ∧
        Modifiers (declared statement).1 front ∧
        (Keyword "const" lead ∨ Keyword "let" lead ∨ Keyword "var" lead) ∧
        [a.2, b.2].Sublist (boundNames list) := by
  obtain ⟨front, hFront, hStatement⟩ := exists_modifiers statement
  show (declaredNames (modifiers statement).2).Pairwise _
  rw [declaredNames]
  split
  · exact List.pairwise_singleton _ _
  · split
    · rename_i list hList
      obtain ⟨lead, hRest, hLead⟩ := bindingList?_eq_some hList
      rw [List.pairwise_map, List.pairwise_iff_forall_sublist]
      intro first second hNames
      refine ⟨rfl, rfl, front, lead, list, ?_, hFront, hLead, hNames⟩
      rw [List.append_assoc, ← hRest]
      exact hStatement
    · exact .nil

/-- What a statement declares stands in the column in which the statement begins. -/
theorem column_of_mem_statementAt {file : String} {number : Nat} {line start : List Char}
    {o : Occurrence} (h : o ∈ statementAt file number line start) :
    o.line = number ∧ o.column = line.length - (trimStart start).length + 1 := by
  simp only [statementAt] at h
  split at h
  · cases h
  · split at h
    · cases h
    · obtain ⟨found, -, rfl⟩ := List.mem_map.1 h
      exact ⟨rfl, rfl⟩

theorem pairwise_statementAt (file : String) (number : Nat) {line start : List Char}
    (hStart : start <:+ line) :
    (statementAt file number line start).Pairwise (Occurrence.BoundBefore line) := by
  have hSuffix : trimStart start <:+ line := (trimStart_suffix start).trans hStart
  have hDrop : line.drop (line.length - (trimStart start).length + 1 - 1) = trimStart start :=
    (List.suffix_iff_eq_drop.1 hSuffix).symm
  simp only [statementAt]
  split
  · exact .nil
  · split
    · exact .nil
    · rw [List.pairwise_map]
      refine (pairwise_declared (trimStart start)).imp ?_
      rintro ⟨kind, name⟩ ⟨kind', name'⟩ ⟨rfl, rfl, hList⟩
      refine ⟨rfl, rfl, rfl, rfl, ?_⟩
      simpa only [hDrop, String.toList_ofList] using hList

/-! ## The occurrences of a text -/

/-- On a line, occurrences in one column are bindings of one list. -/
theorem pairwise_line (file : String) (number : Nat) (s : Nesting) {line : List Char}
    (hLine : '\n' ∉ line) :
    ((startsOf s line).2.flatMap (statementAt file number line)).Pairwise fun a b =>
      a.column = b.column → a.BoundBefore line b := by
  rw [List.pairwise_flatMap]
  constructor
  · intro start hStart
    refine (pairwise_statementAt file number (suffix_of_mem_startsOf hLine hStart)).imp ?_
    intro a b hBefore _
    exact hBefore
  · refine (pairwise_startsOf s hLine).imp_of_mem ?_
    intro first later hFirst _ hShorter a ha b hb hColumn
    -- The later statement is shorter, and both reach to the end of the line.
    have hWhole : (trimStart first).length ≤ line.length :=
      ((trimStart_suffix first).trans (suffix_of_mem_startsOf hLine hFirst)).length_le
    have hTrim := (trimStart_suffix later).length_le
    rw [(column_of_mem_statementAt ha).2, (column_of_mem_statementAt hb).2] at hColumn
    omega

theorem pairwise_extractLines (file : String) (number : Nat) (s : Nesting)
    {lines : List (List Char)} (hLines : ∀ line ∈ lines, '\n' ∉ line) :
    (extractLines file number s lines).Pairwise fun a b =>
      a.position = b.position →
        ∃ line, lines[a.line - number]? = some line ∧ a.BoundBefore line b := by
  induction lines generalizing number s with
  | nil => exact .nil
  | cons line rest ih =>
    obtain ⟨hLine, hRest⟩ := List.forall_mem_cons.1 hLines
    have hHere : ∀ o ∈ (startsOf s line).2.flatMap (statementAt file number line),
        o.line = number := by
      intro o hMem
      obtain ⟨start, -, hStatement⟩ := List.mem_flatMap.1 hMem
      exact (column_of_mem_statementAt hStatement).1
    have hBelow : ∀ o ∈ extractLines file (number + 1) (startsOf s line).1 rest,
        number + 1 ≤ o.line := by
      intro o hMem
      obtain ⟨-, i, -, hNumber, -⟩ := pointsInto_of_mem_extractLines hRest hMem
      omega
    show ((startsOf s line).2.flatMap (statementAt file number line) ++
      extractLines file (number + 1) (startsOf s line).1 rest).Pairwise _
    rw [List.pairwise_append]
    refine ⟨?_, ?_, ?_⟩
    · refine (pairwise_line file number s hLine).imp_of_mem ?_
      intro a b ha _ hBound hPosition
      refine ⟨line, ?_, hBound (congrArg Position.column hPosition)⟩
      rw [hHere a ha, Nat.sub_self]
      rfl
    · refine (ih (number + 1) _ hRest).imp_of_mem ?_
      intro a b ha _ hBound hPosition
      obtain ⟨found, hFound, hSame⟩ := hBound hPosition
      have hIndex : a.line - number = a.line - (number + 1) + 1 := by
        have := hBelow a ha
        omega
      exact ⟨found, by rw [hIndex]; exact hFound, hSame⟩
    · intro a ha b hb hPosition
      have hSame : a.line = b.line := congrArg Position.line hPosition
      have := hHere a ha
      have := hBelow b hb
      omega

/-- An element that is related to no other is the only one with its key. -/
theorem filter_key_eq_singleton {α β : Type} [DecidableEq β] {key : α → β} {P : α → Prop}
    {l : List α} (h : l.Pairwise fun a b => key a = key b → P a ∧ P b) {x : α} (hMem : x ∈ l)
    (hx : ¬P x) : l.filter (fun y => key y = key x) = [x] := by
  obtain ⟨before, behind, rfl⟩ := List.append_of_mem hMem
  rw [List.pairwise_append, List.pairwise_cons] at h
  obtain ⟨-, ⟨hBehind, -⟩, hBefore⟩ := h
  have hFront : before.filter (fun y => key y = key x) = [] := by
    rw [List.filter_eq_nil_iff]
    intro y hy hKey
    exact hx (hBefore y hy x List.mem_cons_self (of_decide_eq_true hKey)).2
  have hBack : behind.filter (fun y => key y = key x) = [] := by
    rw [List.filter_eq_nil_iff]
    intro y hy hKey
    exact hx (hBehind y hy (of_decide_eq_true hKey).symm).1
  rw [List.filter_append, List.filter_cons_of_pos (by simp), hFront, hBack, List.nil_append]

/-- **Every statement is read once.** The occurrences of a text come in the order of their
positions. Where two of them have the same position, both are bindings of one list. So a declaration
that is no binding is the only occurrence at its position. -/
theorem extract_reads_once (source file : String) :
    let found := extract source file
    let text := lines (dropMark source.toList)
    (found.Pairwise fun a b => a.position ≤ b.position ∧
      (a.position = b.position →
        ∃ line, text[a.line - 1]? = some line ∧ a.BoundBefore line b)) ∧
    ∀ o ∈ found, o.kind ≠ .binding → found.filter (fun p => p.position = o.position) = [o] := by
  intro found text
  have hText : ∀ line ∈ text, '\n' ∉ line := fun line hMem => noBreak_of_mem_lines hMem
  have hShared := pairwise_extractLines file 1 {} hText
  refine ⟨(pairwise_extract source file).and hShared, fun o hMem hKind => ?_⟩
  refine filter_key_eq_singleton (P := fun p => p.kind = .binding) (hShared.imp ?_) hMem hKind
  intro a b hBound hPosition
  obtain ⟨_, -, hBefore⟩ := hBound hPosition
  exact ⟨hBefore.kind_left, hBefore.kind_right⟩

/-- Two bindings in one place, and a class behind blanks between two places of the line. -/
theorem bindings_and_class_read_once :
    let source := "export let a = 1, b: T;\t /**/ class A \x7b\x7d"
    let context := some "export let a = 1, b: T;\t /**/ class A \x7b\x7d"
    let a : Occurrence := ⟨"a", .binding, "a.ts", 1, 1, context, true⟩
    let b : Occurrence := ⟨"b", .binding, "a.ts", 1, 1, context, true⟩
    let o : Occurrence := ⟨"A", .classType, "a.ts", 1, 31, some "class A \x7b\x7d", false⟩
    extract source "a.ts" = [a, b, o] ∧
      (∃ line, (lines (dropMark source.toList))[0]? = some line ∧ a.BoundBefore line b) ∧
      (extract source "a.ts").filter (fun p => p.position = o.position) = [o] := by
  intro source context a b o
  have hFound : extract source "a.ts" = [a, b, o] := by decide
  obtain ⟨hPairs, hOnce⟩ := extract_reads_once source "a.ts"
  rw [hFound, List.pairwise_cons] at hPairs
  exact ⟨hFound, (hPairs.1 b List.mem_cons_self).2 rfl, hOnce o (by simp [hFound]) (by decide)⟩

end Source

end Homonym
