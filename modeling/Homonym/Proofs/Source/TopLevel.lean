import Homonym.Proofs.Source.OnePass

/-!
# Declarations stand at the top level

Every occurrence that `extract` reports begins at a place where the automaton, which reads the text
character by character, is in code and outside every bracket: never in a string, a template, a
comment or a block. The place is there in the text, and what stands there is not blank.
-/

namespace Homonym.Source

open Text

theorem isPlain_of_isBlank {c : Char} (h : isBlank c = true) : Automaton.isPlain c = true := by
  have hMarks : ['/', '\'', '"', '\x60', '(', '[', '\x7b', ')', ']', '\x7d'].all
      (fun d => !isBlank d) = true := by decide
  simp only [Automaton.isPlain, decide_eq_true_eq]
  intro hMem
  have hNot := List.all_eq_true.1 hMarks c hMem
  rw [h] at hNot
  cases hNot

/-- A declaration begins at the first character of its line that is not blank. -/
theorem position_of_mem_declarationsAt {file : String} {p : Position} {line : List Char}
    {o : Occurrence} (h : o ∈ declarationsAt file p line) :
    ∃ blanks c rest, line = blanks ++ c :: rest ∧ (∀ b ∈ blanks, isBlank b = true) ∧
      isBlank c = false ∧ o.position = ⟨p.line, p.column + blanks.length⟩ := by
  have hSplit : line = line.takeWhile isBlank ++ trimStart line :=
    List.takeWhile_append_dropWhile.symm
  simp only [declarationsAt] at h
  split at h
  · cases h
  · next hIdle =>
    obtain ⟨⟨kind, name⟩, _, rfl⟩ := List.mem_map.1 h
    rcases trimStart_eq_nil_or line with hNil | ⟨c, rest, hStatement, hc⟩
    · rw [hNil] at hIdle
      exact absurd rfl hIdle
    · refine ⟨line.takeWhile isBlank, c, rest, hStatement ▸ hSplit, ?_, hc, ?_⟩
      · exact List.all_eq_true.1 List.all_takeWhile
      · have hLength := congrArg List.length hSplit
        rw [List.length_append] at hLength
        simp only [Occurrence.position, Position.mk.injEq, true_and]
        omega

/-- Blanks leave the automaton at the top level. -/
theorem run_blanks {a : Automaton} (h : a.AtTop) {blanks : List Char}
    (hBlanks : ∀ b ∈ blanks, isBlank b = true) : a.run blanks = a :=
  Automaton.run_of_isPlain h.1 fun b hb => isPlain_of_isBlank (hBlanks b hb)

/-- What a pass finds begins behind some blanks at the top level. The blanks may reach into what
follows the text of the pass. -/
theorem exists_place {file : String} {k : Cursor} (hk : k.Sound) {text behind : List Char}
    {o : Occurrence} (h : o ∈ k.statements file text behind) :
    ∃ start blanks c back, start <+: text ∧ text ++ behind = start ++ blanks ++ c :: back ∧
      (k.inside.run start).AtTop ∧ (∀ b ∈ blanks, isBlank b = true) ∧ isBlank c = false ∧
      o.position = k.position.pass (start ++ blanks) := by
  obtain ⟨start, rest, rfl, -, hFresh, hMem⟩ := Cursor.mem_statements h
  obtain ⟨blanks, c, back, hLine, hBlanks, hc, hPosition⟩ := position_of_mem_declarationsAt hMem
  obtain ⟨⟨tail, hTail⟩, hBreak⟩ := prefix_lineOf (rest ++ behind)
  rw [hLine] at hTail hBreak
  have hTop := hk.pass start hFresh
  rw [Cursor.inside_pass] at hTop
  have hNoBreak : '\n' ∉ blanks := fun hb => hBreak (List.mem_append_left _ hb)
  refine ⟨start, blanks, c, back ++ tail, List.prefix_append _ _, ?_, hTop, hBlanks, hc, ?_⟩
  · rw [List.append_assoc, ← hTail]
    simp only [List.append_assoc, List.cons_append]
  · rw [hPosition, Position.pass_append, Position.pass_of_noBreak _ hNoBreak,
      Cursor.position_pass]

/-- **Extraction is sound.** The text in front of a reported declaration leaves the automaton in
code, outside every bracket. -/
theorem extract_begins_in_code {source file : String} {o : Occurrence}
    (h : o ∈ extract source file) :
    let text := dropMark source.toList
    let front := textBefore o.position {} text
    (Automaton.run {} front).mode = .code ∧ (Automaton.run {} front).depth = 0 ∧
      Position.pass {} front = o.position ∧
      ∃ c back, text = front ++ c :: back ∧ isBlank c = false := by
  intro text front
  rw [extract_eq] at h
  obtain ⟨start, blanks, c, back, -, hText, hTop, hBlanks, hc, hPosition⟩ :=
    exists_place Cursor.sound_start h
  rw [List.append_nil] at hText
  have hFront : front = start ++ blanks := by
    show textBefore o.position {} (dropMark source.toList) = start ++ blanks
    rw [hText, hPosition]
    exact textBefore_pass _ _ _
  have hState : Automaton.run {} front = Automaton.run {} start := by
    rw [hFront, Automaton.run_append, run_blanks hTop hBlanks]
  rw [hState, hFront]
  exact ⟨hTop.1, hTop.2, hPosition.symm, c, back, hText, hc⟩

/-- A class behind a comment, on the line below a template that holds code, a string and braces. -/
theorem class_begins_in_code :
    let source := "\x60$\x7bf(\x7ba: '\x7d'\x7d)\x7d //\x60\n/*(*/  class A"
    let o : Occurrence := ⟨"A", .classType, "a.ts", 2, 8, some "class A", false⟩
    let front := textBefore o.position {} (dropMark source.toList)
    o ∈ extract source "a.ts" ∧ (Automaton.run {} front).mode = .code ∧
      (Automaton.run {} front).depth = 0 := by
  have hMem : (⟨"A", .classType, "a.ts", 2, 8, some "class A", false⟩ : Occurrence) ∈
      extract "\x60$\x7bf(\x7ba: '\x7d'\x7d)\x7d //\x60\n/*(*/  class A" "a.ts" := by decide
  obtain ⟨hMode, hDepth, -⟩ := extract_begins_in_code hMem
  exact ⟨hMem, hMode, hDepth⟩

end Homonym.Source
