import Homonym.Text.Lines

/-!
# Lines and line ends

`lines` cuts a text at its line ends. `LineEnd line mark` says that `mark` is the whole of the line
end behind `line`: a carriage return that stands before the line feed belongs to it.

* `exists_lineEnd`: a text with a line feed is a line, its line end and a rest.
* `lines_append_lineEnd`, `lines_of_noBreak`: what `lines` makes of such a text, and of one without
  a line feed.
* `Ended.lines_append`, `Ended.length_lines`: the lines of a text that ends with a line end are not
  touched by what follows, and there are as many as line feeds.
-/

namespace Homonym.Text

/-- The mark is all of the line end that follows the line. -/
def LineEnd (line mark : List Char) : Prop :=
  mark = ['\r', '\n'] ∨ mark = ['\n'] ∧ line.getLast? ≠ some '\r'

theorem LineEnd.of_append (front : List Char) {line mark : List Char}
    (h : LineEnd (front ++ line) mark) : LineEnd line mark := by
  rcases h with rfl | ⟨rfl, hLast⟩
  · exact Or.inl rfl
  · refine Or.inr ⟨rfl, fun hReturn => hLast ?_⟩
    rw [List.getLast?_append, hReturn]
    rfl

theorem LineEnd.cons {line mark : List Char} (h : LineEnd line mark) {c : Char}
    (hc : c ≠ '\r' ∨ line ≠ []) : LineEnd (c :: line) mark := by
  rcases h with rfl | ⟨rfl, hLast⟩
  · exact Or.inl rfl
  · refine Or.inr ⟨rfl, ?_⟩
    cases line with
    | nil => simpa using hc
    | cons d line => rwa [List.getLast?_cons_cons]

theorem exists_lineEnd {text : List Char} (h : '\n' ∈ text) :
    ∃ line mark rest, text = line ++ mark ++ rest ∧ '\n' ∉ line ∧ LineEnd line mark := by
  induction text with
  | nil => cases h
  | cons c text ih =>
    by_cases hc : c = '\n'
    · exact ⟨[], ['\n'], text, by simp [hc], by simp, Or.inr ⟨rfl, by simp⟩⟩
    · have hText : '\n' ∈ text := by simpa [Ne.symm hc] using h
      obtain ⟨line, mark, rest, rfl, hLine, hMark⟩ := ih hText
      by_cases hReturn : c = '\r' ∧ line = []
      · obtain ⟨rfl, rfl⟩ := hReturn
        rcases hMark with rfl | ⟨rfl, _⟩
        · exact ⟨['\r'], ['\r', '\n'], rest, rfl, by simp, Or.inl rfl⟩
        · exact ⟨[], ['\r', '\n'], rest, rfl, by simp, Or.inl rfl⟩
      · refine ⟨c :: line, mark, rest, rfl, ?_, hMark.cons ?_⟩
        · simp [Ne.symm hc, hLine]
        · rcases Decidable.not_and_iff_or_not.1 hReturn with h | h
          · exact Or.inl h
          · exact Or.inr h

theorem lines_cons_plain {c : Char} {rest : List Char} (hc : c ≠ '\n')
    (hReturn : c ≠ '\r' ∨ rest.head? ≠ some '\n') :
    lines (c :: rest) = consFirst c (lines rest) := by
  rw [lines]
  · exact hc
  · rintro tail rfl rfl
    rcases hReturn with h | h <;> exact h rfl

theorem lines_append_lineEnd {line mark : List Char} (hLine : '\n' ∉ line)
    (hMark : LineEnd line mark) (rest : List Char) :
    lines (line ++ mark ++ rest) = line :: lines rest := by
  induction line with
  | nil => rcases hMark with rfl | ⟨rfl, _⟩ <;> simp [lines]
  | cons c line ih =>
    simp only [List.mem_cons, not_or] at hLine
    obtain ⟨hc, hLine⟩ := hLine
    have hPlain : c ≠ '\r' ∨ (line ++ mark ++ rest).head? ≠ some '\n' := by
      cases line with
      | nil =>
        rcases hMark with rfl | ⟨rfl, hLast⟩
        · exact Or.inr (by simp)
        · exact Or.inl (by simpa using hLast)
      | cons d line =>
        refine Or.inr fun hHead => hLine ?_
        simp only [List.cons_append, List.head?_cons, Option.some.injEq] at hHead
        simp [hHead]
    rw [List.cons_append, List.cons_append, lines_cons_plain (Ne.symm hc) hPlain,
      ih hLine (hMark.of_append [c]), consFirst]

theorem lines_of_noBreak {text : List Char} (h : '\n' ∉ text) (hText : text ≠ []) :
    lines text = [text] := by
  induction text with
  | nil => exact absurd rfl hText
  | cons c text ih =>
    simp only [List.mem_cons, not_or] at h
    have hPlain : text.head? ≠ some '\n' := fun hHead => h.2 (List.mem_of_mem_head? hHead)
    rw [lines_cons_plain (Ne.symm h.1) (Or.inr hPlain)]
    cases text with
    | nil => rfl
    | cons d text => rw [ih h.2 (List.cons_ne_nil _ _), consFirst]

/-! ## Texts of whole lines -/

/-- A text whose lines are all ended. -/
inductive Ended : List Char → Prop where
  | nil : Ended []
  | line {line mark rest : List Char} (hLine : '\n' ∉ line) (hMark : LineEnd line mark)
      (hRest : Ended rest) : Ended (line ++ mark ++ rest)

theorem ended_of_getLast? {text : List Char} (h : text = [] ∨ text.getLast? = some '\n') :
    Ended text := by
  generalize hLength : text.length = n
  induction n using Nat.strongRecOn generalizing text with
  | ind n ih =>
    rcases h with rfl | hLast
    · exact .nil
    · obtain ⟨line, mark, rest, rfl, hLine, hMark⟩ := exists_lineEnd (List.mem_of_getLast? hLast)
      have hShorter : rest.length < n := by
        have hPos : 0 < mark.length := by rcases hMark with rfl | ⟨rfl, _⟩ <;> simp
        simp only [List.length_append] at hLength
        omega
      have hRest : rest = [] ∨ rest.getLast? = some '\n' := by
        rw [List.getLast?_append] at hLast
        cases hCase : rest.getLast? with
        | none => exact Or.inl (List.getLast?_eq_none_iff.1 hCase)
        | some c =>
          rw [hCase] at hLast
          exact Or.inr hLast
      exact .line hLine hMark (ih _ hShorter hRest rfl)

theorem Ended.lines_append {front : List Char} (h : Ended front) (back : List Char) :
    lines (front ++ back) = lines front ++ lines back := by
  induction h with
  | nil => rfl
  | line hLine hMark _ ih =>
    rw [List.append_assoc, lines_append_lineEnd hLine hMark, ih,
      lines_append_lineEnd hLine hMark, List.cons_append]

theorem Ended.length_lines {text : List Char} (h : Ended text) :
    (lines text).length = text.count '\n' := by
  induction h with
  | nil => rfl
  | @line line mark rest hLine hMark _ ih =>
    have hOne : mark.count '\n' = 1 := by
      rcases hMark with rfl | ⟨rfl, -⟩ <;> rfl
    rw [lines_append_lineEnd hLine hMark, List.length_cons, ih, List.count_append,
      List.count_append, List.count_eq_zero_of_not_mem hLine, hOne]
    omega

end Homonym.Text
