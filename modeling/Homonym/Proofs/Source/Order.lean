import Homonym.Proofs.Source.TopLevel

/-!
# Declarations come in the order of the text

The occurrences of a text come in the order of their positions (`pairwise_extract`); those of one
list of bindings share a position. Between two places where a statement may begin there may be
blanks alone, so a place is compared by what lies ahead of it: a cursor that moves on never has
less ahead (`Cursor.ahead_le_next`).
-/

namespace Homonym.Source

open Text

namespace Cursor

/-- The position of the first character from the cursor on that is not blank. -/
def ahead (k : Cursor) (rest : List Char) : Position :=
  k.position.pass (rest.takeWhile isBlank)

theorem ahead_le_next (k : Cursor) (c : Char) (rest : List Char) :
    k.ahead (c :: rest) ≤ (k.next c).ahead rest := by
  by_cases hBlank : isBlank c = true
  · rw [ahead, List.takeWhile_cons_of_pos hBlank, Position.pass_cons]
    exact le_rfl
  · rw [ahead, List.takeWhile_cons_of_neg hBlank, Position.pass_nil]
    exact (k.position.lt_next c).le.trans (Position.le_pass _ _)

/-- What is declared at a cursor begins at the first character ahead of it. -/
theorem position_of_mem_found {file : String} {k : Cursor} {rest : List Char} {o : Occurrence}
    (h : o ∈ k.found file (lineOf rest)) : o.position = k.ahead rest := by
  rw [found] at h
  split at h
  · obtain ⟨blanks, c, after, hLine, hBlanks, hc, hPosition⟩ := position_of_mem_declarationsAt h
    obtain ⟨⟨tail, hTail⟩, hBreak⟩ := prefix_lineOf rest
    rw [hLine] at hTail hBreak
    have hNoBreak : '\n' ∉ blanks := fun hMem => hBreak (List.mem_append_left _ hMem)
    have hTaken : rest.takeWhile isBlank = blanks := by
      rw [← hTail, List.append_assoc, List.takeWhile_append_of_pos hBlanks, List.cons_append,
        List.takeWhile_cons_of_neg (by simp [hc]), List.append_nil]
    rw [ahead, hTaken, Position.pass_of_noBreak _ hNoBreak, hPosition]
  · cases h

theorem ahead_le_of_mem {file : String} {k : Cursor} {text behind : List Char} {o : Occurrence}
    (h : o ∈ k.statements file text behind) : k.ahead (text ++ behind) ≤ o.position := by
  induction text generalizing k with
  | nil => cases h
  | cons c text ih =>
    rcases List.mem_append.1 h with hHere | hLater
    · exact (position_of_mem_found hHere).ge
    · exact (k.ahead_le_next c (text ++ behind)).trans (ih hLater)

theorem pairwise_statements (file : String) (k : Cursor) (text behind : List Char) :
    (k.statements file text behind).Pairwise fun a b => a.position ≤ b.position := by
  induction text generalizing k with
  | nil => exact .nil
  | cons c text ih =>
    rw [statements, List.pairwise_append]
    refine ⟨List.pairwise_of_forall_mem_list fun a ha b hb => ?_, ih _, fun a ha b hb => ?_⟩
    · rw [position_of_mem_found ha, position_of_mem_found hb]
    · rw [position_of_mem_found ha]
      exact (k.ahead_le_next c (text ++ behind)).trans (ahead_le_of_mem hb)

end Cursor

/-- **The occurrences of a text come in its order.** -/
theorem pairwise_extract (source file : String) :
    (extract source file).Pairwise fun a b => a.position ≤ b.position := by
  rw [extract_eq]
  exact Cursor.pairwise_statements file {} _ []

theorem file_of_mem_extract {source file : String} {o : Occurrence}
    (h : o ∈ extract source file) : o.file = file := by
  rw [extract_eq] at h
  obtain ⟨front, back, -, -, -, hMem⟩ := Cursor.mem_statements h
  simp only [declarationsAt] at hMem
  split at hMem
  · cases hMem
  · obtain ⟨found, -, rfl⟩ := List.mem_map.1 hMem
    rfl

end Homonym.Source
