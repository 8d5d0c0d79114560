import Homonym.Proofs.Source.Cut

/-!
# Source texts put one behind the other

If a text ends with a line end and leaves nothing open, then what follows is read as a text of its
own: the declarations of the whole are those of the first part and then those of the second, further
down by the lines of the first (`extract_append`).

A scan over lines can be cut between any two of them (`extractLines_append`); the second part goes
on with the number and the nesting that the first one reached. The number only moves the lines of
the occurrences (`extractLines_add`).
-/

namespace Homonym

/-- The occurrence some lines further down. -/
def Occurrence.movedDown (count : Nat) (o : Occurrence) : Occurrence :=
  { o with line := o.line + count }

namespace Source

open Text

theorem extractLines_append (file : String) (number : Nat) (s : Nesting)
    (front back : List (List Char)) :
    extractLines file number s (front ++ back) =
      extractLines file number s front ++
        extractLines file (number + front.length) (nestingOver s front) back := by
  induction front generalizing number s with
  | nil => rfl
  | cons line front ih =>
    have hNumber : number + 1 + front.length = number + (line :: front).length := by
      rw [List.length_cons]
      omega
    simp only [List.cons_append, extractLines, nestingOver, ih, hNumber, List.append_assoc]

theorem statementAt_add (file : String) (number count : Nat) (line start : List Char) :
    statementAt file (number + count) line start =
      (statementAt file number line start).map (Occurrence.movedDown count) := by
  simp only [statementAt]
  split
  · rfl
  · split
    · rfl
    · rw [List.map_map]
      rfl

theorem extractLines_add (file : String) (number count : Nat) (s : Nesting)
    (lines : List (List Char)) :
    extractLines file (number + count) s lines =
      (extractLines file number s lines).map (Occurrence.movedDown count) := by
  induction lines generalizing number s with
  | nil => rfl
  | cons line lines ih =>
    have hNumber : number + count + 1 = number + 1 + count := by omega
    have hLine : statementAt file (number + count) line =
        fun start => (statementAt file number line start).map (Occurrence.movedDown count) :=
      funext (statementAt_add file number count line)
    simp only [extractLines, hNumber, hLine, ih, List.map_append, List.map_flatMap]

theorem dropMark_eq_self {text : List Char} (h : text.head? ≠ some '\uFEFF') :
    dropMark text = text := by
  unfold dropMark
  split
  · exact absurd rfl h
  · rfl

theorem count_dropMark (text : List Char) : (dropMark text).count '\n' = text.count '\n' := by
  unfold dropMark
  split
  · rw [List.count_cons_of_ne (by decide)]
  · rfl

/-- The line end behind a byte order mark is not dropped with it. -/
theorem getLast?_dropMark {text : List Char} (h : text.getLast? = some '\n') :
    (dropMark text).getLast? = some '\n' := by
  unfold dropMark
  split
  · rename_i rest
    cases rest with
    | nil => exact absurd h (by decide)
    | cons c rest => rwa [List.getLast?_cons_cons] at h
  · exact h

/-- **Extraction goes over concatenation.** The first text is empty or ends with a line feed, and
the nesting behind its lines is that of a fresh start; the second does not begin with a byte order
mark, which would be one only at the front of a text. -/
theorem extract_append {front back : String} (file : String)
    (hEnded : front = "" ∨ front.toList.getLast? = some '\n')
    (hNesting : nestingOver {} (lines (dropMark front.toList)) = {})
    (hMark : back.toList.head? ≠ some '\uFEFF') :
    extract (front ++ back) file =
      extract front file ++
        (extract back file).map (Occurrence.movedDown (front.toList.count '\n')) := by
  have hSplit : dropMark (front ++ back).toList = dropMark front.toList ++ back.toList := by
    rw [String.toList_append]
    rcases hEnded with rfl | hLast
    · exact dropMark_eq_self hMark
    · refine dropMark_append ?_ _
      intro hNil
      rw [hNil] at hLast
      cases hLast
  have hLines : Ended (dropMark front.toList) := by
    apply ended_of_getLast?
    rcases hEnded with rfl | hLast
    · exact Or.inl rfl
    · exact Or.inr (getLast?_dropMark hLast)
  have hCount : (lines (dropMark front.toList)).length = front.toList.count '\n' :=
    hLines.length_lines.trans (count_dropMark _)
  rw [extract, hSplit, hLines.lines_append, extractLines_append, hNesting, hCount,
    extractLines_add, extract, extract, dropMark_eq_self hMark]

/-- The first text has a byte order mark, a line end of two characters and a template over two
lines; a string is open at the end of the second line, and a call in the second text. -/
theorem extract_append_closed_template :
    let front := "\uFEFFconst a = \x60\x24\x7b[\r\n0]\x7d\x60; let b = 'x\n"
    let back := "class B \x7b\x7d\nfoo(\r"
    (front = "" ∨ front.toList.getLast? = some '\n') ∧
      nestingOver {} (lines (dropMark front.toList)) = {} ∧ back.toList.head? ≠ some '\uFEFF' ∧
      extract (front ++ back) "a.ts" =
        extract front "a.ts" ++ (extract back "a.ts").map (Occurrence.movedDown 2) := by
  intro front back
  have hEnded : front = "" ∨ front.toList.getLast? = some '\n' := by decide
  have hNesting : nestingOver {} (lines (dropMark front.toList)) = {} := by decide
  have hMark : back.toList.head? ≠ some '\uFEFF' := by decide
  have hCount : front.toList.count '\n' = 2 := by decide
  have hWhole := extract_append "a.ts" hEnded hNesting hMark
  rw [hCount] at hWhole
  exact ⟨hEnded, hNesting, hMark, hWhole⟩

end Source

end Homonym
