import Homonym.Proofs.Source.Nested
import Homonym.Proofs.Text.Words

/-!
# Texts that are one statement

Let a source text be a statement on one line, with nothing but blanks behind it. If no other
statement may begin in front of its last character (`Automaton.starts` is empty up to there), then
the text declares what the statement declares (`identities_extract`). Where no statement may begin
is seen piece by piece: not among characters that neither nest nor end anything
(`starts_of_isQuiet`), and not within brackets (`starts_of_leads`).
-/

namespace Homonym.Source

open Text

namespace Automaton

/-- A character that, in code, neither nests nor ends anything. -/
def isQuiet (c : Char) : Bool :=
  c ∉ [';', '\n', '/', '\'', '"', '\x60', '(', '[', '\x7b', ')', ']', '\x7d']

theorem isQuiet_of_isBlank {c : Char} (h : isBlank c = true) (hBreak : c ≠ '\n') :
    isQuiet c = true := by
  have hMark := isPlain_of_isBlank h
  have hEnd : c ≠ ';' := by
    rintro rfl
    cases h
  simp only [isPlain, List.mem_cons, not_or, decide_eq_true_eq] at hMark
  simp only [isQuiet, List.mem_cons, not_or, decide_eq_true_eq]
  exact ⟨hEnd, hBreak, hMark⟩

theorem isQuiet_of_continues {c : Char} (h : ContinuesIdentifier c) : isQuiet c = true :=
  decide_eq_true (h.not_mem (by decide))

theorem isPlain_of_isQuiet {c : Char} (h : isQuiet c = true) : isPlain c = true := by
  simp only [isQuiet, List.mem_cons, not_or, decide_eq_true_eq] at h
  simp only [isPlain, List.mem_cons, not_or, decide_eq_true_eq]
  exact h.2.2

theorem starts_cons_eq_nil {a : Automaton} {c : Char} {text : List Char} :
    a.starts (c :: text) = [] ↔ a.opens c = false ∧ (a.read c).starts text = [] := by
  rw [starts, Nesting.startIf]
  cases a.opens c <;> simp

theorem starts_append_eq_nil {a : Automaton} {front back : List Char} (hFront : a.starts front = [])
    (hBack : (a.run front).starts back = []) : a.starts (front ++ back) = [] := by
  induction front generalizing a with
  | nil => exact hBack
  | cons c front ih =>
    obtain ⟨hOpens, hRest⟩ := starts_cons_eq_nil.1 hFront
    exact starts_cons_eq_nil.2 ⟨hOpens, ih hRest hBack⟩

theorem starts_of_isQuiet {a : Automaton} (hMode : a.mode = .code) {text : List Char}
    (hText : ∀ c ∈ text, isQuiet c = true) : a.starts text = [] := by
  induction text with
  | nil => rfl
  | cons c text ih =>
    obtain ⟨hc, hRest⟩ := List.forall_mem_cons.1 hText
    have hEnds : a.ends c = false := by
      have hMarks := hc
      simp only [isQuiet, List.mem_cons, not_or, decide_eq_true_eq] at hMarks
      simp only [ends, hMode, Bool.or_eq_false_iff, beq_eq_false_iff_ne]
      exact ⟨⟨hMarks.2.1, hMarks.1⟩, by tauto⟩
    refine starts_cons_eq_nil.2 ⟨by rw [opens, hEnds, Bool.false_and], ?_⟩
    rw [read_of_isPlain hMode (isPlain_of_isQuiet hc)]
    exact ih hRest

/-- Within brackets no statement begins. -/
theorem starts_of_leads {a b : Automaton} {text : List Char} (h : Leads 1 a text b) :
    a.starts text = [] := by
  induction text generalizing a with
  | nil => rfl
  | cons c text ih =>
    have hDeep : 1 ≤ (a.read c).depth := h.deep [c] ⟨text, rfl⟩
    have hOpens : a.opens c = false := by
      refine Bool.eq_false_iff.2 fun hTrue => ?_
      have hTop := (atTop_of_opens hTrue).2
      omega
    refine starts_cons_eq_nil.2 ⟨hOpens, ih ⟨h.run_eq, ?_⟩⟩
    intro front hFront
    exact h.deep (c :: front) (List.cons_prefix_cons.2 ⟨rfl, hFront⟩)

end Automaton

/-! ## One statement -/

namespace Cursor

theorem statements_of_starts {file : String} {k : Cursor} (hFresh : k.fresh = false)
    {text : List Char} (hText : k.inside.starts text = []) (last : Char) (behind : List Char) :
    k.statements file (text ++ [last]) behind = [] := by
  induction text generalizing k with
  | nil => rw [List.nil_append, statements, found, hFresh]; rfl
  | cons c text ih =>
    obtain ⟨hOpens, hRest⟩ := Automaton.starts_cons_eq_nil.1 hText
    rw [List.cons_append, statements, ih hOpens hRest, found, hFresh]
    rfl

theorem statements_blanks {file : String} {k : Cursor} {blanks : List Char}
    (h : AreBlank blanks) : k.statements file blanks [] = [] := by
  refine List.eq_nil_iff_forall_not_mem.2 fun o ho => ?_
  obtain ⟨front, back, rfl, -, -, hMem⟩ := mem_statements ho
  obtain ⟨lead, c, rest, hLine, -, hc, -⟩ := position_of_mem_declarationsAt hMem
  have hPart : c ∈ back := by
    have hFront := (prefix_lineOf (back ++ [])).1.subset
    rw [List.append_nil] at hFront hLine
    rw [hLine] at hFront
    exact hFront (List.mem_append_right _ List.mem_cons_self)
  rw [h c (List.mem_append_right _ hPart)] at hc
  cases hc

end Cursor

theorem isIdle_of_begins {c : Char} (hc : BeginsIdentifier c) (rest : List Char) :
    isIdle (c :: rest) = false := by
  have hSlash : '/' ≠ c := by
    rintro rfl
    exact absurd (isIdentifierStart_iff.2 hc) (by decide)
  simp only [isIdle, List.isEmpty_cons, after?, if_neg hSlash, Option.isSome_none, Bool.or_self]

/-- A text that is one statement declares what the statement declares. The statement begins with a
letter, and no other may begin in front of its last character; the blanks on its line count as part
of it. -/
theorem identities_extract {text blanks : List Char} {last : Char}
    (hFirst : ∃ c ∈ text.head?, BeginsIdentifier c) (hBreak : '\n' ∉ text)
    (hLast : last ≠ '\n' ∧ last ≠ '\r') (hStarts : Automaton.starts {} text = [])
    (hBlanks : AreBlank blanks) (file : String) :
    ∃ gap, (extract (String.ofList (text ++ last :: blanks)) file).map Occurrence.identity =
      (declared (text ++ last :: gap)).2.map fun found => ⟨String.ofList found.2, found.1⟩ := by
  obtain ⟨c, hHead, hc⟩ := hFirst
  obtain ⟨rest, rfl⟩ := List.head?_eq_some_iff.1 hHead
  have hMark : dropMark (c :: rest ++ last :: blanks) = c :: rest ++ last :: blanks := by
    rw [List.cons_append, dropMark]
    rintro _ hText
    obtain ⟨rfl, -⟩ := List.cons.inj hText
    exact absurd (isIdentifierStart_iff.2 hc) (by decide)
  have hLine : lineOf (c :: rest ++ last :: blanks) = c :: rest ++ last :: lineOf blanks := by
    rw [lineOf_append hBreak hLast.1, lineOf_cons_plain hLast.1 (.inl hLast.2)]
  have hTrim : trimStart (c :: rest ++ last :: lineOf blanks) =
      c :: rest ++ last :: lineOf blanks := by
    refine trimStart_of_unblank ?_
    rintro d ⟨⟩
    exact ContinuesIdentifier.not_isBlank (.inl hc)
  have hOne : extract (String.ofList (c :: rest ++ last :: blanks)) file =
      declarationsAt file {} (c :: rest ++ last :: lineOf blanks) := by
    obtain ⟨hOpens, hRest⟩ := Automaton.starts_cons_eq_nil.1 hStarts
    have hText : c :: rest ++ last :: blanks = c :: (rest ++ [last] ++ blanks) := by
      rw [List.append_assoc, List.singleton_append, List.cons_append]
    -- No statement begins up to `last`, and those that begin behind it are blank.
    have hNone : (Cursor.next {} c).statements file (rest ++ [last] ++ blanks) [] = [] := by
      rw [Cursor.statements_append, Cursor.statements_of_starts hOpens hRest,
        Cursor.statements_blanks hBlanks]
      rfl
    rw [extract_eq, String.toList_ofList, hMark, hText, Cursor.statements, hNone, List.append_nil,
      List.append_nil, ← hText, hLine]
    rfl
  refine ⟨lineOf blanks, ?_⟩
  rw [hOne, declarationsAt, hTrim, List.cons_append, isIdle_of_begins hc]
  exact List.map_map

end Homonym.Source
