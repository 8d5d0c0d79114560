import Mathlib.Data.List.DropRight
import Homonym.Proofs.Source.TopLevel

/-!
# Cutting a source text

A text may be cut anywhere. `nestingBehind` is what the scanner knows at the cut: it has gone over
the lines that are ended there, and over the front of the line that is not. `startsBehind` are the
places of that last line where statements may begin.

* `nestingBehind_eq`, `mem_startsBehind`: both are what a cursor knows that has gone over the text.
* `position_lt_of_mem`, `le_position_of_mem`: if a text does not end at the top level, whatever
  begins in it lies in front of its end, and whatever begins later lies behind it.
-/

namespace Homonym.Source

open Text

/-- The nesting behind some lines. -/
def nestingOver : Nesting → List (List Char) → Nesting
  | s, [] => s
  | s, line :: rest => nestingOver (startsOf s line).1 rest

/-- The lines of a text that are ended. -/
def endedLines (text : List Char) : List (List Char) :=
  lines (text.rdropWhile (· ≠ '\n'))

/-- What follows the last line feed of a text. -/
def openLine (text : List Char) : List Char :=
  text.rtakeWhile (· ≠ '\n')

/-- The nesting at the end of a text, which may be within a line. -/
def nestingBehind (text : List Char) : Nesting :=
  ((nestingOver {} (endedLines text)).scan (openLine text)).1

/-- The places on the last line of a text where statements may begin, each as what follows it. -/
def startsBehind (text : List Char) : List (List Char) :=
  (startsOf (nestingOver {} (endedLines text)) (openLine text)).2

theorem noBreak_openLine (text : List Char) : '\n' ∉ openLine text := fun h => by
  simpa using List.mem_rtakeWhile_imp h

/-- A text whose last line is ended is gone over line by line. -/
theorem lineStart_pass_lines (number : Nat) (s : Nesting) {text : List Char}
    (h : text = [] ∨ text.getLast? = some '\n') :
    (Cursor.lineStart number s).pass text =
      Cursor.lineStart (number + (lines text).length) (nestingOver s (lines text)) := by
  have hEnded := ended_of_getLast? h
  clear h
  induction hEnded generalizing number s with
  | nil => rfl
  | line hLine hMark _ ih =>
    rw [Cursor.pass_append, Cursor.lineStart_pass number s hLine hMark, ih,
      lines_append_lineEnd hLine hMark, List.length_cons, nestingOver]
    congr 1
    omega

theorem ended_eq_nil_or (text : List Char) :
    text.rdropWhile (· ≠ '\n') = [] ∨ (text.rdropWhile (· ≠ '\n')).getLast? = some '\n' := by
  by_cases hNil : text.rdropWhile (· ≠ '\n') = []
  · exact Or.inl hNil
  · have hLast : (text.rdropWhile (· ≠ '\n')).getLast hNil = '\n' :=
      of_not_not fun h => List.rdropWhile_last_not _ text hNil (decide_eq_true h)
    exact Or.inr (by rw [List.getLast?_eq_some_getLast hNil, hLast])

/-- The cursor at the front of the last line of a text. -/
theorem pass_endedLines (text : List Char) :
    (({} : Cursor).pass (text.rdropWhile (· ≠ '\n'))) =
      Cursor.lineStart (1 + (endedLines text).length) (nestingOver {} (endedLines text)) :=
  lineStart_pass_lines 1 {} (ended_eq_nil_or text)

theorem ended_append_openLine (text : List Char) :
    text.rdropWhile (· ≠ '\n') ++ openLine text = text :=
  List.rdropWhile_append_rtakeWhile

theorem nestingBehind_eq (text : List Char) :
    nestingBehind text = (Automaton.run {} text).nesting := by
  have hState : (Automaton.run {} (text.rdropWhile (· ≠ '\n'))) =
      .ofNesting (nestingOver {} (endedLines text)) := by
    have h := congrArg Cursor.inside (pass_endedLines text)
    rwa [Cursor.inside_pass] at h
  conv_rhs => rw [← ended_append_openLine text, Automaton.run_append, hState]
  rw [nestingBehind, Automaton.scan_eq _ (noBreak_openLine text)]

/-- The places of a line that the automaton names are those where a cursor is fresh. -/
theorem mem_startIf_starts (k : Cursor) {line start : List Char} :
    start ∈ Nesting.startIf k.fresh line (k.inside.starts line) ↔
      ∃ front, line = front ++ start ∧ (k.pass front).fresh = true := by
  have hHead : ∀ (fresh : Bool) (line : List Char) (starts : List (List Char)),
      start ∈ Nesting.startIf fresh line starts ↔ fresh = true ∧ start = line ∨ start ∈ starts := by
    intro fresh line starts
    cases fresh <;> simp [Nesting.startIf]
  induction line generalizing k with
  | nil =>
    rw [hHead]
    constructor
    · rintro (⟨hFresh, rfl⟩ | hMem)
      · exact ⟨[], rfl, hFresh⟩
      · cases hMem
    · rintro ⟨front, hLine, hFresh⟩
      obtain ⟨rfl, rfl⟩ := List.append_eq_nil_iff.1 hLine.symm
      exact Or.inl ⟨hFresh, rfl⟩
  | cons c line ih =>
    have hRest : start ∈ k.inside.starts (c :: line) ↔
        ∃ front, line = front ++ start ∧ ((k.next c).pass front).fresh = true := ih (k.next c)
    rw [hHead, hRest]
    constructor
    · rintro (⟨hFresh, rfl⟩ | ⟨front, rfl, hFresh⟩)
      · exact ⟨[], rfl, hFresh⟩
      · exact ⟨c :: front, rfl, hFresh⟩
    · rintro ⟨front, hLine, hFresh⟩
      cases front with
      | nil => exact Or.inl ⟨hFresh, hLine.symm⟩
      | cons d front =>
        obtain ⟨rfl, rfl⟩ := List.cons.inj hLine
        exact Or.inr ⟨front, rfl, hFresh⟩

theorem mem_startsBehind {text start : List Char} :
    start ∈ startsBehind text ↔
      '\n' ∉ start ∧ ∃ front, text = front ++ start ∧ (({} : Cursor).pass front).fresh = true := by
  have hStarts : start ∈ startsBehind text ↔
      ∃ front, openLine text = front ++ start ∧
        (({} : Cursor).pass (text.rdropWhile (· ≠ '\n') ++ front)).fresh = true := by
    rw [startsBehind, startsOf_eq _ (noBreak_openLine text)]
    simp only [Cursor.pass_append, pass_endedLines]
    exact mem_startIf_starts (Cursor.lineStart _ _)
  rw [hStarts]
  constructor
  · rintro ⟨front, hLine, hFresh⟩
    refine ⟨fun h => noBreak_openLine text ?_, _, ?_, hFresh⟩
    · rw [hLine]
      exact List.mem_append_right _ h
    · rw [List.append_assoc, ← hLine, ended_append_openLine]
  · rintro ⟨hBreak, front, hText, hFresh⟩
    rw [← ended_append_openLine text] at hText
    rcases List.append_eq_append_iff.1 hText with ⟨more, hFront, hLine⟩ | ⟨more, hEnded, hStart⟩
    · exact ⟨more, hLine, hFront ▸ hFresh⟩
    · -- The ended lines end with a line feed, of which `start` has none.
      have hMore : more = [] := by
        cases hLast : more.getLast? with
        | none => exact List.getLast?_eq_none_iff.1 hLast
        | some c =>
          have hEnd := ended_eq_nil_or text
          rw [hEnded, List.getLast?_append, hLast] at hEnd
          rcases hEnd with hNil | hFeed
          · exact (List.append_eq_nil_iff.1 hNil).2
          · rw [Option.some_or, Option.some.injEq] at hFeed
            have hMem : '\n' ∈ more := hFeed ▸ List.mem_of_getLast? hLast
            exact absurd (hStart ▸ List.mem_append_left _ hMem) hBreak
      rw [hMore, List.nil_append] at hStart
      rw [hMore, List.append_nil] at hEnded
      exact ⟨[], hStart.symm, by rwa [List.append_nil, hEnded]⟩

/-! ## Texts that end in code -/

/-- Only a slash may be the first half of a comment's front. -/
theorem eq_slash_of_read {a : Automaton} {c : Char} (h : (a.read c).mode = .slash) : c = '/' := by
  by_contra hSlash
  have hCode : (a.readCode c).mode ≠ .slash := by
    intro hMode
    have hPair := Automaton.completes_readCode (a := a) hSlash '*'
    rw [Automaton.completes, hMode] at hPair
    cases hPair
  revert h
  obtain ⟨mode, depth, resume⟩ := a
  cases mode <;> simp only [Automaton.read, Automaton.readBreak, Automaton.readTemplate] <;>
    split_ifs <;> first | exact hCode | simp

theorem mode_eq_code {text : List Char} (hRegion : (nestingBehind text).region = .code)
    (hSlash : text.getLast? ≠ some '/') : (Automaton.run {} text).mode = .code := by
  rw [nestingBehind_eq] at hRegion
  have hNot : (Automaton.run {} text).mode ≠ .slash := by
    intro hMode
    cases text using List.reverseRecOn with
    | nil => cases hMode
    | append_singleton front c =>
      rw [Automaton.run_append] at hMode
      exact hSlash (by rw [List.getLast?_concat, eq_slash_of_read hMode])
  generalize Automaton.run {} text = a at hRegion hNot
  obtain ⟨mode, depth, resume⟩ := a
  cases mode <;> first | rfl | exact absurd rfl hNot | cases hRegion

theorem dropMark_append {front : List Char} (h : front ≠ []) (back : List Char) :
    dropMark (front ++ back) = dropMark front ++ back := by
  cases front with
  | nil => exact absurd rfl h
  | cons c front =>
    by_cases hMark : c = '\uFEFF'
    · subst hMark
      rfl
    · have hKept : ∀ rest : List Char, dropMark (c :: rest) = c :: rest := fun rest => by
        rw [dropMark]
        exact fun _ hText => hMark (List.cons.inj hText).1
      rw [List.cons_append, hKept, hKept, List.cons_append]

theorem dropMark_suffix (text : List Char) : dropMark text <:+ text := by
  unfold dropMark
  split
  · exact List.suffix_cons _ _
  · exact List.suffix_refl _

theorem getLast?_dropMark_ne {text : List Char} {c : Char} (h : text.getLast? ≠ some c) :
    (dropMark text).getLast? ≠ some c := by
  obtain ⟨front, hFront⟩ := dropMark_suffix text
  intro hLast
  rw [← hFront, List.getLast?_append, hLast] at h
  exact h rfl

/-! ## What begins before a cut and behind it -/

/-- What begins in a text that does not end at the top level lies in front of its end. -/
theorem position_lt_of_mem {file : String} {k : Cursor} (hk : k.Sound) {text behind : List Char}
    (hEnd : ¬ (k.inside.run text).AtTop) {o : Occurrence}
    (h : o ∈ k.statements file text behind) : o.position < k.position.pass text := by
  obtain ⟨start, blanks, c, back, ⟨rest, rfl⟩, hText, hTop, hBlanks, -, hPosition⟩ :=
    exists_place hk h
  have hBlanksText : start ++ blanks <+: start ++ rest ++ behind := ⟨c :: back, hText.symm⟩
  rcases List.prefix_or_prefix_of_prefix hBlanksText (List.prefix_append _ behind) with
    ⟨more, hMore⟩ | ⟨more, hMore⟩
  · have hNe : more ≠ [] := by
      rintro rfl
      rw [List.append_nil] at hMore
      rw [← hMore, Automaton.run_append, run_blanks hTop hBlanks] at hEnd
      exact hEnd hTop
    rw [hPosition, ← hMore, Position.pass_append _ (start ++ blanks)]
    exact Position.lt_pass _ hNe
  · -- The blanks would reach over the end of the text, which is then at the top level.
    rw [List.append_assoc] at hMore
    have hRest : rest ++ more = blanks := List.append_cancel_left hMore
    have hBlank : ∀ b ∈ rest, isBlank b = true := fun b hb =>
      hBlanks b (hRest ▸ List.mem_append_left _ hb)
    rw [Automaton.run_append, run_blanks hTop hBlank] at hEnd
    exact absurd hTop hEnd

theorem le_position_of_mem {file : String} {k : Cursor} (hk : k.Sound) {text behind : List Char}
    {o : Occurrence} (h : o ∈ k.statements file text behind) : k.position ≤ o.position := by
  obtain ⟨start, blanks, c, back, -, -, -, -, -, hPosition⟩ := exists_place hk h
  rw [hPosition]
  exact Position.le_pass _ _

/-- Where the top level is not reached, nothing begins. -/
theorem statements_eq_nil {file : String} {k : Cursor} (hk : k.Sound) {text behind : List Char}
    (h : ∀ front back, text = front ++ back → back ≠ [] → ¬ (k.inside.run front).AtTop) :
    k.statements file text behind = [] := by
  refine List.eq_nil_iff_forall_not_mem.2 fun o ho => ?_
  obtain ⟨front, back, hText, hBack, hFresh, -⟩ := Cursor.mem_statements ho
  have hTop := hk.pass front hFresh
  rw [Cursor.inside_pass] at hTop
  exact h front back hText hBack hTop

end Homonym.Source
