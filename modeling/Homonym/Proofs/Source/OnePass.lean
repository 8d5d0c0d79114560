import Homonym.Proofs.Source.Automaton
import Homonym.Proofs.Text.Lines
import Homonym.Proofs.Text.Position
import Homonym.Source.Extraction

/-!
# Extraction in one pass

`extract` cuts a text into lines and looks at each of them from the places where a statement may
begin. Here the same is done in one pass over the characters. A `Cursor` stands between two
characters of the text; it knows its position, what it is inside of, and whether a top-level
statement may begin there. `Cursor.statements` moves it over a text and collects what the statements
declare, of which each is read up to the end of its line.

* `extract_eq`: the two give the same occurrences.
* `statements_append`: a pass over two texts is a pass over the one and then over the other, so that
  a text can be cut anywhere, also within a line.
-/

namespace Homonym.Source

open Text

/-- A place in a text, with what has to be known there of the text before it. -/
structure Cursor where
  position : Position := {}
  inside : Automaton := {}
  /-- A top-level statement may begin here. -/
  fresh : Bool := true

/-- The first line of a text. -/
def lineOf (text : List Char) : List Char :=
  (lines text).headD []

/-- What the statement at a position declares, where `line` is the rest of its line. -/
def declarationsAt (file : String) (p : Position) (line : List Char) : List Occurrence :=
  let statement := trimStart line
  if isIdle statement then []
  else
    (declared statement).2.map fun (kind, name) =>
      { name := String.ofList name
        kind
        file
        line := p.line
        column := p.column + (line.length - statement.length)
        context := String.ofList (lineExcerpt statement)
        exported := (declared statement).1 }

namespace Cursor

/-- The cursor behind one character more. -/
def next (k : Cursor) (c : Char) : Cursor :=
  ⟨k.position.next c, k.inside.read c, k.inside.opens c⟩

/-- The cursor behind some more text. -/
def pass (k : Cursor) (text : List Char) : Cursor :=
  text.foldl next k

/-- What is declared at the cursor, where `line` is the rest of its line. -/
def found (file : String) (k : Cursor) (line : List Char) : List Occurrence :=
  if k.fresh then declarationsAt file k.position line else []

/-- What is declared from the cursor on in a text that something follows. -/
def statements (file : String) : Cursor → List Char → List Char → List Occurrence
  | _, [], _ => []
  | k, c :: text, behind =>
    k.found file (lineOf (c :: text ++ behind)) ++ (k.next c).statements file text behind

@[simp]
theorem pass_nil (k : Cursor) : k.pass [] = k := rfl

@[simp]
theorem pass_cons (k : Cursor) (c : Char) (text : List Char) :
    k.pass (c :: text) = (k.next c).pass text := rfl

theorem pass_append (k : Cursor) (front back : List Char) :
    k.pass (front ++ back) = (k.pass front).pass back :=
  List.foldl_append

@[simp]
theorem position_pass (k : Cursor) (text : List Char) :
    (k.pass text).position = k.position.pass text := by
  induction text generalizing k with
  | nil => rfl
  | cons c text ih => exact ih (k.next c)

@[simp]
theorem inside_pass (k : Cursor) (text : List Char) :
    (k.pass text).inside = k.inside.run text := by
  induction text generalizing k with
  | nil => rfl
  | cons c text ih => exact ih (k.next c)

/-- A statement begins in code outside every bracket. -/
def Sound (k : Cursor) : Prop :=
  k.fresh = true → k.inside.AtTop

theorem Sound.pass {k : Cursor} (h : k.Sound) (text : List Char) : (k.pass text).Sound := by
  induction text generalizing k with
  | nil => exact h
  | cons c text ih => exact ih fun hFresh => Automaton.atTop_of_opens hFresh

theorem sound_start : ({} : Cursor).Sound := fun _ => ⟨rfl, rfl⟩

theorem statements_append (file : String) (k : Cursor) (front back behind : List Char) :
    k.statements file (front ++ back) behind =
      k.statements file front (back ++ behind) ++ (k.pass front).statements file back behind := by
  induction front generalizing k with
  | nil => rfl
  | cons c front ih =>
    rw [List.cons_append, statements, statements, ih, pass_cons, List.append_assoc]
    simp only [List.cons_append, List.append_assoc]

/-- What is found in a text is found at some place of it. -/
theorem mem_statements {file : String} {k : Cursor} {text behind : List Char} {o : Occurrence}
    (h : o ∈ k.statements file text behind) :
    ∃ front back, text = front ++ back ∧ back ≠ [] ∧ (k.pass front).fresh = true ∧
      o ∈ declarationsAt file (k.pass front).position (lineOf (back ++ behind)) := by
  induction text generalizing k with
  | nil => cases h
  | cons c text ih =>
    rcases List.mem_append.1 h with hHere | hLater
    · rw [found] at hHere
      split at hHere
      · next hFresh => exact ⟨[], c :: text, rfl, List.cons_ne_nil _ _, hFresh, hHere⟩
      · cases hHere
    · obtain ⟨front, back, rfl, hBack, hFresh, hMem⟩ := ih hLater
      exact ⟨c :: front, back, rfl, hBack, hFresh, hMem⟩

end Cursor

/-! ## The lines of a pass -/

namespace Automaton

theorem isTop_eq (s : Nesting) : s.isTop = decide (ofNesting s).AtTop := by
  obtain ⟨region, depth, resume⟩ := s
  cases region with
  | code =>
    simp only [Nesting.isTop, ofNesting, AtTop, beq_self_eq_true, Bool.and_true, true_and]
    rfl
  | _ => exact Bool.and_false _

theorem opens_break (a : Automaton) : a.opens '\n' = decide a.readBreak.AtTop := by
  obtain ⟨mode, depth, resume⟩ := a
  cases mode <;> rfl

theorem ofNesting_endLine (a : Automaton) : ofNesting a.nesting.endLine = a.readBreak := by
  obtain ⟨mode, depth, resume⟩ := a
  cases mode <;> rfl

/-- A carriage return makes no difference to what follows the line feed. -/
theorem readBreak_read_return (a : Automaton) : (a.read '\r').readBreak = a.readBreak := by
  obtain ⟨mode, depth, resume⟩ := a
  cases mode with
  | quoted quote =>
    by_cases hQuote : '\r' = quote
    · subst hQuote
      rfl
    · have hRead : read ⟨.quoted quote, depth, resume⟩ '\r' = ⟨.quoted quote, depth, resume⟩ := by
        simp [read, hQuote]
      rw [hRead]
  | _ => rfl

end Automaton

theorem declarationsAt_nil (file : String) (p : Position) : declarationsAt file p [] = [] := rfl

theorem lineOf_of_noBreak {text : List Char} (h : '\n' ∉ text) : lineOf text = text := by
  by_cases hText : text = []
  · subst hText
    rfl
  · rw [lineOf, lines_of_noBreak h hText]
    rfl

theorem lineOf_append_lineEnd {line mark : List Char} (hLine : '\n' ∉ line)
    (hMark : LineEnd line mark) (rest : List Char) : lineOf (line ++ mark ++ rest) = line := by
  rw [lineOf, lines_append_lineEnd hLine hMark]
  rfl

/-- The first line is the front of the text, and no line feed is in it. -/
theorem prefix_lineOf (text : List Char) : lineOf text <+: text ∧ '\n' ∉ lineOf text := by
  by_cases hBreak : '\n' ∈ text
  · obtain ⟨line, mark, rest, rfl, hLine, hMark⟩ := exists_lineEnd hBreak
    rw [lineOf_append_lineEnd hLine hMark, List.append_assoc]
    exact ⟨List.prefix_append _ _, hLine⟩
  · rw [lineOf_of_noBreak hBreak]
    exact ⟨List.prefix_refl _, hBreak⟩

theorem lineOf_cons_plain {c : Char} {rest : List Char} (hc : c ≠ '\n')
    (hReturn : c ≠ '\r' ∨ rest.head? ≠ some '\n') : lineOf (c :: rest) = c :: lineOf rest := by
  rw [lineOf, lines_cons_plain hc hReturn, lineOf]
  cases lines rest <;> rfl

/-- A line that is not ended goes on with what follows. -/
theorem lineOf_append {front : List Char} (hFront : '\n' ∉ front) {c : Char} (hc : c ≠ '\n')
    (rest : List Char) : lineOf (front ++ c :: rest) = front ++ lineOf (c :: rest) := by
  induction front with
  | nil => rfl
  | cons d front ih =>
    simp only [List.mem_cons, not_or] at hFront
    have hNext : (front ++ c :: rest).head? ≠ some '\n' := by
      cases front with
      | nil => simpa using hc
      | cons e front =>
        intro hHead
        obtain rfl : e = '\n' := by simpa using hHead
        exact hFront.2 List.mem_cons_self
    rw [List.cons_append, lineOf_cons_plain (Ne.symm hFront.1) (Or.inr hNext), ih hFront.2,
      List.cons_append]

theorem lineOf_append_of_break {front : List Char} (hFront : '\n' ∈ front) (rest : List Char) :
    lineOf (front ++ rest) = lineOf front := by
  obtain ⟨line, mark, more, rfl, hLine, hMark⟩ := exists_lineEnd hFront
  rw [List.append_assoc, lineOf_append_lineEnd hLine hMark, lineOf_append_lineEnd hLine hMark]

theorem statementAt_eq (file : String) (number : Nat) (front start : List Char) :
    statementAt file number (front ++ start) start =
      declarationsAt file ⟨number, front.length + 1⟩ start := by
  have hShort : (trimStart start).length ≤ start.length := (trimStart_suffix start).length_le
  have hColumn : (front ++ start).length - (trimStart start).length + 1 =
      front.length + 1 + (start.length - (trimStart start).length) := by
    rw [List.length_append]
    omega
  simp only [statementAt, declarationsAt, hColumn]
  split
  · rfl
  · split
    · next hNone => rw [List.isEmpty_iff.1 hNone, List.map_nil]
    · rfl

namespace Cursor

theorem found_nil (file : String) (k : Cursor) : k.found file [] = [] := by
  rw [found, declarationsAt_nil, ite_self]

/-- A pass over one line looks at it from the places that the automaton names. -/
theorem statements_line (file : String) (k : Cursor) (front : List Char) {line behind : List Char}
    (hLine : '\n' ∉ line) (hColumn : k.position.column = front.length + 1)
    (hEnd : ∀ start, start <:+ line → lineOf (start ++ behind) = start) :
    k.statements file line behind =
      (Nesting.startIf k.fresh line (k.inside.starts line)).flatMap
        (statementAt file k.position.line (front ++ line)) := by
  induction line generalizing k front with
  | nil =>
    cases hFresh : k.fresh <;> rfl
  | cons c line ih =>
    simp only [List.mem_cons, not_or] at hLine
    have hNext : (k.next c).position = ⟨k.position.line, k.position.column + 1⟩ :=
      if_neg (Ne.symm hLine.1)
    have hRest := ih (k.next c) (front ++ [c]) hLine.2
      (by rw [hNext, hColumn, List.length_append]; rfl)
      (fun start hStart => hEnd start (hStart.trans (List.suffix_cons _ _)))
    rw [statements, hRest, hEnd _ (List.suffix_refl _), hNext, List.append_assoc]
    simp only [found, Automaton.starts, Nesting.startIf]
    have hHere : declarationsAt file k.position (c :: line) =
        statementAt file k.position.line (front ++ c :: line) (c :: line) := by
      rw [statementAt_eq, ← hColumn]
    cases hFresh : k.fresh with
    | false => rfl
    | true =>
      simp only [if_true, List.flatMap_cons, hHere]
      rfl

/-- No statement begins within a line end. -/
theorem statements_lineEnd (file : String) (k : Cursor) {line mark : List Char}
    (hMark : LineEnd line mark) (rest : List Char) : k.statements file mark rest = [] := by
  rcases hMark with rfl | ⟨rfl, _⟩
  · have h₁ : lineOf ('\r' :: '\n' :: rest) = [] := by simp [lineOf, lines]
    have h₂ : lineOf ('\n' :: rest) = [] := by simp [lineOf, lines]
    simp [statements, h₁, h₂, found_nil]
  · have h₂ : lineOf ('\n' :: rest) = [] := by simp [lineOf, lines]
    simp [statements, h₂, found_nil]

theorem pass_lineEnd (k : Cursor) {line mark : List Char} (hMark : LineEnd line mark) :
    k.pass mark =
      ⟨⟨k.position.line + 1, 1⟩, k.inside.readBreak, decide k.inside.readBreak.AtTop⟩ := by
  have hBreak : ∀ k : Cursor, k.next '\n' =
      ⟨⟨k.position.line + 1, 1⟩, k.inside.readBreak, decide k.inside.readBreak.AtTop⟩ := by
    intro k
    rw [next, Automaton.opens_break]
    rfl
  rcases hMark with rfl | ⟨rfl, _⟩
  · rw [pass_cons, pass_cons, pass_nil, hBreak]
    simp only [next, Automaton.readBreak_read_return]
    rfl
  · exact hBreak k

end Cursor

/-- The places of a line that `startsOf` names are those of the automaton. -/
theorem startsOf_eq (s : Nesting) {line : List Char} (h : '\n' ∉ line) :
    startsOf s line =
      (((Automaton.ofNesting s).run line).nesting.endLine,
        Nesting.startIf s.isTop line ((Automaton.ofNesting s).starts line)) := by
  simp only [startsOf, Automaton.scan_eq s h, Nesting.startIf]

namespace Cursor

/-- The cursor at the front of a line. -/
def lineStart (number : Nat) (s : Nesting) : Cursor :=
  ⟨⟨number, 1⟩, .ofNesting s, s.isTop⟩

theorem lineStart_pass (number : Nat) (s : Nesting) {line mark : List Char} (hLine : '\n' ∉ line)
    (hMark : LineEnd line mark) :
    (lineStart number s).pass (line ++ mark) = lineStart (number + 1) (startsOf s line).1 := by
  rw [pass_append, pass_lineEnd _ hMark, startsOf_eq s hLine]
  simp only [lineStart, position_pass, inside_pass, Position.pass_of_noBreak _ hLine,
    Automaton.isTop_eq, Automaton.ofNesting_endLine]

theorem statements_lineStart (file : String) (number : Nat) (s : Nesting)
    {line behind : List Char} (hLine : '\n' ∉ line)
    (hEnd : ∀ start, start <:+ line → lineOf (start ++ behind) = start) :
    (lineStart number s).statements file line behind =
      (startsOf s line).2.flatMap (statementAt file number line) := by
  rw [statements_line file (lineStart number s) [] hLine rfl hEnd, startsOf_eq s hLine]
  rfl

end Cursor

/-- Reading lines one by one is a pass over their text. -/
theorem extractLines_lines (file : String) (number : Nat) (s : Nesting) (text : List Char) :
    extractLines file number s (lines text) =
      (Cursor.lineStart number s).statements file text [] := by
  -- The induction is on the length: each step takes off a line with its line end.
  generalize hLength : text.length = n
  induction n using Nat.strongRecOn generalizing text number s with
  | ind n ih =>
    by_cases hBreak : '\n' ∈ text
    · obtain ⟨line, mark, rest, rfl, hLine, hMark⟩ := exists_lineEnd hBreak
      have hShorter : rest.length < n := by
        have hPos : 0 < mark.length := by rcases hMark with rfl | ⟨rfl, _⟩ <;> simp
        simp only [List.length_append] at hLength
        omega
      have hEnd : ∀ start, start <:+ line → lineOf (start ++ (mark ++ rest)) = start := by
        rintro start ⟨front, rfl⟩
        have hStart : '\n' ∉ start := fun h => hLine (List.mem_append_right _ h)
        rw [← List.append_assoc, lineOf_append_lineEnd hStart (hMark.of_append front)]
      have hRest := ih _ hShorter (number + 1) (startsOf s line).1 rest rfl
      rw [lines_append_lineEnd hLine hMark]
      show (startsOf s line).2.flatMap (statementAt file number line) ++
        extractLines file (number + 1) (startsOf s line).1 (lines rest) = _
      rw [hRest, Cursor.statements_append, Cursor.lineStart_pass number s hLine hMark,
        Cursor.statements_append, Cursor.statements_lineEnd file _ hMark, List.append_nil,
        List.append_nil, Cursor.statements_lineStart file number s hLine hEnd]
    · have hEnd : ∀ start, start <:+ text → lineOf (start ++ []) = start := by
        rintro start ⟨front, rfl⟩
        have hStart : '\n' ∉ start := fun h => hBreak (List.mem_append_right _ h)
        rw [List.append_nil, lineOf_of_noBreak hStart]
      by_cases hText : text = []
      · subst hText
        rfl
      · rw [Cursor.statements_lineStart file number s hBreak hEnd, lines_of_noBreak hBreak hText]
        simp only [extractLines, List.append_nil]

/-- **Extraction is one pass.** -/
theorem extract_eq (source file : String) :
    extract source file = Cursor.statements file {} (dropMark source.toList) [] :=
  extractLines_lines file 1 {} (dropMark source.toList)

end Homonym.Source
