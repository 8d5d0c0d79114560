import Homonym.Proofs.Source.Grammar
import Homonym.Proofs.Source.Moments
import Homonym.Proofs.Source.OpenList
import Homonym.Proofs.Text.ByteOffsets

/-!
# A scan by byte offsets

A scan keeps byte offsets of a line, not parts of it. It takes statements and bindings out by slices
between such offsets, works out offsets by subtraction, and takes brackets off a count. Each of
these can fail: a slice whose ends are no boundaries or in the wrong order, a subtraction below
zero. Here the scan is written down in this way, and gives `none` where one of its operations fails.

It never does. Each offset at which a statement may begin is the size of what stands in front of it
on the line (`advance?_eq`), and the ends of a binding are the sizes of what stands in front of them
in the list (`bindings?_eq`), so that all slices are at boundaries. Nor does a brace that goes back
to a template find no bracket to take off, which `Nesting.Sound` says of all moments. So the scan by
offsets finds what `extract` does (`extract?_eq`).
-/

namespace Homonym.Source

open Text

/-! ## The operations -/

/-- A difference, if it is not below zero. -/
def minus? (a b : Nat) : Option Nat :=
  if b ≤ a then some (a - b) else none

/-- One step of a scan. A brace that goes back to a template takes off a bracket, which must be
there. -/
def Nesting.step? (s : Nesting) (c : Char) (ahead : Option Char) : Option Step :=
  if s.Resumes c ∧ s.depth = 0 then none else some (s.step c ahead)

/-- Carries the state over the rest of a line, of which `here` bytes are behind. Gives the state at
its end, and the offsets in the line at which a top-level statement may begin. -/
def advance? (s : Nesting) (here : Nat) : List Char → Option (Nesting × List Nat)
  | [] => some (s, [])
  | c :: rest => do
    let t ← s.step? c rest.head?
    if t.next.region = .lineComment then some (t.next, [])
    else
      let there := here + byteSize (t.taken c rest)
      let (last, offsets) ← advance? t.next there (t.behind rest)
      some (last, if t.boundary then there :: offsets else offsets)
termination_by text => text.length
decreasing_by exact Nat.lt_succ_of_le (t.length_behind_le rest)

/-- The bindings of a list from a state on. Of the list, `here` bytes are behind, and the binding
that is being read began at `start`. -/
def bindings? (list : List Char) (s : BindingState) (start here : Nat) :
    List Char → Option (List (List Char))
  | [] => do
    let last ← sliceFrom? list start
    some [last]
  | c :: rest =>
    match s.quote with
    | some quote => bindings? list (s.stepLiteral quote c) start (here + c.utf8Size) rest
    | none =>
      if c = ',' ∧ s.depth = 0 then do
        let binding ← slice? list start here
        let later ← bindings? list s (here + 1) (here + c.utf8Size) rest
        some (binding :: later)
      else if c = ';' ∧ s.depth = 0 then do
        let last ← slice? list start here
        some [last]
      else bindings? list (s.stepPlain c) start (here + c.utf8Size) rest

/-- The names that a list of bindings declares. -/
def boundNames? (list : List Char) : Option (List (List Char)) :=
  (bindings? list {} 0 0 list).map (List.filterMap bindingName?)

/-- What a statement declares behind its modifiers. -/
def declaredNames? (text : List Char) : Option (List (Kind × List Char)) :=
  match single? text with
  | some found => some [found]
  | none =>
    match bindingList? text with
    | some list => (boundNames? list).map (List.map (Kind.binding, ·))
    | none => some []

/-- What a statement declares, and whether it exports it. The modifiers are cut off at their end. -/
def declared? (statement : List Char) : Option (Bool × List (Kind × List Char)) := do
  let (exported, behind) := modifiers statement
  let stop ← minus? (byteSize statement) (byteSize behind)
  let rest ← sliceFrom? statement stop
  let names ← declaredNames? rest
  some (exported, names)

/-- The occurrences of the statement at an offset of a line. -/
def statementAt? (file : String) (number : Nat) (line : List Char) (start : Nat) :
    Option (List Occurrence) := do
  let text ← sliceFrom? line start
  let statement := trimStart text
  if isIdle statement then some []
  else
    let offset ← minus? (byteSize line) (byteSize statement)
    let front ← sliceTo? line offset
    let column := front.length + 1
    let context := String.ofList (lineExcerpt statement)
    let (exported, names) ← declared? statement
    some (names.map fun (kind, name) =>
      { name := String.ofList name, kind, file, line := number, column, context, exported })

/-- The occurrences of some lines, of which the first has the given number and nesting. -/
def extractLines? (file : String) : Nat → Nesting → List (List Char) → Option (List Occurrence)
  | _, _, [] => some []
  | number, s, line :: rest => do
    let (last, offsets) ← advance? s 0 line
    let found ← (if s.isTop then 0 :: offsets else offsets).mapM (statementAt? file number line)
    let later ← extractLines? file (number + 1) last.endLine rest
    some (found.flatten ++ later)

/-- The top-level declarations of a source text, as occurrences in a file. -/
def extract? (source file : String) : Option (List Occurrence) :=
  extractLines? file 1 {} (lines (dropMark source.toList))

theorem minus?_add (a b : Nat) : minus? (a + b) b = some a := by
  rw [minus?, if_pos (Nat.le_add_left b a), Nat.add_sub_cancel]

/-! ## Lines -/

/-- No step of a scan fails. -/
theorem Nesting.Sound.step?_eq {s : Nesting} {scanned : Nat} (h : s.Sound scanned) (c : Char)
    (ahead : Option Char) : s.step? c ahead = some (s.step c ahead) := by
  refine if_neg ?_
  rintro ⟨hResumes, hNone⟩
  have hSome : 1 ≤ s.depth := h.depth_pos hResumes
  omega

/-- Where in a line an end of it begins. -/
def offsetOf (line start : List Char) : Nat :=
  byteSize line - byteSize start

theorem offsetOf_append (front start : List Char) :
    offsetOf (front ++ start) start = byteSize front := by
  rw [offsetOf, byteSize_append, Nat.add_sub_cancel]

/-- The offset of a place counts from where the reading began. -/
theorem add_offsetOf {front behind start : List Char} (h : start <:+ behind) (here : Nat) :
    here + offsetOf (front ++ behind) start = here + byteSize front + offsetOf behind start := by
  obtain ⟨between, rfl⟩ := h
  rw [← List.append_assoc, offsetOf_append, offsetOf_append, byteSize_append, Nat.add_assoc]

/-- From each moment, reading on by offsets gives the state at the end of the line, and where in the
line each place of `Nesting.scan` is. -/
theorem Reaches.advance?_eq {text : List (List Char)} {k scanned : Nat} {s : Nesting}
    {ahead : List Char} (h : Reaches text ⟨k, s, scanned, ahead⟩) (here : Nat) :
    advance? s here ahead =
      some ((s.scan ahead).1, (s.scan ahead).2.map fun start => here + offsetOf ahead start) := by
  induction s, ahead using Nesting.scan_induction generalizing scanned here with
  | hNil s =>
    rw [advance?]
    rfl
  | hStep s c rest ih =>
    rw [advance?, h.sound.step?_eq, Nesting.scan_cons]
    simp only [Option.bind_eq_bind, Option.bind_some]
    by_cases hComment : (s.step c rest.head?).next.region = .lineComment
    · rw [if_pos hComment, Nesting.scan_of_lineComment hComment,
        ((s.changes_step c rest.head?).into_lineComment hComment).2]
      rfl
    · rw [if_neg hComment, ih (h.step rfl hComment)]
      generalize s.step c rest.head? = t
      have hText : t.taken c rest ++ t.behind rest = c :: rest := t.taken_append_behind c rest
      have hHere : here + offsetOf (c :: rest) (t.behind rest) =
          here + byteSize (t.taken c rest) := by
        rw [← hText, offsetOf_append]
      have hLater : (t.next.scan (t.behind rest)).2.map (fun start =>
            here + byteSize (t.taken c rest) + offsetOf (t.behind rest) start) =
          (t.next.scan (t.behind rest)).2.map fun start => here + offsetOf (c :: rest) start := by
        refine List.map_congr_left fun start hMem => ?_
        obtain ⟨front, -, hFront⟩ := Nesting.exists_front_of_mem_scan hMem
        rw [← hText, add_offsetOf ⟨front, hFront.symm⟩]
      rw [Option.bind_some, Nesting.startIf]
      cases t.boundary with
      | false => simp only [hLater, Bool.false_eq_true, if_false]
      | true => simp only [hLater, hHere, if_true, List.map_cons]

/-- **The offsets of a line.** They are where the places of the line begin, in strictly increasing
order, behind the front of the line, not behind its end, and at boundaries between characters. -/
theorem offsets_of_scan (s : Nesting) (line : List Char) :
    let offsets := (s.scan line).2.map (offsetOf line)
    offsets.map (sliceFrom? line) = (s.scan line).2.map some ∧ offsets.Pairwise (· < ·) ∧
      ∀ offset ∈ offsets, 0 < offset ∧ offset ≤ byteSize line ∧ IsBoundary line offset := by
  refine ⟨?_, ?_, ?_⟩
  · rw [List.map_map]
    refine List.map_congr_left fun start hMem => ?_
    obtain ⟨front, -, rfl⟩ := Nesting.exists_front_of_mem_scan hMem
    rw [Function.comp_apply, offsetOf_append, sliceFrom?_append]
  · rw [List.pairwise_map]
    refine (s.pairwise_scan line).imp_of_mem fun hFirst _ hBehind => ?_
    obtain ⟨front, -, rfl⟩ := Nesting.exists_front_of_mem_scan hFirst
    obtain ⟨between, hSome, rfl⟩ := hBehind
    have hBetween := byteSize_pos hSome
    rw [offsetOf_append, ← List.append_assoc, offsetOf_append, byteSize_append]
    omega
  · intro offset hMem
    obtain ⟨start, hStart, rfl⟩ := List.mem_map.1 hMem
    obtain ⟨front, hSome, rfl⟩ := Nesting.exists_front_of_mem_scan hStart
    rw [offsetOf_append]
    refine ⟨byteSize_pos hSome, ?_, isBoundary_append front start⟩
    rw [byteSize_append]
    exact Nat.le_add_right _ _

example : (({} : Nesting).scan "é;/*ü*/a".toList).2.map (offsetOf "é;/*ü*/a".toList) = [3, 9] := by
  decide

/-! ## Lists of bindings -/

/-- Reading on in a binding, which began behind `front` and of which `piece` is behind, gives the
rest of that binding and the bindings that follow. -/
theorem bindings?_eq {list front piece rest first : List Char} {more : List (List Char)}
    {s : BindingState} {start here : Nat} (hList : list = front ++ piece ++ rest)
    (hStart : start = byteSize front) (hHere : here = byteSize (front ++ piece))
    (h : bindings s rest = first :: more) :
    bindings? list s start here rest = some ((piece ++ first) :: more) := by
  induction rest generalizing front piece first more s start here with
  | nil =>
    cases h
    rw [bindings?, hList, hStart, List.append_nil, sliceFrom?_append, List.append_nil]
    rfl
  | cons c rest ih =>
    have hWhole : list = front ++ (piece ++ [c]) ++ rest := by
      rw [hList]
      simp only [List.append_assoc, List.singleton_append]
    have hNext : here + c.utf8Size = byteSize (front ++ (piece ++ [c])) := by
      rw [← List.append_assoc, byteSize_append, ← hHere, byteSize_cons, byteSize_nil]
      rfl
    -- Where the character is part of the binding, the same binding is read on behind it.
    have hGoesOn : ∀ {t : BindingState}, consFirst c (bindings t rest) = first :: more →
        bindings? list t start (here + c.utf8Size) rest = some ((piece ++ first) :: more) := by
      intro t hFirst
      obtain ⟨inner, later, hInner⟩ := exists_bindings_eq_cons t rest
      rw [hInner] at hFirst
      cases hFirst
      rw [ih hWhole hStart hNext hInner, List.append_assoc]
      rfl
    have hSlice : slice? list start here = some piece := by
      rw [hList, hStart, hHere, slice?_append]
    rw [bindings] at h
    rw [bindings?]
    cases hQuote : s.quote with
    | some quote =>
      rw [hQuote] at h
      exact hGoesOn h
    | none =>
      rw [hQuote] at h
      simp only at h ⊢
      by_cases hComma : c = ',' ∧ s.depth = 0
      · rw [if_pos hComma] at h ⊢
        cases h
        obtain ⟨inner, later, hInner⟩ := exists_bindings_eq_cons s rest
        -- The next binding begins behind the comma, which is one byte.
        have hBehind : here + 1 = byteSize (front ++ (piece ++ [c])) := by
          rw [← hNext, hComma.1]
          rfl
        have hSplit : list = front ++ (piece ++ [c]) ++ [] ++ rest := by
          rw [List.append_nil, hWhole]
        have hHere' : here + c.utf8Size = byteSize (front ++ (piece ++ [c]) ++ []) := by
          rw [List.append_nil, hNext]
        rw [hSlice, ih hSplit hBehind hHere' hInner, hInner, List.append_nil]
        rfl
      · rw [if_neg hComma] at h ⊢
        by_cases hEnd : c = ';' ∧ s.depth = 0
        · rw [if_pos hEnd] at h ⊢
          cases h
          rw [hSlice, List.append_nil]
          rfl
        · rw [if_neg hEnd] at h ⊢
          exact hGoesOn h

theorem boundNames?_eq (list : List Char) : boundNames? list = some (boundNames list) := by
  obtain ⟨first, more, hBindings⟩ := exists_bindings_eq_cons {} list
  have hList : list = [] ++ [] ++ list := rfl
  have hChecked : bindings? list {} 0 0 list = some (first :: more) :=
    bindings?_eq hList rfl rfl hBindings
  rw [boundNames?, hChecked, boundNames, hBindings]
  rfl

/-! ## Statements -/

theorem declaredNames?_eq (text : List Char) : declaredNames? text = some (declaredNames text) := by
  rw [declaredNames?, declaredNames]
  cases single? text with
  | some found => rfl
  | none =>
    cases bindingList? text with
    | none => rfl
    | some list =>
      simp only [boundNames?_eq]
      rfl

theorem declared?_eq (statement : List Char) : declared? statement = some (declared statement) := by
  obtain ⟨front, -, hStatement⟩ := exists_modifiers statement
  rw [declared?, declared]
  generalize modifiers statement = parts at hStatement ⊢
  obtain ⟨exported, behind⟩ := parts
  subst hStatement
  simp only [byteSize_append, minus?_add, Option.bind_eq_bind, Option.bind_some,
    sliceFrom?_append, declaredNames?_eq]

theorem statementAt?_eq (file : String) (number : Nat) (front start : List Char) :
    statementAt? file number (front ++ start) (byteSize front) =
      some (statementAt file number (front ++ start) start) := by
  obtain ⟨blanks, -, hStart⟩ := exists_blanks start
  rw [statementAt?, sliceFrom?_append, statementAt]
  simp only [Option.bind_eq_bind, Option.bind_some]
  generalize trimStart start = statement at hStart ⊢
  subst hStart
  have hOffset : minus? (byteSize (front ++ (blanks ++ statement))) (byteSize statement) =
      some (byteSize (front ++ blanks)) := by
    rw [← List.append_assoc, byteSize_append, minus?_add]
  have hFront : sliceTo? (front ++ (blanks ++ statement)) (byteSize (front ++ blanks)) =
      some (front ++ blanks) := by
    rw [← List.append_assoc, sliceTo?_append]
  have hColumn : (front ++ (blanks ++ statement)).length - statement.length =
      (front ++ blanks).length := by
    rw [← List.append_assoc, List.length_append, Nat.add_sub_cancel]
  simp only [hOffset, hFront, hColumn, declared?_eq, Option.bind_some]
  split
  · rfl
  · split
    · next hNone =>
      rw [List.isEmpty_iff.1 hNone]
      rfl
    · rfl

/-! ## Texts -/

theorem startsOf_snd (s : Nesting) (line : List Char) :
    (startsOf s line).2 = if s.isTop then line :: (s.scan line).2 else (s.scan line).2 := rfl

theorem startsOf_suffix {s : Nesting} {line start : List Char}
    (h : start ∈ (startsOf s line).2) : start <:+ line := by
  have hScan : start ∈ (s.scan line).2 → start <:+ line := by
    intro hMem
    obtain ⟨front, -, hFront⟩ := Nesting.exists_front_of_mem_scan hMem
    exact ⟨front, hFront.symm⟩
  rw [startsOf_snd] at h
  split at h
  · rcases List.mem_cons.1 h with rfl | hMem
    · exact List.suffix_refl _
    · exact hScan hMem
  · exact hScan h

theorem map_offsetOf_startsOf (s : Nesting) (line : List Char) :
    (startsOf s line).2.map (offsetOf line) =
      if s.isTop then 0 :: (s.scan line).2.map (offsetOf line)
      else (s.scan line).2.map (offsetOf line) := by
  have hFront : offsetOf line line = 0 := Nat.sub_self _
  rw [startsOf_snd]
  split
  · rw [List.map_cons, hFront]
  · rfl

/-- The statements of a line, each read at its offset. -/
theorem mapM_statementAt? (file : String) (number : Nat) {line : List Char}
    {starts : List (List Char)} (h : ∀ start ∈ starts, start <:+ line) :
    (starts.map (offsetOf line)).mapM (statementAt? file number line) =
      some (starts.map (statementAt file number line)) := by
  induction starts with
  | nil => rfl
  | cons start starts ih =>
    obtain ⟨hStart, hStarts⟩ := List.forall_mem_cons.1 h
    obtain ⟨front, rfl⟩ := hStart
    rw [List.map_cons, List.mapM_cons, offsetOf_append, statementAt?_eq, ih hStarts]
    rfl

theorem extractLines?_eq (text : List (List Char)) (file : String) (number k : Nat) :
    extractLines? file number (nestingBefore text k) (text.drop k) =
      some (extractLines file number (nestingBefore text k) (text.drop k)) := by
  induction hRest : text.drop k generalizing number k with
  | nil => rfl
  | cons line rest ih =>
    have hLine : text[k]? = some line := by
      rw [← List.head?_drop, hRest]
      rfl
    have hLater : text.drop (k + 1) = rest := by
      rw [← List.tail_drop, hRest]
      rfl
    obtain ⟨scanned, hReached⟩ := reaches_front hLine
    have hBelow := ih (number + 1) (k + 1) hLater
    rw [nestingBefore_succ hLine] at hBelow
    generalize nestingBefore text k = s at hReached hBelow ⊢
    rw [extractLines?, hReached.advance?_eq]
    simp only [Option.bind_eq_bind, Option.bind_some, Nat.zero_add]
    rw [← map_offsetOf_startsOf, mapM_statementAt? file number fun _ => startsOf_suffix,
      Option.bind_some, hBelow, Option.bind_some, ← List.flatMap_def]
    rfl

/-- The scan by offsets finds what `extract` does. -/
theorem extract?_eq (source file : String) : extract? source file = some (extract source file) :=
  extractLines?_eq (lines (dropMark source.toList)) file 1 0

/-- **A scan never fails.** None of its slices and differences does, so that reading by offsets
finds what `extract` finds. At every moment, all entries of the stack are positive, a brace that
goes back to a template has a bracket to take off, and there are no more open brackets than
characters that were scanned. A scan comes to the front of every line with the nesting there; the
offsets that it gives for the line are those of its places, in strictly increasing order, behind its
front, not behind its end, and at boundaries between characters. -/
theorem scan_never_fails (source file : String) :
    let text := lines (dropMark source.toList)
    extract? source file = some (extract source file) ∧
    (∀ m, Reaches text m →
      (∀ depth ∈ m.nesting.resume, 1 ≤ depth) ∧
      (∀ c, m.nesting.Resumes c → 1 ≤ m.nesting.depth) ∧
      m.nesting.depth ≤ m.scanned) ∧
    ∀ k line, text[k]? = some line →
      let s := nestingBefore text k
      (∃ scanned, Reaches text ⟨k, s, scanned, line⟩) ∧
      ∃ offsets, advance? s 0 line = some ((s.scan line).1, offsets) ∧
        offsets.map (sliceFrom? line) = (s.scan line).2.map some ∧
        offsets.Pairwise (· < ·) ∧
        ∀ offset ∈ offsets, 0 < offset ∧ offset ≤ byteSize line ∧ IsBoundary line offset := by
  intro text
  refine ⟨extract?_eq source file, ?_, ?_⟩
  · intro m hReached
    exact ⟨hReached.sound.resume_pos, fun c => hReached.sound.depth_pos, hReached.sound.depth_le⟩
  · intro k line hLine s
    obtain ⟨scanned, hReached⟩ := reaches_front hLine
    have hAdvance : advance? s 0 line =
        some ((s.scan line).1, (s.scan line).2.map (offsetOf line)) := by
      rw [hReached.advance?_eq]
      simp only [Nat.zero_add]
      rfl
    exact ⟨⟨scanned, hReached⟩, _, hAdvance, offsets_of_scan s line⟩

end Homonym.Source
