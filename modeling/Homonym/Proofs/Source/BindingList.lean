import Homonym.Proofs.Source.Literals
import Homonym.Proofs.Text.Words

/-!
# Lists of bindings are divided as written

A list of bindings is written as segments with commas between them. A segment either gives a name,
alone or with a type, a mark or a value behind it, or it takes a value apart (`Segment`). What may
stand in a segment is said by a grammar: brackets match, literals are closed, and a comma or a
semicolon stands within one of the two (`Balanced`).

Read from a state outside brackets and literals, such a text is part of one binding and leads back
to that state (`Balanced.undivided`). So the list is divided at the commas between its segments and
nowhere else (`bindings_intercalate`), and its names are those that the segments give
(`boundNames_intercalate`).
-/

namespace Homonym.Source

open Text

/-! ## The grammar of segments -/

/-- What may stand between the quotes of a literal. A backslash takes the next character with it. -/
inductive LiteralBody (quote : Char) : List Char → Prop where
  | nil : LiteralBody quote []
  | plain {c : Char} {rest : List Char} (hQuote : c ≠ quote) (hEscape : c ≠ '\\')
      (hRest : LiteralBody quote rest) : LiteralBody quote (c :: rest)
  | escape (c : Char) {rest : List Char} (hRest : LiteralBody quote rest) :
      LiteralBody quote ('\\' :: c :: rest)

/-- A bracket and the one that closes it. -/
inductive BracketPair : Char → Char → Prop where
  | round : BracketPair '(' ')'
  | square : BracketPair '[' ']'
  | curly : BracketPair '\x7b' '\x7d'

def marks : List Char :=
  ['\'', '"', '\x60', '(', '[', '\x7b', ')', ']', '\x7d']

/-- A text in which brackets match and literals are closed. Unless the text is itself `enclosed` by
brackets, it has commas and semicolons only within its brackets and literals. -/
inductive Balanced : (enclosed : Bool) → List Char → Prop where
  | nil {enclosed : Bool} : Balanced enclosed []
  | plain {enclosed : Bool} {c : Char} {rest : List Char} (hMark : c ∉ marks)
      (hDivider : enclosed = false → c ≠ ',' ∧ c ≠ ';') (hRest : Balanced enclosed rest) :
      Balanced enclosed (c :: rest)
  | literal {enclosed : Bool} {quote : Char} {body rest : List Char} (hQuote : IsQuote quote)
      (hBody : LiteralBody quote body) (hRest : Balanced enclosed rest) :
      Balanced enclosed (quote :: (body ++ quote :: rest))
  | brackets {enclosed : Bool} {opening closing : Char} {inner rest : List Char}
      (hPair : BracketPair opening closing) (hInner : Balanced true inner)
      (hRest : Balanced enclosed rest) : Balanced enclosed (opening :: (inner ++ closing :: rest))

/-- A segment of a list of bindings, with the name that it gives, if it gives one. -/
inductive Segment : List Char → Option (List Char) → Prop where
  | bare {lead name gap : List Char} (hLead : AreBlank lead) (hName : IsIdentifier name)
      (hGap : AreBlank gap) : Segment (lead ++ (name ++ gap)) (some name)
  | marked {lead name gap value : List Char} {mark : Char} (hLead : AreBlank lead)
      (hName : IsIdentifier name) (hGap : AreBlank gap)
      (hMark : mark = '=' ∨ mark = ':' ∨ mark = '!') (hValue : Balanced false value) :
      Segment (lead ++ (name ++ (gap ++ mark :: value))) (some name)
  | pattern {lead text : List Char} (hLead : AreBlank lead) (hText : Balanced false text)
      (hFirst : text.head? = some '\x7b' ∨ text.head? = some '[') : Segment (lead ++ text) none

/-! ## Parts of one binding -/

/-- From one state to another, the text is part of one binding. -/
def Undivided (s : BindingState) (text : List Char) (t : BindingState) : Prop :=
  ∀ back, bindings s (text ++ back) = (bindings t back).modifyHead (text ++ ·)

namespace Undivided

variable {s t u : BindingState} {c : Char} {front text : List Char}

theorem refl (s : BindingState) : Undivided s [] s := by
  intro back
  obtain ⟨first, more, hPieces⟩ := exists_bindings_eq_cons s back
  rw [List.nil_append, hPieces]
  rfl

theorem cons (hStep : s.step? c = some t) (hDivides : ¬s.divides c) (hText : Undivided t text u) :
    Undivided s (c :: text) u := by
  intro back
  obtain ⟨first, more, hPieces⟩ := exists_bindings_eq_cons u back
  rw [List.cons_append, bindings_cons hStep, if_neg hDivides, hText back, hPieces]
  rfl

theorem trans (hFront : Undivided s front t) (hText : Undivided t text u) :
    Undivided s (front ++ text) u := by
  intro back
  obtain ⟨first, more, hPieces⟩ := exists_bindings_eq_cons u back
  rw [List.append_assoc, hFront, hText, hPieces]
  simp only [List.modifyHead_cons, List.append_assoc]

end Undivided

theorem LiteralBody.undivided {quote : Char} {body : List Char} (h : LiteralBody quote body)
    (depth : Nat) : Undivided ⟨depth, some quote, false⟩ body ⟨depth, some quote, false⟩ := by
  have hInside : ∀ (escaped : Bool) (c : Char),
      ¬BindingState.divides ⟨depth, some quote, escaped⟩ c := by
    rintro escaped c ⟨hNone, -⟩
    cases hNone
  induction h with
  | nil => exact .refl _
  | @plain c rest hQuote hEscape _ ih =>
    have hStep : BindingState.step? ⟨depth, some quote, false⟩ c =
        some ⟨depth, some quote, false⟩ := by
      simp only [BindingState.step?, BindingState.stepLiteral, Bool.false_eq_true, if_false,
        if_neg hEscape, if_neg hQuote]
    exact .cons hStep (hInside _ _) ih
  | escape c _ ih => exact .cons rfl (hInside _ _) (.cons rfl (hInside _ _) ih)

theorem step?_of_not_mark (depth : Nat) {c : Char} (hMark : c ∉ marks)
    (hEnd : c = ';' → depth ≠ 0) :
    BindingState.step? ⟨depth, none, false⟩ c = some ⟨depth, none, false⟩ := by
  simp only [marks, List.mem_cons, List.not_mem_nil, or_false, not_or] at hMark
  have hOpen : ¬(c = ';' ∧ depth = 0) := fun h => hEnd h.1 h.2
  simp only [BindingState.step?, if_neg hOpen, BindingState.stepPlain, hMark, or_self, if_false]

theorem undivided_literal (depth : Nat) {quote : Char} (hQuote : IsQuote quote) {body : List Char}
    (hBody : LiteralBody quote body) :
    Undivided ⟨depth, none, false⟩ (quote :: (body ++ [quote])) ⟨depth, none, false⟩ := by
  have hEnd : Undivided ⟨depth, some quote, false⟩ [quote] ⟨depth, none, false⟩ := by
    refine .cons ?_ ?_ (.refl _)
    · rcases hQuote with rfl | rfl | rfl <;> rfl
    · rintro ⟨hNone, -⟩
      cases hNone
  have hInside := (hBody.undivided depth).trans hEnd
  refine .cons ?_ ?_ hInside
  · rcases hQuote with rfl | rfl | rfl <;> rfl
  · rintro ⟨-, rfl, -⟩
    rcases hQuote with h | h | h <;> cases h

theorem undivided_brackets (depth : Nat) {opening closing : Char}
    (hPair : BracketPair opening closing) {inner : List Char}
    (hInner : Undivided ⟨depth + 1, none, false⟩ inner ⟨depth + 1, none, false⟩) :
    Undivided ⟨depth, none, false⟩ (opening :: (inner ++ [closing])) ⟨depth, none, false⟩ := by
  have hEnd : Undivided ⟨depth + 1, none, false⟩ [closing] ⟨depth, none, false⟩ := by
    refine .cons ?_ ?_ (.refl _)
    · cases hPair <;> rfl
    · rintro ⟨-, -, hZero⟩
      cases hZero
  refine .cons ?_ ?_ (hInner.trans hEnd)
  · cases hPair <;> rfl
  · rintro ⟨-, rfl, -⟩
    cases hPair

/-- A balanced text is part of one binding, and leads back to where it began. -/
theorem Balanced.undivided {enclosed : Bool} {text : List Char} (h : Balanced enclosed text)
    {depth : Nat} (hDepth : enclosed = true → depth ≠ 0) :
    Undivided ⟨depth, none, false⟩ text ⟨depth, none, false⟩ := by
  induction h generalizing depth with
  | nil => exact .refl _
  | @plain enclosed c rest hMark hDivider _ ih =>
    -- A comma or semicolon stands within brackets.
    have hWithin : c = ',' ∨ c = ';' → depth ≠ 0 := by
      intro hc
      cases enclosed with
      | true => exact hDepth rfl
      | false =>
        obtain ⟨hComma, hSemicolon⟩ := hDivider rfl
        exact absurd hc (not_or.2 ⟨hComma, hSemicolon⟩)
    refine .cons (step?_of_not_mark depth hMark fun hc => hWithin (.inr hc)) ?_ (ih hDepth)
    rintro ⟨-, hComma, hZero⟩
    exact hWithin (.inl hComma) hZero
  | @literal _ quote body rest hQuote hBody _ ih =>
    have hWhole := (undivided_literal depth hQuote hBody).trans (ih hDepth)
    rwa [List.cons_append, List.append_assoc, List.singleton_append] at hWhole
  | @brackets _ _ _ inner rest hPair _ _ ihInner ihRest =>
    have hInner : Undivided ⟨depth + 1, none, false⟩ inner ⟨depth + 1, none, false⟩ :=
      ihInner fun _ => Nat.succ_ne_zero depth
    have hWhole := (undivided_brackets depth hPair hInner).trans (ihRest hDepth)
    rwa [List.cons_append, List.append_assoc, List.singleton_append] at hWhole

/-! ## Segments are parts of one binding -/

/-- A character that neither divides a list nor begins or ends anything in it. -/
def isInert (c : Char) : Bool :=
  c ∉ ',' :: ';' :: marks

theorem balanced_append {front back : List Char} (hFront : ∀ c ∈ front, isInert c = true)
    (hBack : Balanced false back) : Balanced false (front ++ back) := by
  induction front with
  | nil => exact hBack
  | cons c front ih =>
    have hc := hFront c List.mem_cons_self
    simp only [isInert, decide_eq_true_eq, List.mem_cons, not_or] at hc
    obtain ⟨hComma, hSemicolon, hMark⟩ := hc
    exact .plain hMark (fun _ => ⟨hComma, hSemicolon⟩)
      (ih fun d hd => hFront d (List.mem_cons_of_mem _ hd))

theorem isInert_of_areBlank {blanks : List Char} (h : AreBlank blanks) :
    ∀ c ∈ blanks, isInert c = true := by
  intro c hc
  have hMarks : (',' :: ';' :: marks).any isBlank = false := by decide
  exact decide_eq_true fun hMem => List.any_eq_false.1 hMarks c hMem (h c hc)

theorem isInert_of_isIdentifier {name : List Char} (h : IsIdentifier name) :
    ∀ c ∈ name, isInert c = true :=
  fun c hc => decide_eq_true ((h.continues c hc).not_mem (by decide))

theorem Segment.balanced {text : List Char} {name? : Option (List Char)} (h : Segment text name?) :
    Balanced false text := by
  cases h with
  | bare hLead hName hGap =>
    have hRest := balanced_append (isInert_of_areBlank hGap) .nil
    rw [List.append_nil] at hRest
    exact balanced_append (isInert_of_areBlank hLead)
      (balanced_append (isInert_of_isIdentifier hName) hRest)
  | @marked lead name gap value mark hLead hName hGap hMark hValue =>
    have hInert : ∀ c ∈ [mark], isInert c = true := by
      rw [List.forall_mem_singleton]
      rcases hMark with rfl | rfl | rfl <;> rfl
    have hRest := balanced_append (isInert_of_areBlank hGap) (balanced_append hInert hValue)
    exact balanced_append (isInert_of_areBlank hLead)
      (balanced_append (isInert_of_isIdentifier hName) hRest)
  | pattern hLead hText _ => exact balanced_append (isInert_of_areBlank hLead) hText

/-! ## The names of segments -/

/-- What follows an identifier and blanks decides whether it is the name of a binding. -/
theorem bindingName?_append {lead name gap rest : List Char} (hLead : AreBlank lead)
    (hName : IsIdentifier name) (hGap : AreBlank gap) (hUnblank : Unblank rest)
    (hEnd : ∀ c ∈ rest.head?, ¬ContinuesIdentifier c) :
    bindingName? (lead ++ (name ++ (gap ++ rest))) = if endsName rest then some name else none := by
  have hAfter : ∀ c ∈ (gap ++ rest).head?, ¬ContinuesIdentifier c := by
    cases gap with
    | nil => exact hEnd
    | cons b gap =>
      rintro c ⟨⟩
      exact not_continues_of_isBlank (hGap b List.mem_cons_self)
  have hRead := identifier?_eq_some_iff.2 ⟨rfl, hName.longest_append hAfter⟩
  rw [bindingName?, trimStart_append hLead (hName.unblank _), hRead]
  dsimp only
  rw [trimStart_append hGap hUnblank]

theorem bindingName?_append_cons {lead name gap : List Char} {mark : Char} (hLead : AreBlank lead)
    (hName : IsIdentifier name) (hGap : AreBlank gap) (hBlank : isBlank mark = false)
    (hPart : isIdentifierPart mark = false) (rest : List Char) :
    bindingName? (lead ++ (name ++ (gap ++ mark :: rest))) =
      if endsName (mark :: rest) then some name else none := by
  refine bindingName?_append hLead hName hGap ?_ ?_
  · rintro c ⟨⟩
    exact hBlank
  · rintro c ⟨⟩ hContinues
    rw [isIdentifierPart_iff.2 hContinues] at hPart
    cases hPart

theorem Segment.bindingName?_eq {text : List Char} {name? : Option (List Char)}
    (h : Segment text name?) : bindingName? text = name? := by
  cases h with
  | @bare lead name gap hLead hName hGap =>
    have hRead : bindingName? (lead ++ (name ++ (gap ++ []))) = some name :=
      bindingName?_append hLead hName hGap (fun _ h => nomatch h) (fun _ h => nomatch h)
    rwa [List.append_nil] at hRead
  | @marked lead name gap value mark hLead hName hGap hMark _ =>
    have hNot : isBlank mark = false ∧ isIdentifierPart mark = false ∧
        endsName (mark :: value) = true := by
      rcases hMark with rfl | rfl | rfl <;> exact ⟨by decide, by decide, rfl⟩
    obtain ⟨hBlank, hPart, hEnds⟩ := hNot
    rw [bindingName?_append_cons hLead hName hGap hBlank hPart, if_pos hEnds]
  | @pattern lead text hLead _ hFirst =>
    obtain ⟨c, rest, rfl, hc⟩ : ∃ c rest, text = c :: rest ∧ (c = '\x7b' ∨ c = '[') := by
      rcases hFirst with hFirst | hFirst
      · obtain ⟨rest, rfl⟩ := List.head?_eq_some_iff.1 hFirst
        exact ⟨_, rest, rfl, .inl rfl⟩
      · obtain ⟨rest, rfl⟩ := List.head?_eq_some_iff.1 hFirst
        exact ⟨_, rest, rfl, .inr rfl⟩
    have hUnblank : Unblank (c :: rest) := by
      rintro d ⟨⟩
      rcases hc with rfl | rfl <;> rfl
    have hNone : identifier? (c :: rest) = none := by
      rcases hc with rfl | rfl <;> rfl
    rw [bindingName?, trimStart_append hLead hUnblank, hNone]

/-! ## Lists -/

/-- What follows a list: nothing, or a semicolon and anything. -/
def EndsList (tail : List Char) : Prop :=
  tail = [] ∨ ∃ more, tail = ';' :: more

theorem bindings_endsList {tail : List Char} (h : EndsList tail) : bindings {} tail = [[]] := by
  rcases h with rfl | ⟨more, rfl⟩
  · rfl
  · exact bindings_cons_ended rfl more

theorem bindings_intercalate {texts : List (List Char)} (hSome : texts ≠ [])
    (hEach : ∀ text ∈ texts, Balanced false text) {tail : List Char} (hTail : EndsList tail) :
    bindings {} ([','].intercalate texts ++ tail) = texts := by
  -- All that the induction uses of a segment is that it is part of one binding.
  have hUndivided : ∀ text ∈ texts, Undivided {} text {} := by
    intro text hMem
    exact (hEach text hMem).undivided fun h => nomatch h
  clear hEach
  induction texts with
  | nil => exact absurd rfl hSome
  | cons text texts ih =>
    obtain ⟨hText, hTexts⟩ := List.forall_mem_cons.1 hUndivided
    cases texts with
    | nil =>
      rw [List.intercalate_singleton, hText tail, bindings_endsList hTail, List.modifyHead_cons,
        List.append_nil]
    | cons next texts =>
      have hComma : BindingState.divides {} ',' := ⟨rfl, rfl, rfl⟩
      have hRest := ih (List.cons_ne_nil _ _) hTexts
      rw [List.intercalate_cons_cons, List.append_assoc, List.append_assoc, hText,
        List.singleton_append, bindings_cons rfl, if_pos hComma]
      rw [List.modifyHead_cons, List.append_nil]
      exact congrArg (text :: ·) hRest

/-- **A list of bindings is divided as written.** Of segments with commas between them, up to a
semicolon or to the end, the names are those that the segments give. -/
theorem boundNames_intercalate {segments : List (List Char × Option (List Char))}
    (hSome : segments ≠ []) (hEach : ∀ segment ∈ segments, Segment segment.1 segment.2)
    {tail : List Char} (hTail : EndsList tail) :
    boundNames ([','].intercalate (segments.map Prod.fst) ++ tail) =
      segments.filterMap Prod.snd := by
  have hTexts : ∀ text ∈ segments.map Prod.fst, Balanced false text := by
    intro text hMem
    obtain ⟨segment, hSegment, rfl⟩ := List.mem_map.1 hMem
    exact (hEach segment hSegment).balanced
  have hNames : ∀ segment ∈ segments, bindingName? segment.1 = segment.2 :=
    fun segment hMem => (hEach segment hMem).bindingName?_eq
  rw [boundNames, bindings_intercalate (mt List.map_eq_nil_iff.1 hSome) hTexts hTail,
    List.filterMap_map]
  exact List.filterMap_congr hNames

/-- A name alone, a value with a call in which a quote is escaped, and a value that is taken apart.
The commas and the semicolon within them divide nothing. -/
theorem boundNames_of_four_segments :
    let value := ['f', '(', '\'', ',', '\\', '\'', '\'', ',', '[', ';', ']', ')']
    let pattern := ['\x7b', 'c', ',', 'd', '\x7d', '=', 'e']
    let segments := [(['a', ' '], some ['a']), (' ' :: 'b' :: '=' :: value, some ['b']),
      (' ' :: pattern, none), (['z'], some ['z'])]
    (∀ segment ∈ segments, Segment segment.1 segment.2) ∧
      boundNames ([','].intercalate (segments.map Prod.fst) ++ [';', ' ', 'x', ',', 'y']) =
        [['a'], ['b'], ['z']] := by
  intro value pattern segments
  have hAny : ∀ {c : Char} {rest : List Char}, c ∉ marks → Balanced true rest →
      Balanced true (c :: rest) := fun hc => .plain hc fun h => nomatch h
  have hValue : Balanced false value := by
    have hQuoted : LiteralBody '\'' [',', '\\', '\''] :=
      .plain (by decide) (by decide) (.escape '\'' .nil)
    have hSemicolon : Balanced true [';'] := hAny (by decide) .nil
    have hSquare : Balanced true ['[', ';', ']'] := Balanced.brackets .square hSemicolon .nil
    have hInner := Balanced.literal (.inl rfl) hQuoted (hAny (c := ',') (by decide) hSquare)
    exact .plain (by decide) (by decide) (Balanced.brackets .round hInner .nil)
  have hPattern : Balanced false pattern := by
    have hInner : Balanced true ['c', ',', 'd'] :=
      hAny (by decide) (hAny (by decide) (hAny (by decide) .nil))
    have hRest : Balanced false ['=', 'e'] :=
      .plain (by decide) (by decide) (.plain (by decide) (by decide) .nil)
    exact Balanced.brackets .curly hInner hRest
  have hEach : ∀ segment ∈ segments, Segment segment.1 segment.2 := by
    have hNone : AreBlank [] := by decide
    have hBlank : AreBlank [' '] := by decide
    have ha : IsIdentifier ['a'] := by decide
    have hb : IsIdentifier ['b'] := by decide
    have hz : IsIdentifier ['z'] := by decide
    simp only [segments, List.forall_mem_cons, List.not_mem_nil, false_implies, implies_true,
      and_true]
    exact ⟨Segment.bare hNone ha hBlank, Segment.marked hBlank hb hNone (.inl rfl) hValue,
      Segment.pattern hBlank hPattern (.inl rfl), Segment.bare hNone hz hNone⟩
  exact ⟨hEach, boundNames_intercalate (List.cons_ne_nil _ _) hEach (.inr ⟨_, rfl⟩)⟩

end Homonym.Source
