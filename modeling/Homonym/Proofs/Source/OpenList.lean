import Homonym.Proofs.Source.Stop

/-!
# Lists of bindings at a cut

Of all that a statement may be, only a list of bindings is read beyond its front. Let a statement be
cut somewhere. `openList?` gives the state of its list at the cut, if it has a list that is not yet
ended there.

* If there is none, what follows a stop behind the cut does not count (`declared_stop_closed`).
* If there is one, the names in front of the cut are fixed and what follows adds those that it
  declares itself, behind its first comma (`declared_stop_open`).

The cut itself divides the list: `bindings_append_open` glues the last piece before it to the first
piece behind it.
-/

namespace Homonym.Source

open Text

namespace BindingState

/-- The state behind one character more, if that does not end the list. -/
def step? (s : BindingState) (c : Char) : Option BindingState :=
  match s.quote with
  | some quote => some (s.stepLiteral quote c)
  | none => if c = ';' ∧ s.depth = 0 then none else some (s.stepPlain c)

/-- The state behind some more text, if the list is not ended there. -/
def pass? : BindingState → List Char → Option BindingState
  | s, [] => some s
  | s, c :: rest => (s.step? c).bind fun t => t.pass? rest

/-- The character divides the list. -/
def divides (s : BindingState) (c : Char) : Prop :=
  s.quote = none ∧ c = ',' ∧ s.depth = 0

instance (s : BindingState) (c : Char) : Decidable (s.divides c) :=
  inferInstanceAs (Decidable (_ ∧ _ ∧ _))

end BindingState

/-! ## The pieces of a list that is cut -/

theorem bindings_cons_ended {s : BindingState} {c : Char} (h : s.step? c = none)
    (rest : List Char) : bindings s (c :: rest) = [[]] := by
  rw [bindings]
  rw [BindingState.step?] at h
  cases hQuote : s.quote with
  | some quote =>
    rw [hQuote] at h
    cases h
  | none =>
    rw [hQuote] at h
    simp only at h ⊢
    split at h
    · next hEnd =>
      have hComma : ¬ (c = ',' ∧ s.depth = 0) := fun hBoth => by
        rw [hEnd.1] at hBoth
        exact absurd hBoth.1 (by decide)
      rw [if_neg hComma, if_pos hEnd]
    · cases h

theorem bindings_cons {s t : BindingState} {c : Char} (h : s.step? c = some t)
    (rest : List Char) :
    bindings s (c :: rest) =
      if s.divides c then [] :: bindings t rest else consFirst c (bindings t rest) := by
  rw [bindings]
  rw [BindingState.step?] at h
  cases hQuote : s.quote with
  | some quote =>
    rw [hQuote] at h
    cases h
    have hNot : ¬ s.divides c := fun hDivides => by
      rw [BindingState.divides, hQuote] at hDivides
      cases hDivides.1
    rw [if_neg hNot]
  | none =>
    rw [hQuote] at h
    simp only at h ⊢
    split at h
    · cases h
    · next hEnd =>
      cases h
      by_cases hComma : c = ',' ∧ s.depth = 0
      · have hStep : s.stepPlain c = s := by
          rw [hComma.1]
          rfl
        rw [if_pos hComma, if_pos ⟨hQuote, hComma⟩, hStep]
      · rw [if_neg hComma, if_neg hEnd, if_neg fun hDivides => hComma hDivides.2]

theorem exists_bindings_eq_cons (s : BindingState) (text : List Char) :
    ∃ first more, bindings s text = first :: more := by
  cases text with
  | nil => exact ⟨[], [], rfl⟩
  | cons c rest =>
    cases hStep : s.step? c with
    | none => exact ⟨[], [], bindings_cons_ended hStep rest⟩
    | some t =>
      rw [bindings_cons hStep]
      split
      · exact ⟨_, _, rfl⟩
      · cases bindings t rest with
        | nil => exact ⟨_, _, rfl⟩
        | cons first more => exact ⟨_, _, rfl⟩

/-- Behind its end a list has nothing more. -/
theorem bindings_append_ended {s : BindingState} {front : List Char} (h : s.pass? front = none)
    (back : List Char) : bindings s (front ++ back) = bindings s front := by
  induction front generalizing s with
  | nil => cases h
  | cons c front ih =>
    rw [List.cons_append]
    cases hStep : s.step? c with
    | none => rw [bindings_cons_ended hStep, bindings_cons_ended hStep]
    | some t =>
      rw [BindingState.pass?, hStep] at h
      rw [bindings_cons hStep, bindings_cons hStep, ih h]

/-- A list that is open at a cut has a last piece there, which goes on behind the cut. -/
theorem bindings_append_open {s t : BindingState} {front : List Char} (h : s.pass? front = some t) :
    ∃ done last, ∀ back first more, bindings t back = first :: more →
      bindings s (front ++ back) = done ++ (last ++ first) :: more := by
  induction front generalizing s with
  | nil =>
    obtain rfl : s = t := Option.some.inj h
    exact ⟨[], [], fun back first more hBack => hBack⟩
  | cons c front ih =>
    rw [BindingState.pass?] at h
    obtain ⟨s', hStep, hOver⟩ := Option.bind_eq_some_iff.1 h
    obtain ⟨done, last, hGlue⟩ := ih hOver
    by_cases hDivides : s.divides c
    · refine ⟨[] :: done, last, fun back first more hBack => ?_⟩
      rw [List.cons_append, bindings_cons hStep, if_pos hDivides, hGlue back first more hBack]
      rfl
    · cases done with
      | nil =>
        refine ⟨[], c :: last, fun back first more hBack => ?_⟩
        rw [List.cons_append, bindings_cons hStep, if_neg hDivides, hGlue back first more hBack]
        rfl
      | cons piece done =>
        refine ⟨(c :: piece) :: done, last, fun back first more hBack => ?_⟩
        rw [List.cons_append, bindings_cons hStep, if_neg hDivides, hGlue back first more hBack]
        rfl

theorem bindings_tail_eq_nil (s : BindingState) {text : List Char} (h : ',' ∉ text) :
    (bindings s text).tail = [] := by
  induction text generalizing s with
  | nil => rfl
  | cons c rest ih =>
    simp only [List.mem_cons, not_or] at h
    cases hStep : s.step? c with
    | none => rw [bindings_cons_ended hStep]; rfl
    | some t =>
      have hRest := ih t h.2
      rw [bindings_cons hStep, if_neg fun hDivides => h.1 hDivides.2.1.symm]
      obtain ⟨first, more, hPieces⟩ := exists_bindings_eq_cons t rest
      rw [hPieces] at hRest ⊢
      exact hRest

/-! ## The names of a list that is cut -/

/-- The names that a text declares behind its first comma, in a list that is open before it. -/
def laterNames (s : BindingState) (text : List Char) : List (List Char) :=
  (bindings s text).tail.filterMap bindingName?

section Stop

variable {c : Char} (hc : isStop c = true)

include hc

/-- A stop is part of the piece that it stands in. -/
theorem bindings_stop (s : BindingState) (rest : List Char) :
    ∃ first more, bindings s (c :: rest) = (c :: first) :: more := by
  have hNot : c ≠ ',' ∧ c ≠ ';' := by
    rcases eq_of_isStop hc with rfl | rfl | rfl | rfl <;> decide
  cases hStep : s.step? c with
  | none =>
    rw [BindingState.step?] at hStep
    split at hStep
    · cases hStep
    · rw [if_neg fun hEnd => hNot.2 hEnd.1] at hStep
      cases hStep
  | some t =>
    rw [bindings_cons hStep, if_neg fun hDivides => hNot.1 hDivides.2.1]
    obtain ⟨first, more, hPieces⟩ := exists_bindings_eq_cons t rest
    exact ⟨first, more, by rw [hPieces]; rfl⟩

theorem boundNames_stop_open {list : List Char} {t : BindingState}
    (h : BindingState.pass? {} list = some t) :
    ∃ names, ∀ rest, boundNames (list ++ c :: rest) = names ++ laterNames t (c :: rest) := by
  obtain ⟨done, last, hGlue⟩ := bindings_append_open h
  refine ⟨(done ++ [last ++ [c]]).filterMap bindingName?, fun rest => ?_⟩
  obtain ⟨first, more, hPieces⟩ := bindings_stop hc t rest
  have hLast : bindingName? (last ++ c :: first) = bindingName? (last ++ [c]) :=
    bindingName?_stop hc last first
  rw [boundNames, hGlue _ _ _ hPieces, laterNames, hPieces, List.tail_cons, ← List.filterMap_append,
    List.append_assoc, List.filterMap_append, List.filterMap_append]
  simp only [List.cons_append, List.nil_append, List.filterMap_cons, hLast]

end Stop

/-! ## Statements that are cut -/

/-- The state in which a statement leaves its list of bindings, if it has one that is not ended. -/
def openList? (statement : List Char) : Option BindingState :=
  if (single? (modifiers statement).2).isSome then none
  else (bindingList? (modifiers statement).2).bind (BindingState.pass? {})

/-- A list of bindings is no type alias. -/
theorem aliasName?_of_bindingList? {text list : List Char} (h : bindingList? text = some list)
    (more : List Char) : aliasName? (text ++ more) = none := by
  have hFront : ∀ word : String, keyword? word text = some list →
      ∃ rest, text = word.toList ++ rest := fun word hWord => by
    rw [keyword?] at hWord
    obtain ⟨rest, hAfter, -⟩ := Option.bind_eq_some_iff.1 hWord
    exact ⟨rest, after?_eq_some_iff.1 hAfter⟩
  simp only [bindingList?, Option.or_eq_some_iff] at h
  rcases h with hConst | ⟨-, hLet | ⟨-, hVar⟩⟩
  · obtain ⟨rest, rfl⟩ := hFront _ hConst
    rfl
  · obtain ⟨rest, rfl⟩ := hFront _ hLet
    rfl
  · obtain ⟨rest, rfl⟩ := hFront _ hVar
    rfl

section Stop

variable {c : Char} (hc : isStop c = true)

include hc

theorem single?_stop_of_bindingList? {text list : List Char} (h : bindingList? text = some list) :
    single? (text ++ [c]) = single? text := by
  have hAlias : aliasName? text = none := by
    simpa only [List.append_nil] using aliasName?_of_bindingList? h []
  simp only [single?, singleForms, List.findSome?_cons, List.findSome?_nil, functionName?_stop hc,
    namedBy?_stop hc text [] (show "class".toList.all (fun w => !isStop w) = true by decide),
    namedBy?_stop hc text [] (show "interface".toList.all (fun w => !isStop w) = true by decide),
    aliasName?_of_bindingList? h, hAlias, enumName?_stop hc, namespaceName?_stop hc]

/-- Without an open list, nothing behind a stop counts. -/
theorem declared_stop_closed {statement : List Char} (h : openList? statement = none)
    (rest : List Char) : declared (statement ++ c :: rest) = declared (statement ++ [c]) := by
  simp only [declared, modifiers_stop hc statement, declaredNames, single?_stop hc _ rest,
    bindingList?_stop hc]
  cases hSingle : single? ((modifiers statement).2 ++ [c]) with
  | some found => rfl
  | none =>
    cases hList : bindingList? (modifiers statement).2 with
    | none => rfl
    | some list =>
      rw [single?_stop_of_bindingList? hc hList] at hSingle
      have hEnded : BindingState.pass? {} list = none := by
        simpa [openList?, hSingle, hList] using h
      simp only [Option.map_some, boundNames, bindings_append_ended hEnded]

/-- With an open list, what follows a stop adds its own names to those before. -/
theorem declared_stop_open {statement : List Char} {t : BindingState}
    (h : openList? statement = some t) :
    ∃ names, ∀ rest, declared (statement ++ c :: rest) =
      ((modifiers statement).1,
        names ++ (laterNames t (c :: rest)).map (Kind.binding, ·)) := by
  rw [openList?] at h
  split at h
  · cases h
  · next hSingle =>
    obtain ⟨list, hList, hOver⟩ := Option.bind_eq_some_iff.1 h
    obtain ⟨names, hNames⟩ := boundNames_stop_open hc hOver
    have hNone : single? (modifiers statement).2 = none := by simpa using hSingle
    refine ⟨names.map (Kind.binding, ·), fun rest => ?_⟩
    simp only [declared, modifiers_stop hc statement, declaredNames, single?_stop hc _ rest,
      single?_stop_of_bindingList? hc hList, hNone, bindingList?_stop hc, hList, Option.map_some,
      hNames, List.map_append]

end Stop

/-- A statement with a list does not begin with a stop. -/
theorem openList?_stop_eq_none {c : Char} (hc : isStop c = true) (rest : List Char) :
    openList? (c :: rest) = none := by
  have hList : bindingList? (c :: rest) = none := bindingList?_stop hc [] rest
  have hModifiers : modifiers (c :: rest) = (false, c :: rest) := modifiers_stop hc [] rest
  rw [openList?, hModifiers, hList]
  exact ite_self none

/-! ## Going on with an open list -/

namespace BindingState

/-- What ends the literal around a position and closes all brackets. -/
def closing (s : BindingState) : List Char :=
  s.quote.toList ++ List.replicate s.depth ')'

/-- The literal around the position has a quote that opens literals. -/
def Quoted (s : BindingState) : Prop :=
  ∀ quote, s.quote = some quote → quote = '\'' ∨ quote = '"' ∨ quote = '\x60'

theorem Quoted.step {s t : BindingState} {c : Char} (h : s.Quoted) (hStep : s.step? c = some t) :
    t.Quoted := by
  rw [step?] at hStep
  cases hQuote : s.quote with
  | some quote =>
    simp only [hQuote, Option.some.injEq] at hStep
    subst hStep
    unfold stepLiteral
    split_ifs
    · exact h
    · exact h
    · intro _ hNone
      cases hNone
    · exact h
  | none =>
    simp only [hQuote] at hStep
    split at hStep
    · cases hStep
    · obtain rfl := Option.some.inj hStep
      unfold stepPlain
      split_ifs with hOpen
      · intro quote hSome
        exact Option.some.inj hSome ▸ hOpen
      · exact h
      · exact h
      · exact h

theorem Quoted.pass {s t : BindingState} {text : List Char} (h : s.Quoted)
    (hOver : s.pass? text = some t) : t.Quoted := by
  induction text generalizing s with
  | nil => exact Option.some.inj hOver ▸ h
  | cons c rest ih =>
    obtain ⟨s', hStep, hRest⟩ := Option.bind_eq_some_iff.1 hOver
    exact ih (h.step hStep) hRest

theorem pass?_closing_brackets (depth : Nat) (escaped : Bool) :
    pass? ⟨depth, none, escaped⟩ (List.replicate depth ')') = some ⟨0, none, escaped⟩ := by
  induction depth with
  | zero => rfl
  | succ depth ih => exact ih

/-- Behind the front of a comment, the literal and the brackets can still be closed. -/
theorem pass?_closing {s : BindingState} (h : s.Quoted) {c : Char} (hc : c = '/' ∨ c = '*') :
    ∃ escaped, s.pass? ('/' :: c :: s.closing) = some ⟨0, none, escaped⟩ := by
  obtain ⟨depth, quote, escaped⟩ := s
  cases quote with
  | none =>
    refine ⟨escaped, ?_⟩
    rcases hc with rfl | rfl <;> exact pass?_closing_brackets depth escaped
  | some quote =>
    refine ⟨false, ?_⟩
    have hQuote := h quote rfl
    rcases hc with rfl | rfl <;> rcases hQuote with rfl | rfl | rfl <;> cases escaped <;>
      exact pass?_closing_brackets depth false

end BindingState

/-- A text that ends the literal and all brackets around it and goes on with one binding more. -/
def oneMore (s : BindingState) : List Char :=
  s.closing ++ [',', 'b', '=']

theorem mem_oneMore {s : BindingState} (h : s.Quoted) {c : Char} (hc : c ∈ oneMore s) :
    c ∈ ['\'', '"', '\x60', ')', ',', 'b', '='] := by
  simp only [oneMore, BindingState.closing, List.mem_append, Option.mem_toList,
    List.mem_replicate] at hc
  rcases hc with (hQuote | ⟨-, rfl⟩) | hMore
  · rcases h c hQuote with rfl | rfl | rfl <;> decide
  · decide
  · exact (List.drop_sublist 4 ['\'', '"', '\x60', ')', ',', 'b', '=']).subset hMore

theorem mem_laterNames_oneMore {s : BindingState} (h : s.Quoted) {c : Char}
    (hc : c = '/' ∨ c = '*') (rest : List Char) :
    ['b'] ∈ laterNames s ('/' :: c :: (oneMore s ++ rest)) := by
  obtain ⟨escaped, hClosed⟩ := BindingState.pass?_closing h hc
  obtain ⟨done, last, hGlue⟩ := bindings_append_open hClosed
  obtain ⟨first, more, hRest⟩ := exists_bindings_eq_cons ⟨0, none, escaped⟩ rest
  have hPieces : bindings ⟨0, none, escaped⟩ (',' :: 'b' :: '=' :: rest) =
      [] :: ('b' :: '=' :: first) :: more := by
    show [] :: consFirst 'b' (consFirst '=' (bindings ⟨0, none, escaped⟩ rest)) = _
    rw [hRest]
    rfl
  have hText : '/' :: c :: (oneMore s ++ rest) =
      '/' :: c :: s.closing ++ ',' :: 'b' :: '=' :: rest := by
    simp only [oneMore, List.append_assoc, List.cons_append, List.nil_append]
  rw [laterNames, hText, hGlue _ _ _ hPieces, List.mem_filterMap]
  refine ⟨'b' :: '=' :: first, ?_, rfl⟩
  cases done with
  | nil => exact List.mem_cons_self
  | cons piece done =>
    exact List.mem_append_right _ (List.mem_cons_of_mem _ List.mem_cons_self)

theorem quoted_of_openList? {statement : List Char} {t : BindingState}
    (h : openList? statement = some t) : t.Quoted := by
  rw [openList?] at h
  split at h
  · cases h
  · obtain ⟨list, -, hOver⟩ := Option.bind_eq_some_iff.1 h
    have hStart : BindingState.Quoted {} := fun _ hNone => by cases hNone
    exact hStart.pass hOver

end Homonym.Source
