import Homonym.Proofs.Source.Comments

/-!
# The text of literals

What stands between two quotes should not count, whatever it is. Two readers go over a literal: the
scan, which tracks the nesting, and the reader of a list of bindings, which divides it at commas.
Each keeps an account of quotes, escapes and brackets of its own.

Behind a text without comments and templates the two accounts are the same
(`Automaton.Agrees.run`): both readers begin a statement outside everything, and every character
moves them alike. So a literal that the scan finds is one for the list as well. Then the names of
the list behind the literal do not depend on its text (`laterNames_literal`), and neither does
anything else that is extracted (`literal_text_ignored`), but for the excerpts of lines.
-/

namespace Homonym.Source

open Text

/-! ## Text without comments and templates -/

/-- No template and no comment begins in the text. -/
structure IsBareText (text : List Char) : Prop where
  noTemplate : '\x60' ∉ text
  noLineComment : ¬ ['/', '/'] <:+: text
  noBlockComment : ¬ ['/', '*'] <:+: text

theorem IsBareText.of_noSlash {text : List Char} (hTick : '\x60' ∉ text) (hSlash : '/' ∉ text) :
    IsBareText text :=
  ⟨hTick, fun hLine => hSlash (hLine.subset List.mem_cons_self),
    fun hBlock => hSlash (hBlock.subset List.mem_cons_self)⟩

theorem IsBareText.of_infix {part text : List Char} (h : IsBareText text) (hPart : part <:+: text) :
    IsBareText part :=
  ⟨fun hMem => h.noTemplate (hPart.subset hMem), fun hLine => h.noLineComment (hLine.trans hPart),
    fun hBlock => h.noBlockComment (hBlock.trans hPart)⟩

namespace Automaton

/-- In code or in a string, and in no substitution. -/
inductive IsBare : Automaton → Prop where
  | code (depth : Nat) : IsBare ⟨.code, depth, []⟩
  | slash (depth : Nat) : IsBare ⟨.slash, depth, []⟩
  | quoted (quote : Char) (depth : Nat) : IsBare ⟨.quoted quote, depth, []⟩
  | quotedEscape (quote : Char) (depth : Nat) : IsBare ⟨.quotedEscape quote, depth, []⟩

theorem isBare_readCode (mode : Mode) (depth : Nat) {c : Char} (hTick : c ≠ '\x60') :
    IsBare (readCode ⟨mode, depth, []⟩ c) := by
  unfold readCode
  split_ifs with hSlash hQuote hOpen hBrace hClose
  · exact .slash depth
  · exact .quoted c depth
  · exact .code (depth + 1)
  · exact .code (depth - 1)
  · exact .code (depth - 1)
  · exact .code depth

theorem IsBare.read {a : Automaton} (h : a.IsBare) {c : Char} (hTick : c ≠ '\x60')
    (hPair : a.mode = .slash → c ≠ '/' ∧ c ≠ '*') : (a.read c).IsBare := by
  by_cases hBreak : c = '\n'
  · subst hBreak
    cases h <;> exact .code _
  · rw [Automaton.read, if_neg hBreak]
    cases h with
    | code depth => exact isBare_readCode .code depth hTick
    | slash depth =>
      obtain ⟨hSlash, hStar⟩ := hPair rfl
      simp only [if_neg hSlash, if_neg hStar]
      exact isBare_readCode .slash depth hTick
    | quoted quote depth =>
      simp only
      split_ifs with hEscape hQuote
      · exact .quotedEscape quote depth
      · exact .code depth
      · exact .quoted quote depth
    | quotedEscape quote depth => exact .quoted quote depth

theorem isBare_run {text : List Char} (h : IsBareText text) : (run {} text).IsBare := by
  induction text using List.reverseRecOn with
  | nil => exact .code 0
  | append_singleton front c ih =>
    have hFront := ih (h.of_infix (List.prefix_append front [c]).isInfix)
    have hTick : c ≠ '\x60' := by
      rintro rfl
      exact h.noTemplate (List.mem_append_right _ List.mem_cons_self)
    rw [run_append]
    refine hFront.read hTick fun hMode => ?_
    -- A slash has just been read, and with it the character would begin a comment.
    have hLast : ∃ more, front = more ++ ['/'] := by
      cases front using List.reverseRecOn with
      | nil => cases hMode
      | append_singleton more d =>
        rw [run_append] at hMode
        exact ⟨more, by rw [eq_slash_of_read hMode]⟩
    obtain ⟨more, rfl⟩ := hLast
    have hPair : ['/', c] <:+: more ++ ['/'] ++ [c] := ⟨more, [], by simp⟩
    constructor
    · rintro rfl
      exact h.noLineComment hPair
    · rintro rfl
      exact h.noBlockComment hPair

/-! ## The two readers agree -/

/-- The automaton and the reader of a list of bindings are inside of the same. -/
inductive Agrees : Automaton → BindingState → Prop where
  | code (depth : Nat) : Agrees ⟨.code, depth, []⟩ ⟨depth, none, false⟩
  | slash (depth : Nat) : Agrees ⟨.slash, depth, []⟩ ⟨depth, none, false⟩
  | quoted (quote : Char) (depth : Nat) :
      Agrees ⟨.quoted quote, depth, []⟩ ⟨depth, some quote, false⟩
  | quotedEscape (quote : Char) (depth : Nat) :
      Agrees ⟨.quotedEscape quote, depth, []⟩ ⟨depth, some quote, true⟩

theorem agrees_stepPlain (mode : Mode) (depth : Nat) {c : Char} (hTick : c ≠ '\x60') :
    Agrees (readCode ⟨mode, depth, []⟩ c) (BindingState.stepPlain ⟨depth, none, false⟩ c) := by
  unfold readCode
  split_ifs with hSlash hQuote hOpen hBrace hClose
  · subst hSlash
    exact .slash depth
  · rcases hQuote with rfl | rfl
    · exact .quoted _ depth
    · exact .quoted _ depth
  · rcases hOpen with rfl | rfl | rfl <;> exact .code (depth + 1)
  · subst hBrace
    exact .code (depth - 1)
  · rcases hClose with rfl | rfl <;> exact .code (depth - 1)
  · have hState : BindingState.stepPlain ⟨depth, none, false⟩ c = ⟨depth, none, false⟩ := by
      simp only [not_or] at hQuote hOpen hClose
      simp only [BindingState.stepPlain, hQuote, hTick, hOpen, hBrace, hClose, or_self, if_false]
    rw [hState]
    exact .code depth

theorem Agrees.step {a : Automaton} {s t : BindingState} (h : Agrees a s) {c : Char}
    (hBreak : c ≠ '\n') (hBare : (a.read c).IsBare) (hStep : s.step? c = some t) :
    Agrees (a.read c) t := by
  have hCode : ∀ mode depth, (readCode ⟨mode, depth, []⟩ c).IsBare → c ≠ '\x60' := by
    rintro mode depth hRead rfl
    cases hRead
  have hPlain : ∀ depth, BindingState.step? ⟨depth, none, false⟩ c = some t →
      t = BindingState.stepPlain ⟨depth, none, false⟩ c := by
    intro depth hSome
    simp only [BindingState.step?] at hSome
    split at hSome
    · cases hSome
    · exact (Option.some.inj hSome).symm
  rw [Automaton.read, if_neg hBreak] at hBare ⊢
  cases h with
  | code depth =>
    rw [hPlain depth hStep]
    exact agrees_stepPlain .code depth (hCode .code depth hBare)
  | slash depth =>
    simp only at hBare ⊢
    split_ifs at hBare ⊢
    · cases hBare
    · cases hBare
    · rw [hPlain depth hStep]
      exact agrees_stepPlain .slash depth (hCode .slash depth hBare)
  | quoted quote depth =>
    cases hStep
    simp only [BindingState.stepLiteral, Bool.false_eq_true, if_false]
    split_ifs with hEscape hQuote
    · exact .quotedEscape quote depth
    · exact .code depth
    · exact .quoted quote depth
  | quotedEscape quote depth =>
    cases hStep
    exact .quoted quote depth

/-- Along a list that is not ended, the two readers go on agreeing. -/
theorem Agrees.run {a : Automaton} {s t : BindingState} (h : Agrees a s) {text : List Char}
    (hBreak : '\n' ∉ text) (hBare : ∀ front, front <+: text → (a.run front).IsBare)
    (hPass : s.pass? text = some t) : Agrees (a.run text) t := by
  induction text generalizing a s with
  | nil =>
    cases hPass
    exact h
  | cons c text ih =>
    simp only [List.mem_cons, not_or] at hBreak
    obtain ⟨s', hStep, hRest⟩ := Option.bind_eq_some_iff.1 hPass
    have hRead : (a.read c).IsBare := hBare [c] ⟨text, rfl⟩
    refine ih (h.step (Ne.symm hBreak.1) hRead hStep) hBreak.2 (fun front hFront => ?_) hRest
    exact hBare (c :: front) (List.cons_prefix_cons.2 ⟨rfl, hFront⟩)

end Automaton

/-! ## The front of a list -/

/-- The text ends with `rest`, and what is before that means nothing in code. -/
def EndsPlainly (text rest : List Char) : Prop :=
  ∃ front, text = front ++ rest ∧ ∀ c ∈ front, Automaton.isPlain c = true

namespace EndsPlainly

theorem refl (text : List Char) : EndsPlainly text text :=
  ⟨[], rfl, fun _ hc => by cases hc⟩

theorem trans {text middle rest : List Char} (h : EndsPlainly text middle)
    (h' : EndsPlainly middle rest) : EndsPlainly text rest := by
  obtain ⟨front, rfl, hFront⟩ := h
  obtain ⟨front', rfl, hFront'⟩ := h'
  refine ⟨front ++ front', (List.append_assoc _ _ _).symm, fun c hc => ?_⟩
  rcases List.mem_append.1 hc with hc | hc
  · exact hFront c hc
  · exact hFront' c hc

theorem trimStart (text : List Char) : EndsPlainly text (Text.trimStart text) := by
  refine ⟨text.takeWhile isBlank, List.takeWhile_append_dropWhile.symm, fun c hc => ?_⟩
  exact isPlain_of_isBlank (List.all_eq_true.1 List.all_takeWhile c hc)

theorem keyword? {word : String} (hWord : word.toList.all Automaton.isPlain = true)
    {text rest : List Char} (h : Text.keyword? word text = some rest) : EndsPlainly text rest := by
  obtain ⟨middle, hAfter, hBlanks⟩ := Option.bind_eq_some_iff.1 h
  have hFront : EndsPlainly text middle :=
    ⟨word.toList, after?_eq_some_iff.1 hAfter, List.all_eq_true.1 hWord⟩
  refine hFront.trans ?_
  cases middle with
  | nil => cases hBlanks
  | cons c middle =>
    simp only [afterBlanks?] at hBlanks
    split at hBlanks
    · next hBlank =>
      cases hBlanks
      have hFirst : EndsPlainly (c :: middle) middle :=
        ⟨[c], rfl, fun d hd => by
          rw [List.mem_singleton.1 hd]
          exact isPlain_of_isBlank hBlank⟩
      exact hFirst.trans (trimStart middle)
    · cases hBlanks

theorem skipKeyword {word : String} (hWord : word.toList.all Automaton.isPlain = true)
    (text : List Char) : EndsPlainly text (Text.skipKeyword word text) := by
  rw [Text.skipKeyword]
  cases hFound : Text.keyword? word text with
  | none => exact refl text
  | some rest => exact keyword? hWord hFound

theorem modifiers (text : List Char) : EndsPlainly text (Source.modifiers text).2 := by
  have hInner : ∀ rest, EndsPlainly rest (modifiers.inner rest) := fun rest =>
    ((skipKeyword (by decide) _).trans (skipKeyword (by decide) _)).trans
      (skipKeyword (by decide) _)
  rw [Source.modifiers]
  cases hFound : Text.keyword? "export" text with
  | none => exact hInner text
  | some rest =>
    have hExport : EndsPlainly text rest := keyword? (by decide) hFound
    exact (hExport.trans (skipKeyword (by decide) rest)).trans (hInner _)

theorem bindingList? {text list : List Char} (h : Source.bindingList? text = some list) :
    EndsPlainly text list := by
  simp only [Source.bindingList?, Option.or_eq_some_iff] at h
  rcases h with hConst | ⟨-, hLet | ⟨-, hVar⟩⟩
  · exact keyword? (by decide) hConst
  · exact keyword? (by decide) hLet
  · exact keyword? (by decide) hVar

end EndsPlainly

/-- The scan, at the end of a text that leaves a list open, agrees with the reader of that list. -/
theorem agrees_of_openList? {front back : List Char} (hBare : IsBareText (front ++ back))
    (hBreak : '\n' ∉ back) (hTop : (Automaton.run {} front).AtTop) {t : BindingState}
    (h : openList? (trimStart back) = some t) :
    Automaton.Agrees (Automaton.run {} (front ++ back)) t := by
  have hStart : Automaton.run {} front = {} := by
    have hFront := Automaton.isBare_run (hBare.of_infix (List.prefix_append front back).isInfix)
    generalize Automaton.run {} front = a at hTop hFront
    obtain ⟨hMode, hDepth⟩ := hTop
    cases hFront with
    | code depth =>
      obtain rfl : depth = 0 := hDepth
      rfl
    | slash => cases hMode
    | quoted => cases hMode
    | quotedEscape => cases hMode
  rw [openList?] at h
  split at h
  · cases h
  · obtain ⟨list, hList, hPass⟩ := Option.bind_eq_some_iff.1 h
    have hTail : EndsPlainly back list :=
      ((EndsPlainly.trimStart back).trans (.modifiers _)).trans (.bindingList? hList)
    obtain ⟨plain, rfl, hPlain⟩ := hTail
    have hState : Automaton.run {} (front ++ plain) = {} := by
      rw [Automaton.run_append, hStart]
      exact Automaton.run_of_isPlain rfl hPlain
    rw [← List.append_assoc, Automaton.run_append, hState]
    refine Automaton.Agrees.run (.code 0) (fun hMem => hBreak (List.mem_append_right _ hMem))
      (fun part hPart => ?_) hPass
    obtain ⟨more, rfl⟩ := hPart
    rw [← hState, ← Automaton.run_append]
    exact Automaton.isBare_run (hBare.of_infix ⟨[], more, by simp⟩)

/-! ## Literals in a pass -/

/-- A quote of a string or the backtick of a template. -/
def IsQuote (q : Char) : Prop :=
  q = '\'' ∨ q = '"' ∨ q = '\x60'

instance (q : Char) : Decidable (IsQuote q) :=
  inferInstanceAs (Decidable (_ ∨ _ ∨ _))

/-- What may stand in a literal that holds no escape and no substitution. -/
structure IsLiteralText (q : Char) (s : List Char) : Prop where
  noQuote : q ∉ s
  noEscape : '\\' ∉ s
  noBreak : '\n' ∉ s
  noDollar : q = '\x60' → '$' ∉ s

theorem IsLiteralText.of_subset {q : Char} {s part : List Char} (h : IsLiteralText q s)
    (hPart : part ⊆ s) : IsLiteralText q part :=
  ⟨fun hMem => h.noQuote (hPart hMem), fun hMem => h.noEscape (hPart hMem),
    fun hMem => h.noBreak (hPart hMem), fun hTick hMem => h.noDollar hTick (hPart hMem)⟩

/-- A literal with the given text. -/
def literal (q : Char) (s : List Char) : List Char :=
  q :: (s ++ [q])

/-- What the automaton is inside of between two quotes. -/
def literalMode (q : Char) : Mode :=
  if q = '\x60' then .template else .quoted q

section Literal

variable {q : Char} (hq : IsQuote q)

include hq

theorem isStop_quote : isStop q = true := by
  rcases hq with rfl | rfl | rfl <;> rfl

theorem quote_ne : q ≠ '/' ∧ q ≠ '*' ∧ q ≠ '\\' ∧ q ≠ '\n' ∧ q ≠ '\r' := by
  rcases hq with rfl | rfl | rfl <;> decide

theorem read_openingQuote {a : Automaton} (hMode : a.mode = .code ∨ a.mode = .slash) :
    a.read q = ⟨literalMode q, a.depth, a.resume⟩ := by
  obtain ⟨mode, depth, resume⟩ := a
  rcases hMode with hMode | hMode <;> obtain rfl : mode = _ := hMode <;>
    rcases hq with rfl | rfl | rfl <;> rfl

theorem read_closingQuote (depth : Nat) (resume : List Nat) :
    Automaton.read ⟨literalMode q, depth, resume⟩ q = ⟨.code, depth, resume⟩ ∧
      Automaton.opens ⟨literalMode q, depth, resume⟩ q = false := by
  rcases hq with rfl | rfl | rfl <;> exact ⟨rfl, rfl⟩

omit hq in
theorem run_literalText (depth : Nat) (resume : List Nat) {s : List Char}
    (hs : IsLiteralText q s) :
    Automaton.run ⟨literalMode q, depth, resume⟩ s = ⟨literalMode q, depth, resume⟩ := by
  induction s using List.reverseRecOn with
  | nil => rfl
  | append_singleton front c ih =>
    have hLast : c ∈ front ++ [c] := List.mem_append_right _ List.mem_cons_self
    have hQuote : c ≠ q := fun h => hs.noQuote (h ▸ hLast)
    have hEscape : c ≠ '\\' := fun h => hs.noEscape (h ▸ hLast)
    have hBreak : c ≠ '\n' := fun h => hs.noBreak (h ▸ hLast)
    rw [Automaton.run_append, ih (hs.of_subset (List.subset_append_left front [c]))]
    unfold literalMode
    split
    · next hTick =>
      subst hTick
      have hDollar : c ≠ '$' := fun h => hs.noDollar rfl (h ▸ hLast)
      simp only [Automaton.run_cons, Automaton.run_nil, Automaton.read, Automaton.readTemplate,
        if_neg hBreak, if_neg hEscape, if_neg hQuote, if_neg hDollar]
    · simp only [Automaton.run_cons, Automaton.run_nil, Automaton.read, if_neg hBreak,
        if_neg hEscape, if_neg hQuote]

omit hq in
theorem position_pass_literal (p : Position) {s₁ s₂ : List Char} (hBreak : q ≠ '\n')
    (hLength : s₁.length = s₂.length) (h₁ : IsLiteralText q s₁) (h₂ : IsLiteralText q s₂) :
    p.pass (literal q s₁) = p.pass (literal q s₂) := by
  have hNoBreak : ∀ s, IsLiteralText q s → '\n' ∉ literal q s := fun s hs => by
    simp [literal, hs.noBreak, Ne.symm hBreak]
  rw [Position.pass_of_noBreak p (hNoBreak s₁ h₁), Position.pass_of_noBreak p (hNoBreak s₂ h₂)]
  simp only [literal, List.length_cons, List.length_append, hLength]

/-- A literal declares nothing. -/
theorem declarationsAt_literal (file : String) (p : Position) (rest : List Char) :
    declarationsAt file p (q :: rest) = [] := by
  have hStop := isStop_quote hq
  have hTrim : trimStart (q :: rest) = q :: rest := trimStart_stop hStop [] rest
  have hModifiers : modifiers (q :: rest) = (false, q :: rest) := modifiers_stop hStop [] rest
  have hList : bindingList? (q :: rest) = none := bindingList?_stop hStop [] rest
  have hSingle : single? (q :: rest) = none := by
    rw [show q :: rest = [] ++ q :: rest from rfl, single?_stop hStop]
    rcases hq with rfl | rfl | rfl <;> rfl
  simp only [declarationsAt, hTrim, declared, hModifiers, declaredNames, hSingle, hList,
    List.map_nil, ite_self]

namespace Cursor

variable {k : Cursor} (hMode : k.inside.mode = .code ∨ k.inside.mode = .slash) {s : List Char}
  (hs : IsLiteralText q s)

include hMode hs

/-- Behind a literal the scan goes on as before, within the same statement. -/
theorem pass_literal :
    k.pass (literal q s) =
      ⟨k.position.pass (literal q s), ⟨.code, k.inside.depth, k.inside.resume⟩, false⟩ := by
  obtain ⟨hRead, hOpens⟩ := read_closingQuote hq k.inside.depth k.inside.resume
  have hInside : (k.pass (q :: s)).inside = ⟨literalMode q, k.inside.depth, k.inside.resume⟩ := by
    rw [inside_pass, Automaton.run_cons, read_openingQuote hq hMode, run_literalText _ _ hs]
  rw [show literal q s = (q :: s) ++ [q] from rfl, pass_append, pass_cons, pass_nil, next, hInside,
    hRead, hOpens, position_pass, Position.pass_append]
  rfl

/-- No statement begins in a literal. -/
theorem statements_literal (file : String) (hk : k.Sound) (behind : List Char) :
    k.statements file (literal q s) behind = [] := by
  obtain ⟨-, -, -, hBreak, hReturn⟩ := quote_ne hq
  rw [literal, statements, List.cons_append, lineOf_cons_plain hBreak (Or.inl hReturn), found,
    declarationsAt_literal hq, ite_self, List.nil_append]
  refine statements_eq_nil (hk.pass [q]) fun front back hText hBack hTop => ?_
  -- What follows the front is not empty, so the front does not reach the closing quote.
  have hFront : front <+: s := by
    obtain ⟨more, c, rfl⟩ := (List.eq_nil_or_concat' back).resolve_left hBack
    rw [← List.append_assoc] at hText
    exact ⟨more, (List.append_inj' hText rfl).1.symm⟩
  have hInside : (k.pass [q]).inside.run front =
      ⟨literalMode q, k.inside.depth, k.inside.resume⟩ := by
    show Automaton.run (k.inside.read q) front = _
    rw [read_openingQuote hq hMode, run_literalText _ _ (hs.of_subset hFront.subset)]
  rw [hInside] at hTop
  have hCode : literalMode q = .code := hTop.1
  unfold literalMode at hCode
  split at hCode <;> cases hCode

end Cursor

/-- What is declared around a literal: the statements in front of it, which may see it, and those
behind it, which depend on the place where it ends. -/
theorem extract_literal {before s : List Char} (behind : List Char) (file : String)
    (hMode : (Automaton.run {} (dropMark before)).mode = .code ∨
      (Automaton.run {} (dropMark before)).mode = .slash) (hs : IsLiteralText q s) :
    extract (String.ofList (before ++ literal q s ++ behind)) file =
      Cursor.statements file {} (dropMark before) (literal q s ++ behind) ++
        Cursor.statements file
          ⟨Position.pass (Position.pass {} (dropMark before)) (literal q s),
            ⟨.code, (Automaton.run {} (dropMark before)).depth,
              (Automaton.run {} (dropMark before)).resume⟩, false⟩ behind [] := by
  have hText : dropMark (before ++ literal q s ++ behind) =
      dropMark before ++ (literal q s ++ behind) := by
    cases before with
    | nil => rcases hq with rfl | rfl | rfl <;> rfl
    | cons c before => rw [List.append_assoc, dropMark_append (List.cons_ne_nil _ _)]
  have hInside : (({} : Cursor).pass (dropMark before)).inside =
      Automaton.run {} (dropMark before) := Cursor.inside_pass _ _
  rw [← hInside] at hMode
  rw [extract_eq, String.toList_ofList, hText, Cursor.statements_append, Cursor.statements_append,
    Cursor.statements_literal hq hMode hs file (Cursor.sound_start.pass _),
    Cursor.pass_literal hq hMode hs, hInside, Cursor.position_pass, List.append_nil,
    List.nil_append]

/-! ## Statements that see a literal -/

omit hq in
/-- Within a literal a list goes on to the closing quote. -/
theorem bindings_literalText (hEscape : q ≠ '\\') (depth : Nat) {s rest first : List Char}
    {more : List (List Char)} (hs : IsLiteralText q s)
    (hRest : bindings ⟨depth, none, false⟩ rest = first :: more) :
    bindings ⟨depth, some q, false⟩ (s ++ q :: rest) = (s ++ q :: first) :: more := by
  induction s with
  | nil =>
    have hClose : BindingState.stepLiteral ⟨depth, some q, false⟩ q q = ⟨depth, none, false⟩ := by
      simp [BindingState.stepLiteral, hEscape]
    simp only [List.nil_append, bindings, hClose, hRest, consFirst]
  | cons c s ih =>
    have hTail : IsLiteralText q s := hs.of_subset (List.subset_cons_self c s)
    have hQuote : c ≠ q := fun h => hs.noQuote (h ▸ List.mem_cons_self)
    have hPlain : c ≠ '\\' := fun h => hs.noEscape (h ▸ List.mem_cons_self)
    have hStay : BindingState.stepLiteral ⟨depth, some q, false⟩ q c = ⟨depth, some q, false⟩ := by
      simp [BindingState.stepLiteral, hPlain, hQuote]
    simp only [List.cons_append, bindings, hStay, ih hTail, consFirst]

/-- The names behind a literal do not depend on its text. -/
theorem laterNames_literal (depth : Nat) {s : List Char} (hs : IsLiteralText q s)
    (rest : List Char) :
    laterNames ⟨depth, none, false⟩ (q :: (s ++ q :: rest)) =
      laterNames ⟨depth, none, false⟩ rest := by
  obtain ⟨first, more, hRest⟩ := exists_bindings_eq_cons ⟨depth, none, false⟩ rest
  have hText := bindings_literalText (quote_ne hq).2.2.1 depth hs hRest
  have hOpen : bindings ⟨depth, none, false⟩ (q :: (s ++ q :: rest)) =
      consFirst q (bindings ⟨depth, some q, false⟩ (s ++ q :: rest)) := by
    rcases hq with rfl | rfl | rfl <;> rfl
  rw [laterNames, laterNames, hOpen, hText, hRest]
  rfl

theorem isIdle_quote (front rest₁ rest₂ : List Char) :
    isIdle (front ++ q :: rest₁) = isIdle (front ++ q :: rest₂) := by
  obtain ⟨hSlash, hStar, -⟩ := quote_ne hq
  cases front with
  | nil =>
    simp only [isIdle, List.nil_append, List.isEmpty_cons, after?, if_neg (Ne.symm hSlash)]
  | cons a front =>
    cases front with
    | nil =>
      simp only [isIdle, List.cons_append, List.nil_append, List.isEmpty_cons, after?,
        if_neg (Ne.symm hSlash), if_neg (Ne.symm hStar)]
    | cons b front =>
      simp only [isIdle, List.cons_append, List.isEmpty_cons, after?]
      split_ifs <;> rfl

/-- Two statements with the same declarations and lengths differ in their excerpts only. -/
theorem declarationsAt_congr (file : String) (p : Position) (start : List Char)
    {rest₁ rest₂ : List Char}
    (h : declared (trimStart start ++ q :: rest₁) = declared (trimStart start ++ q :: rest₂)) :
    (declarationsAt file p (start ++ q :: rest₁)).map Occurrence.withoutContext =
      (declarationsAt file p (start ++ q :: rest₂)).map Occurrence.withoutContext := by
  have hStop := isStop_quote hq
  simp only [declarationsAt, trimStart_stop hStop, isIdle_quote hq _ rest₁ rest₂, h,
    List.length_append, List.length_cons, Nat.add_sub_add_right]
  split
  · rfl
  · rw [List.map_map, List.map_map]
    rfl

theorem lineOf_literal {back s : List Char} (hBack : '\n' ∉ back) (hs : IsLiteralText q s)
    (behind : List Char) :
    lineOf (back ++ (literal q s ++ behind)) = back ++ q :: (s ++ q :: lineOf behind) := by
  obtain ⟨-, -, -, hBreak, hReturn⟩ := quote_ne hq
  have hFront : '\n' ∉ back ++ q :: s := by
    simp [hBack, hs.noBreak, Ne.symm hBreak]
  have hText : back ++ (literal q s ++ behind) = (back ++ q :: s) ++ q :: behind := by
    simp [literal]
  rw [hText, lineOf_append hFront hBreak, lineOf_cons_plain hBreak (Or.inl hReturn)]
  simp

/-- No statement in front of a literal sees its text. -/
theorem statements_literal_ignore {text s₁ s₂ : List Char} (file : String)
    (hBare : IsBareText text)
    (hMode : (Automaton.run {} text).mode = .code ∨ (Automaton.run {} text).mode = .slash)
    (h₁ : IsLiteralText q s₁) (h₂ : IsLiteralText q s₂) (behind : List Char) :
    (Cursor.statements file {} text (literal q s₁ ++ behind)).map Occurrence.withoutContext =
      (Cursor.statements file {} text (literal q s₂ ++ behind)).map
        Occurrence.withoutContext := by
  have hStop := isStop_quote hq
  refine Cursor.statements_rel
    (fun a b => a.map Occurrence.withoutContext = b.map Occurrence.withoutContext) rfl
    (fun hFirst hSecond => ?_) fun front back hText hFresh => ?_
  · rw [List.map_append, List.map_append, hFirst, hSecond]
  by_cases hBreak : '\n' ∈ back
  · rw [lineOf_append_of_break hBreak, lineOf_append_of_break hBreak]
  · rw [lineOf_literal hq hBreak h₁, lineOf_literal hq hBreak h₂]
    refine declarationsAt_congr hq file _ back ?_
    cases hList : openList? (trimStart back) with
    | none =>
      have hSame := declared_stop_closed hStop hList
      rw [hSame (s₁ ++ q :: lineOf behind), hSame (s₂ ++ q :: lineOf behind)]
    | some t =>
      have hTop : (Automaton.run {} front).AtTop := by
        simpa using Cursor.sound_start.pass front hFresh
      have hAgrees : Automaton.Agrees (Automaton.run {} text) t := by
        rw [hText] at hBare ⊢
        exact agrees_of_openList? hBare hBreak hTop hList
      have hState : ∃ depth, t = ⟨depth, none, false⟩ := by
        generalize Automaton.run {} text = a at hMode hAgrees
        cases hAgrees with
        | code depth => exact ⟨depth, rfl⟩
        | slash depth => exact ⟨depth, rfl⟩
        | quoted => rcases hMode with hMode | hMode <;> cases hMode
        | quotedEscape => rcases hMode with hMode | hMode <;> cases hMode
      obtain ⟨depth, rfl⟩ := hState
      obtain ⟨names, hNames⟩ := declared_stop_open hStop hList
      rw [hNames, hNames, laterNames_literal hq depth h₁, laterNames_literal hq depth h₂]

end Literal

/-- Outside strings, a text without comments and templates ends in code. -/
theorem mode_of_bare {text : List Char} (hBare : IsBareText text)
    (hOutside : ∀ quote, (nestingBehind text).region ≠ .quoted quote) :
    (Automaton.run {} text).mode = .code ∨ (Automaton.run {} text).mode = .slash := by
  have hRun := Automaton.isBare_run hBare
  rw [nestingBehind_eq] at hOutside
  generalize Automaton.run {} text = a at hRun hOutside
  cases hRun with
  | code => exact Or.inl rfl
  | slash => exact Or.inr rfl
  | quoted quote => exact absurd rfl (hOutside quote)
  | quotedEscape quote => exact absurd rfl (hOutside quote)

/-- **The text of a literal is ignored.** Behind a text without comments and templates whose last
line ends outside strings, a literal may hold anything of one length, and whatever follows, the
extraction is the same but for the excerpts. -/
theorem literal_text_ignored {q : Char} {before s₁ s₂ : List Char} (behind : List Char)
    (file : String) (hq : IsQuote q) (hBare : IsBareText before)
    (hOutside : ∀ quote, (nestingBehind (dropMark before)).region ≠ .quoted quote)
    (hLength : s₁.length = s₂.length) (h₁ : IsLiteralText q s₁) (h₂ : IsLiteralText q s₂) :
    (extract (String.ofList (before ++ literal q s₁ ++ behind)) file).map
        Occurrence.withoutContext =
      (extract (String.ofList (before ++ literal q s₂ ++ behind)) file).map
        Occurrence.withoutContext := by
  have hText : IsBareText (dropMark before) := hBare.of_infix (dropMark_suffix before).isInfix
  have hMode := mode_of_bare hText hOutside
  rw [extract_literal hq behind file hMode h₁, extract_literal hq behind file hMode h₂,
    position_pass_literal _ (quote_ne hq).2.2.2.1 hLength h₁ h₂, List.map_append, List.map_append,
    statements_literal_ignore hq file hText hMode h₁ h₂ behind]

/-- In an open list, at the top level, a string may hold a comma, a bracket, a semicolon, a
keyword and the front of a comment. -/
theorem string_ignored_in_list :
    let before := "f(); const a = ".toList
    let s₁ := ", b = (; let /*".toList
    let s₂ := "               ".toList
    IsQuote '"' ∧ IsBareText before ∧ IsLiteralText '"' s₁ ∧ IsLiteralText '"' s₂ ∧
      (extract (String.ofList (before ++ literal '"' s₁ ++ ", c".toList)) "a.ts").map
          Occurrence.withoutContext =
        (extract (String.ofList (before ++ literal '"' s₂ ++ ", c".toList)) "a.ts").map
          Occurrence.withoutContext := by
  have hQuote : IsQuote '"' := by decide
  have hBare : IsBareText "f(); const a = ".toList := .of_noSlash (by decide) (by decide)
  have hOutside : ∀ quote,
      (nestingBehind (dropMark "f(); const a = ".toList)).region ≠ .quoted quote := by
    have hCode : (nestingBehind (dropMark "f(); const a = ".toList)).region = .code := by decide
    rw [hCode]
    exact fun _ => Region.noConfusion
  have h₁ : IsLiteralText '"' ", b = (; let /*".toList :=
    ⟨by decide, by decide, by decide, by decide⟩
  have h₂ : IsLiteralText '"' "               ".toList :=
    ⟨by decide, by decide, by decide, by decide⟩
  exact ⟨hQuote, hBare, h₁, h₂,
    literal_text_ignored ", c".toList "a.ts" hQuote hBare hOutside (by decide) h₁ h₂⟩

end Homonym.Source
