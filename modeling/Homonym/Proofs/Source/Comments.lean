import Homonym.Proofs.Source.Nested
import Homonym.Proofs.Source.OpenList

/-!
# The text of comments

A comment should not count, whatever it says. The nesting is tracked so: behind a comment the scan
goes on as it was before (`Cursor.pass_wrap`), and no statement begins within one
(`Cursor.statements_wrap`). But a list of bindings is divided without regard to comments. So a
comment on the line of a `const` statement may declare names of its own.

`comment_text_ignored_iff` says exactly when the text of a comment is ignored: if no statement on
its line leaves a list of bindings open in front of it. Two extractions are compared without the
excerpts of their lines (`Occurrence.withoutContext`), as these show the comments.
-/

namespace Homonym

/-- An occurrence without the excerpt of its line. -/
def Occurrence.withoutContext (o : Occurrence) : Occurrence :=
  { o with context := none }

namespace Source

open Text

/-! ## Comments in a pass -/

/-- The two forms of comments. -/
inductive CommentForm where
  | line
  | block

/-- What may be said in a comment of either form. -/
def IsCommentText (s : List Char) : Prop :=
  '\n' ∉ s ∧ ¬ ['*', '/'] <:+: s

theorem IsCommentText.of_noSlash {s : List Char} (hBreak : '\n' ∉ s) (hSlash : '/' ∉ s) :
    IsCommentText s :=
  ⟨hBreak, fun hEnd => hSlash (hEnd.subset (List.mem_cons_of_mem _ List.mem_cons_self))⟩

namespace CommentForm

def mark : CommentForm → Char
  | .line => '/'
  | .block => '*'

/-- What ends a comment, but for the last character. -/
def lead : CommentForm → List Char
  | .line => []
  | .block => ['*']

def last : CommentForm → Char
  | .line => '\n'
  | .block => '/'

/-- A comment with the given text. -/
def wrap (form : CommentForm) (s : List Char) : List Char :=
  '/' :: form.mark :: (s ++ form.lead ++ [form.last])

def inner : CommentForm → Mode
  | .line => .lineComment
  | .block => .blockComment

/-- The mode in front of the last character of a comment. -/
def outer : CommentForm → Mode
  | .line => .lineComment
  | .block => .star

theorem run_front (form : CommentForm) (depth : Nat) (resume : List Nat) (s : List Char) :
    Automaton.run ⟨.code, depth, resume⟩ ('/' :: form.mark :: s) =
      Automaton.run ⟨form.inner, depth, resume⟩ s := by
  cases form <;> rfl

theorem mode_ne_code (form : CommentForm) (depth : Nat) (resume : List Nat) {s front : List Char}
    (hs : IsCommentText s) (hFront : front <+: s ++ form.lead) :
    (Automaton.run ⟨form.inner, depth, resume⟩ front).mode ≠ .code := by
  cases form with
  | line =>
    have hBreak : '\n' ∉ front := fun hMem => hs.1 (by simpa [lead] using hFront.subset hMem)
    rw [inner, (Automaton.leads_lineComment depth resume hBreak).run_eq]
    exact Mode.noConfusion
  | block =>
    have hOpen : ¬ ['*', '/'] <:+: front := by
      intro hEnd
      rcases List.infix_concat_iff.1 (hEnd.trans hFront.isInfix) with hSuffix | hInfix
      · obtain ⟨more, hMore⟩ := hSuffix
        have hLast := congrArg List.getLast? hMore
        simp at hLast
      · exact hs.2 hInfix
    obtain ⟨mode, hMode, hLeads⟩ := (Automaton.leads_blockComment depth resume front).1 hOpen
    rw [inner, hLeads.run_eq]
    rcases hMode with rfl | rfl <;> exact Mode.noConfusion

theorem run_body (form : CommentForm) (depth : Nat) (resume : List Nat) {s : List Char}
    (hs : IsCommentText s) :
    Automaton.run ⟨form.inner, depth, resume⟩ (s ++ form.lead) = ⟨form.outer, depth, resume⟩ := by
  cases form with
  | line =>
    rw [lead, List.append_nil]
    exact (Automaton.leads_lineComment depth resume hs.1).run_eq
  | block =>
    obtain ⟨mode, hMode, hLeads⟩ := (Automaton.leads_blockComment depth resume s).1 hs.2
    rw [inner, Automaton.run_append, hLeads.run_eq]
    rcases hMode with rfl | rfl <;> rfl

theorem read_last (form : CommentForm) (depth : Nat) (resume : List Nat) :
    Automaton.read ⟨form.outer, depth, resume⟩ form.last = ⟨.code, depth, resume⟩ ∧
      Automaton.opens ⟨form.outer, depth, resume⟩ form.last = decide (depth = 0) := by
  have hRead : Automaton.read ⟨form.outer, depth, resume⟩ form.last = ⟨.code, depth, resume⟩ := by
    cases form <;> rfl
  have hEnds : Automaton.ends ⟨form.outer, depth, resume⟩ form.last = true := by
    cases form <;> rfl
  refine ⟨hRead, ?_⟩
  rw [Automaton.opens, hEnds, hRead]
  simp [Automaton.AtTop]

/-- On its first line a comment shows its front. -/
theorem lineOf_front (form : CommentForm) (rest : List Char) :
    lineOf ('/' :: form.mark :: rest) = '/' :: form.mark :: lineOf rest := by
  have hMark : form.mark ≠ '\n' ∧ form.mark ≠ '\r' := by cases form <;> decide
  rw [lineOf_cons_plain (by decide) (Or.inl (by decide)),
    lineOf_cons_plain hMark.1 (Or.inl hMark.2)]

theorem declarationsAt_front (form : CommentForm) (file : String) (p : Position)
    (rest : List Char) : declarationsAt file p ('/' :: form.mark :: rest) = [] := by
  cases form <;> rfl

theorem position_pass_wrap (form : CommentForm) (p : Position) {s₁ s₂ : List Char}
    (hLength : s₁.length = s₂.length) (h₁ : IsCommentText s₁) (h₂ : IsCommentText s₂) :
    p.pass (form.wrap s₁) = p.pass (form.wrap s₂) := by
  have hBody : ∀ s, '\n' ∉ s → p.pass (form.wrap s) =
      (Position.mk p.line (p.column + (s.length + 2))).pass (form.lead ++ [form.last]) := by
    intro s hBreak
    have hFront : '\n' ∉ '/' :: form.mark :: s := by cases form <;> simp [mark, hBreak]
    have hWrap : form.wrap s = ('/' :: form.mark :: s) ++ (form.lead ++ [form.last]) := by
      simp only [wrap, List.append_assoc, List.cons_append]
    rw [hWrap, Position.pass_append, Position.pass_of_noBreak _ hFront]
    rfl
  rw [hBody _ h₁.1, hBody _ h₂.1, hLength]

end CommentForm

namespace Cursor

variable {k : Cursor} (hMode : k.inside.mode = .code) {s : List Char} (hs : IsCommentText s)

include hMode hs

/-- Behind a comment the scan goes on as it was, and at the top level with a new statement. -/
theorem pass_wrap (form : CommentForm) :
    k.pass (form.wrap s) =
      ⟨k.position.pass (form.wrap s), k.inside, decide (k.inside.depth = 0)⟩ := by
  obtain ⟨position, ⟨mode, depth, resume⟩, fresh⟩ := k
  obtain rfl : mode = .code := hMode
  have hWrap : form.wrap s = ('/' :: form.mark :: (s ++ form.lead)) ++ [form.last] := rfl
  have hBody := form.run_body depth resume hs
  obtain ⟨hRead, hOpens⟩ := form.read_last depth resume
  rw [hWrap, pass_append, pass_cons, pass_nil, next, inside_pass, position_pass, form.run_front,
    hBody, hRead, hOpens, Position.pass_append]
  rfl

/-- No statement begins in a comment. -/
theorem statements_wrap (form : CommentForm) (file : String) (hk : k.Sound) (behind : List Char) :
    k.statements file (form.wrap s) behind = [] := by
  obtain ⟨position, ⟨mode, depth, resume⟩, fresh⟩ := k
  obtain rfl : mode = .code := hMode
  rw [CommentForm.wrap, statements, List.cons_append, List.cons_append, form.lineOf_front, found,
    form.declarationsAt_front, ite_self, List.nil_append]
  refine statements_eq_nil (hk.pass ['/']) fun front back hText hBack hTop => ?_
  cases front with
  | nil => cases hTop.1
  | cons c front =>
    rw [List.cons_append, List.cons.injEq] at hText
    obtain ⟨rfl, hRest⟩ := hText
    -- What follows the front is not empty, so the front does not reach the end of the comment.
    have hFront : front <+: s ++ form.lead := by
      obtain ⟨more, c, rfl⟩ := (List.eq_nil_or_concat' back).resolve_left hBack
      rw [← List.append_assoc] at hRest
      exact ⟨more, (List.append_inj' hRest rfl).1.symm⟩
    have hRun := form.run_front depth resume front
    rw [Automaton.run_cons] at hRun
    refine form.mode_ne_code depth resume hs hFront ?_
    rw [← hRun]
    exact hTop.1

end Cursor

/-- What is declared around a comment: the statements in front of it, which may see it, and those
behind it, which depend on the place where it ends. -/
theorem extract_wrap (form : CommentForm) {before s : List Char} (behind : List Char)
    (file : String) (hMode : (Automaton.run {} (dropMark before)).mode = .code)
    (hs : IsCommentText s) :
    extract (String.ofList (before ++ form.wrap s ++ behind)) file =
      Cursor.statements file {} (dropMark before) (form.wrap s ++ behind) ++
        Cursor.statements file
          ⟨Position.pass (Position.pass {} (dropMark before)) (form.wrap s),
            Automaton.run {} (dropMark before),
            decide ((Automaton.run {} (dropMark before)).depth = 0)⟩ behind [] := by
  have hText : dropMark (before ++ form.wrap s ++ behind) =
      dropMark before ++ (form.wrap s ++ behind) := by
    cases before with
    | nil => rfl
    | cons c before => rw [List.append_assoc, dropMark_append (List.cons_ne_nil _ _)]
  have hInside : (({} : Cursor).pass (dropMark before)).inside =
      Automaton.run {} (dropMark before) := Cursor.inside_pass _ _
  rw [extract_eq, String.toList_ofList, hText, Cursor.statements_append, Cursor.statements_append,
    Cursor.statements_wrap (hInside ▸ hMode) hs form file (Cursor.sound_start.pass _),
    Cursor.pass_wrap (hInside ▸ hMode) hs form, hInside, Cursor.position_pass, List.append_nil,
    List.nil_append]

/-! ## Statements that see a comment -/

/-- Whether a text is no statement is seen from its first two characters. -/
theorem isIdle_append (front : List Char) (c d : Char) (rest : List Char) :
    isIdle (front ++ c :: d :: rest) = isIdle (front ++ [c, d]) := by
  have hTwo : ∀ a b (tail : List Char), isIdle (a :: b :: tail) = isIdle [a, b] := by
    intro a b tail
    simp only [isIdle, after?, List.isEmpty_cons]
    split_ifs <;> rfl
  cases front with
  | nil => exact hTwo c d rest
  | cons a front =>
    cases front with
    | nil =>
      rw [List.cons_append, List.nil_append, hTwo, ← hTwo a c [d]]
      rfl
    | cons b front =>
      rw [List.cons_append, List.cons_append, hTwo, ← hTwo a b]
      rfl

theorem isIdle_of_openList? {statement : List Char} {t : BindingState}
    (h : openList? statement = some t) (rest : List Char) :
    isIdle (statement ++ rest) = false := by
  cases statement with
  | nil => cases h
  | cons c statement =>
    have hSlash : '/' ≠ c := by
      rintro rfl
      rw [openList?_stop_eq_none (by decide)] at h
      cases h
    simp only [isIdle, List.cons_append, List.isEmpty_cons, after?, if_neg hSlash,
      Option.isSome_none, Bool.or_self]

/-- Some statement on the last line of a text leaves a list of bindings open. -/
def leavesListOpen (text : List Char) : Bool :=
  (startsBehind text).any fun start => (openList? (trimStart start)).isSome

section Declarations

variable (file : String) (p : Position) (c : Char) {start : List Char}

theorem declarationsAt_closed (h : openList? (trimStart start) = none) (rest₁ rest₂ : List Char) :
    (declarationsAt file p (start ++ '/' :: c :: rest₁)).map Occurrence.withoutContext =
      (declarationsAt file p (start ++ '/' :: c :: rest₂)).map Occurrence.withoutContext := by
  have hSame : ∀ rest, (declarationsAt file p (start ++ '/' :: c :: rest)).map
      Occurrence.withoutContext =
        if isIdle (trimStart start ++ ['/', c]) then []
        else (declared (trimStart start ++ ['/'])).2.map fun d =>
          { name := String.ofList d.2
            kind := d.1
            file
            line := p.line
            column := p.column + (start.length - (trimStart start).length)
            context := none
            exported := (declared (trimStart start ++ ['/'])).1 } := by
    intro rest
    have hStop : isStop '/' = true := by decide
    simp only [declarationsAt, trimStart_stop hStop, isIdle_append, declared_stop_closed hStop h,
      List.length_append, List.length_cons, Nat.add_sub_add_right]
    split
    · rfl
    · rw [List.map_map]
      rfl
  rw [hSame, hSame]

theorem declarationsAt_open {t : BindingState} (h : openList? (trimStart start) = some t) :
    ∃ n, ∀ rest, (declarationsAt file p (start ++ '/' :: c :: rest)).length =
      n + (laterNames t ('/' :: c :: rest)).length := by
  have hStop : isStop '/' = true := by decide
  obtain ⟨names, hNames⟩ := declared_stop_open hStop h
  refine ⟨names.length, fun rest => ?_⟩
  simp only [declarationsAt, trimStart_stop hStop, isIdle_of_openList? h, hNames, List.length_map,
    List.length_append, Bool.false_eq_true, if_false]

end Declarations

namespace Cursor

variable {file : String} {k : Cursor} {text behind₁ behind₂ : List Char}

/-- A relation that goes along with concatenation holds between two passes over a text if it holds
at every place of it. -/
theorem statements_rel (R : List Occurrence → List Occurrence → Prop) (hNil : R [] [])
    (hAppend : ∀ {a₁ a₂ b₁ b₂}, R a₁ b₁ → R a₂ b₂ → R (a₁ ++ a₂) (b₁ ++ b₂))
    (h : ∀ front back, text = front ++ back → (k.pass front).fresh = true →
      R (declarationsAt file (k.pass front).position (lineOf (back ++ behind₁)))
        (declarationsAt file (k.pass front).position (lineOf (back ++ behind₂)))) :
    R (k.statements file text behind₁) (k.statements file text behind₂) := by
  induction text generalizing k with
  | nil => exact hNil
  | cons c text ih =>
    refine hAppend ?_ (ih fun front back hText hFresh => ?_)
    · cases hFresh : k.fresh with
      | false =>
        simp only [found, hFresh]
        exact hNil
      | true =>
        simp only [found, hFresh]
        exact h [] (c :: text) rfl hFresh
    · exact h (c :: front) back (congrArg (List.cons c) hText) hFresh

theorem statements_length_le
    (h : ∀ front back, text = front ++ back → (k.pass front).fresh = true →
      (declarationsAt file (k.pass front).position (lineOf (back ++ behind₁))).length ≤
        (declarationsAt file (k.pass front).position (lineOf (back ++ behind₂))).length) :
    (k.statements file text behind₁).length ≤ (k.statements file text behind₂).length := by
  refine statements_rel (fun a b => a.length ≤ b.length) (Nat.le_refl 0) (fun h₁ h₂ => ?_) h
  simp only [List.length_append]
  omega

/-- If at every place of a text one pass finds no more than the other, and at some place less, it
finds less in all. -/
theorem statements_length_lt
    (hLe : ∀ front back, text = front ++ back → (k.pass front).fresh = true →
      (declarationsAt file (k.pass front).position (lineOf (back ++ behind₁))).length ≤
        (declarationsAt file (k.pass front).position (lineOf (back ++ behind₂))).length)
    {front back : List Char} (hText : text = front ++ back) (hBack : back ≠ [])
    (hFresh : (k.pass front).fresh = true)
    (hLt : (declarationsAt file (k.pass front).position (lineOf (back ++ behind₁))).length <
      (declarationsAt file (k.pass front).position (lineOf (back ++ behind₂))).length) :
    (k.statements file text behind₁).length < (k.statements file text behind₂).length := by
  have hBefore : (k.statements file front (back ++ behind₁)).length ≤
      (k.statements file front (back ++ behind₂)).length := by
    refine statements_length_le fun start rest hFront hStart => ?_
    have hPlace := hLe start (rest ++ back) (by rw [hText, hFront, List.append_assoc]) hStart
    rwa [List.append_assoc, List.append_assoc] at hPlace
  obtain ⟨c, rest, rfl⟩ := List.exists_cons_of_ne_nil hBack
  have hBehind : (((k.pass front).next c).statements file rest behind₁).length ≤
      (((k.pass front).next c).statements file rest behind₂).length := by
    refine statements_length_le fun start more hRest hStart => ?_
    have hOver : ((k.pass front).next c).pass start = k.pass (front ++ c :: start) := by
      rw [pass_append, pass_cons]
    rw [hOver] at hStart ⊢
    exact hLe (front ++ c :: start) more (by simp [hText, hRest]) hStart
  rw [hText, statements_append, statements_append, List.length_append, List.length_append]
  simp only [statements, found, hFresh, if_true, List.length_append]
  omega

end Cursor

/-! ## When the text of a comment is ignored -/

theorem lineOf_wrap (form : CommentForm) {back : List Char} (hBack : '\n' ∉ back)
    (s behind : List Char) :
    lineOf (back ++ (form.wrap s ++ behind)) =
      back ++ '/' :: form.mark :: lineOf (s ++ form.lead ++ [form.last] ++ behind) := by
  rw [CommentForm.wrap, List.cons_append, lineOf_append hBack (by decide), List.cons_append,
    form.lineOf_front]

/-- A statement with a closed list in front of a comment does not see its text. -/
theorem statements_ignore (form : CommentForm) {text : List Char} (file : String)
    (hClosed : leavesListOpen text = false) (s₁ s₂ behind : List Char) :
    (Cursor.statements file {} text (form.wrap s₁ ++ behind)).map Occurrence.withoutContext =
      (Cursor.statements file {} text (form.wrap s₂ ++ behind)).map Occurrence.withoutContext := by
  refine Cursor.statements_rel
    (fun a b => a.map Occurrence.withoutContext = b.map Occurrence.withoutContext) rfl
    (fun h₁ h₂ => ?_) fun front back hText hFresh => ?_
  · rw [List.map_append, List.map_append, h₁, h₂]
  by_cases hBreak : '\n' ∈ back
  · rw [lineOf_append_of_break hBreak, lineOf_append_of_break hBreak]
  · have hStart : back ∈ startsBehind text := mem_startsBehind.2 ⟨hBreak, front, hText, hFresh⟩
    have hNone : openList? (trimStart back) = none := by
      simpa using List.any_eq_false.1 hClosed back hStart
    rw [lineOf_wrap form hBreak, lineOf_wrap form hBreak]
    exact declarationsAt_closed file _ form.mark hNone _ _

theorem isCommentText_blanks (n : Nat) : IsCommentText (List.replicate n ' ') := by
  refine .of_noSlash (fun hBreak => ?_) fun hSlash => ?_
  · cases List.eq_of_mem_replicate hBreak
  · cases List.eq_of_mem_replicate hSlash

theorem isCommentText_oneMore {t : BindingState} (h : t.Quoted) : IsCommentText (oneMore t) :=
  .of_noSlash (fun hBreak => absurd (mem_oneMore h hBreak) (by decide))
    fun hSlash => absurd (mem_oneMore h hSlash) (by decide)

/-- Blanks in a comment add no name to a list. -/
theorem laterNames_blanks (form : CommentForm) (t : BindingState) (n : Nat) :
    laterNames t ('/' :: form.mark ::
      lineOf (List.replicate n ' ' ++ form.lead ++ [form.last] ++ [])) = [] := by
  have hComma : ',' ∉ '/' :: form.mark ::
      lineOf (List.replicate n ' ' ++ form.lead ++ [form.last] ++ []) := by
    intro hMem
    simp only [List.mem_cons] at hMem
    rcases hMem with hSlash | hMark | hLine
    · cases hSlash
    · cases form <;> cases hMark
    · have hText := (prefix_lineOf _).1.subset hLine
      cases form <;> simp [CommentForm.lead, CommentForm.last, List.mem_replicate] at hText
  rw [laterNames, bindings_tail_eq_nil t hComma, List.filterMap_nil]

/-- The text that goes on with a list stands on one line with the front of its comment. -/
theorem lineOf_oneMore (form : CommentForm) {t : BindingState} (h : t.Quoted) :
    ∃ more, lineOf (oneMore t ++ form.lead ++ [form.last] ++ []) = oneMore t ++ more := by
  have hBreak : '\n' ∉ oneMore t := (isCommentText_oneMore h).1
  cases form with
  | line =>
    have hEnd : LineEnd (oneMore t) ['\n'] := Or.inr ⟨rfl, by simp [oneMore]⟩
    refine ⟨[], ?_⟩
    simpa [CommentForm.lead, CommentForm.last] using lineOf_append_lineEnd hBreak hEnd []
  | block =>
    refine ⟨['*', '/'], ?_⟩
    have hWhole : '\n' ∉ oneMore t ++ ['*', '/'] := by simp [hBreak]
    simpa [CommentForm.lead, CommentForm.last] using lineOf_of_noBreak hWhole

section Last

variable (form : CommentForm) (file : String) (p : Position)

/-- A last comment of blanks lets a statement declare no more than any other does. -/
theorem declarationsAt_blanks_le (back s : List Char) (n : Nat) :
    (declarationsAt file p (lineOf (back ++ (form.wrap (List.replicate n ' ') ++ [])))).length ≤
      (declarationsAt file p (lineOf (back ++ (form.wrap s ++ [])))).length := by
  by_cases hBreak : '\n' ∈ back
  · rw [lineOf_append_of_break hBreak, lineOf_append_of_break hBreak]
  · rw [lineOf_wrap form hBreak, lineOf_wrap form hBreak]
    cases hBack : openList? (trimStart back) with
    | none =>
      have hSame := congrArg List.length (declarationsAt_closed file p form.mark hBack
        (lineOf (List.replicate n ' ' ++ form.lead ++ [form.last] ++ []))
        (lineOf (s ++ form.lead ++ [form.last] ++ [])))
      rw [List.length_map, List.length_map] at hSame
      exact hSame.le
    | some t =>
      obtain ⟨count, hCount⟩ := declarationsAt_open file p form.mark hBack
      rw [hCount, hCount, laterNames_blanks, List.length_nil]
      omega

/-- It lets a list declare less than a comment that goes on with the list. -/
theorem declarationsAt_blanks_lt {start : List Char} (hBreak : '\n' ∉ start) {t : BindingState}
    (hList : openList? (trimStart start) = some t) (n : Nat) :
    (declarationsAt file p (lineOf (start ++ (form.wrap (List.replicate n ' ') ++ [])))).length <
      (declarationsAt file p (lineOf (start ++ (form.wrap (oneMore t) ++ [])))).length := by
  have hQuoted : t.Quoted := quoted_of_openList? hList
  have hMark : form.mark = '/' ∨ form.mark = '*' := by cases form <;> simp [CommentForm.mark]
  obtain ⟨count, hCount⟩ := declarationsAt_open file p form.mark hList
  obtain ⟨more, hLine⟩ := lineOf_oneMore form hQuoted
  have hName := mem_laterNames_oneMore hQuoted hMark more
  rw [lineOf_wrap form hBreak, lineOf_wrap form hBreak, hCount, hCount, laterNames_blanks, hLine,
    List.length_nil]
  exact Nat.add_lt_add_left (List.length_pos_of_mem hName) count

end Last

/-- A statement with an open list in front of a comment sees its text. -/
theorem statements_heed (form : CommentForm) {text : List Char} (file : String)
    (hOpen : leavesListOpen text = true) :
    ∃ s₁ s₂, s₁.length = s₂.length ∧ IsCommentText s₁ ∧ IsCommentText s₂ ∧
      (Cursor.statements file {} text (form.wrap s₁ ++ [])).length <
        (Cursor.statements file {} text (form.wrap s₂ ++ [])).length := by
  obtain ⟨start, hMem, hSome⟩ := List.any_eq_true.1 hOpen
  obtain ⟨t, hList⟩ := Option.isSome_iff_exists.1 hSome
  obtain ⟨hBreak, front, hText, hFresh⟩ := mem_startsBehind.1 hMem
  have hStart : start ≠ [] := by
    rintro rfl
    cases hList
  refine ⟨List.replicate (oneMore t).length ' ', oneMore t, List.length_replicate,
    isCommentText_blanks _, isCommentText_oneMore (quoted_of_openList? hList), ?_⟩
  refine Cursor.statements_length_lt (fun front back _ _ => ?_) hText hStart hFresh ?_
  · exact declarationsAt_blanks_le form file _ back (oneMore t) _
  · exact declarationsAt_blanks_lt form file _ hBreak hList _

/-- **When the text of a comment is ignored.** Behind a text that ends in code, a comment may say
anything of one length, and whatever follows, the extraction is the same but for the excerpts: this
holds exactly if no statement on the comment's line leaves a list of bindings open before it. -/
theorem comment_text_ignored_iff (form : CommentForm) {before : List Char} (file : String)
    (hRegion : (nestingBehind (dropMark before)).region = .code)
    (hSlash : before.getLast? ≠ some '/') :
    (∀ s₁ s₂ behind : List Char, s₁.length = s₂.length → IsCommentText s₁ → IsCommentText s₂ →
      (extract (String.ofList (before ++ form.wrap s₁ ++ behind)) file).map
          Occurrence.withoutContext =
        (extract (String.ofList (before ++ form.wrap s₂ ++ behind)) file).map
          Occurrence.withoutContext) ↔
      leavesListOpen (dropMark before) = false := by
  have hMode := mode_eq_code hRegion (getLast?_dropMark_ne hSlash)
  constructor
  · intro hIgnored
    refine Bool.eq_false_iff.2 fun hOpen => ?_
    obtain ⟨s₁, s₂, hLength, h₁, h₂, hLess⟩ := statements_heed form file hOpen
    have hSame := congrArg List.length (hIgnored s₁ s₂ [] hLength h₁ h₂)
    rw [extract_wrap form [] file hMode h₁, extract_wrap form [] file hMode h₂,
      form.position_pass_wrap _ hLength h₁ h₂] at hSame
    simp only [List.length_map, List.length_append] at hSame
    omega
  · intro hClosed s₁ s₂ behind hLength h₁ h₂
    rw [extract_wrap form behind file hMode h₁, extract_wrap form behind file hMode h₂,
      form.position_pass_wrap _ hLength h₁ h₂, List.map_append, List.map_append,
      statements_ignore form file hClosed s₁ s₂ behind]

/-- Behind the semicolon of a list, in a bracket, a comment may say anything. -/
theorem comment_ignored_behind_semicolon :
    leavesListOpen (dropMark "let a; f(".toList) = false ∧
      (extract (String.ofList ("let a; f(".toList ++ CommentForm.block.wrap "), b=".toList ++
          ", c)".toList)) "a.ts").map Occurrence.withoutContext =
        (extract (String.ofList ("let a; f(".toList ++ CommentForm.block.wrap "     ".toList ++
          ", c)".toList)) "a.ts").map Occurrence.withoutContext := by
  have hRegion : (nestingBehind (dropMark "let a; f(".toList)).region = .code := by decide
  have hSlash : "let a; f(".toList.getLast? ≠ some '/' := by decide
  have hClosed : leavesListOpen (dropMark "let a; f(".toList) = false := by decide
  have hLength : "), b=".toList.length = "     ".toList.length := by decide
  have h₁ : IsCommentText "), b=".toList := .of_noSlash (by decide) (by decide)
  have h₂ : IsCommentText "     ".toList := .of_noSlash (by decide) (by decide)
  exact ⟨hClosed, (comment_text_ignored_iff .block "a.ts" hRegion hSlash).2 hClosed _ _
    ", c)".toList hLength h₁ h₂⟩

/-- In a list that is open, a comment declares what it says. -/
theorem comment_declares_binding :
    (nestingBehind (dropMark "const a = 1 ".toList)).region = .code ∧
      "const a = 1 ".toList.getLast? ≠ some '/' ∧
      " x, b = 2".toList.length = "         ".toList.length ∧
      IsCommentText " x, b = 2".toList ∧ IsCommentText "         ".toList ∧
      (extract (String.ofList ("const a = 1 ".toList ++ CommentForm.line.wrap " x, b = 2".toList))
          "a.ts").map Occurrence.withoutContext ≠
        (extract (String.ofList ("const a = 1 ".toList ++ CommentForm.line.wrap "         ".toList))
          "a.ts").map Occurrence.withoutContext := by
  have hFound : ∀ text, extract (String.ofList text) "a.ts" =
      extractLines "a.ts" 1 {} (lines (dropMark text)) := fun text => by
    rw [extract, String.toList_ofList]
  refine ⟨by decide, by decide, by decide, .of_noSlash (by decide) (by decide),
    .of_noSlash (by decide) (by decide), fun hSame => ?_⟩
  have hCount := congrArg List.length hSame
  rw [List.length_map, List.length_map, hFound, hFound] at hCount
  exact absurd hCount (by decide)

end Source

end Homonym
