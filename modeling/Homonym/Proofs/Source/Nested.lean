import Homonym.Proofs.Source.Cut

/-!
# Nested text is invisible

`Enclosed` says by a grammar which texts are well formed within code: plain characters, strings,
comments, matched brackets and templates, whose substitutions hold such text again. Read at a depth
of at least one, a text of this kind leaves no trace. The automaton comes back to the state that it
had (`Enclosed.restores`), no statement begins in the text, and what is declared behind it does not
change if the text is painted over with blanks (`nested_text_invisible`).

A brace that closes a block must not be taken for one that closes a substitution. So the induction
over the grammar goes along with an invariant: no substitution that is still open has begun deeper
than the present depth (`Automaton.Within`).
-/

namespace Homonym.Source

open Text

/-! ## The grammar of nested text -/

/-- What may stand between the quotes of a string. -/
inductive QuotedBody (quote : Char) : List Char → Prop where
  | nil : QuotedBody quote []
  | plain {c : Char} {rest : List Char} (hQuote : c ≠ quote) (hEscape : c ≠ '\\')
      (hBreak : c ≠ '\n') (hRest : QuotedBody quote rest) : QuotedBody quote (c :: rest)
  | escape {c : Char} {rest : List Char} (hBreak : c ≠ '\n') (hRest : QuotedBody quote rest) :
      QuotedBody quote ('\\' :: c :: rest)

/-- Where a piece of text stands. -/
inductive Place where
  | code
  | template

/-- Well-formed text of code, or of a template literal between its backticks. -/
inductive Enclosed : Place → List Char → Prop where
  | nil : Enclosed .code []
  | append {front back : List Char} (hFront : Enclosed .code front) (hBack : Enclosed .code back) :
      Enclosed .code (front ++ back)
  | plain {c : Char} (hc : Automaton.isPlain c = true) : Enclosed .code [c]
  | quoted {quote : Char} {body : List Char} (hQuote : quote = '\'' ∨ quote = '"')
      (hBody : QuotedBody quote body) : Enclosed .code (quote :: (body ++ [quote]))
  | lineComment {body : List Char} (hBody : '\n' ∉ body) :
      Enclosed .code ('/' :: '/' :: (body ++ ['\n']))
  | blockComment {body : List Char} (hBody : ¬ ['*', '/'] <:+: body) :
      Enclosed .code ('/' :: '*' :: (body ++ ['*', '/']))
  | round {body : List Char} (hBody : Enclosed .code body) : Enclosed .code ('(' :: (body ++ [')']))
  | square {body : List Char} (hBody : Enclosed .code body) :
      Enclosed .code ('[' :: (body ++ [']']))
  | curly {body : List Char} (hBody : Enclosed .code body) :
      Enclosed .code ('\x7b' :: (body ++ ['\x7d']))
  | backtick {body : List Char} (hBody : Enclosed .template body) :
      Enclosed .code ('\x60' :: (body ++ ['\x60']))
  | templateNil : Enclosed .template []
  | templatePlain {c : Char} {rest : List Char} (hTick : c ≠ '\x60') (hEscape : c ≠ '\\')
      (hDollar : c = '$' → rest.head? ≠ some '\x7b') (hRest : Enclosed .template rest) :
      Enclosed .template (c :: rest)
  | templateEscape (c : Char) {rest : List Char} (hRest : Enclosed .template rest) :
      Enclosed .template ('\\' :: c :: rest)
  | substitution {body rest : List Char} (hBody : Enclosed .code body)
      (hRest : Enclosed .template rest) :
      Enclosed .template ('$' :: '\x7b' :: (body ++ '\x7d' :: rest))

/-! ## Runs that stay deep -/

namespace Automaton

/-- The text leads from one state to another, and on the way the depth does not fall below `n`. -/
structure Leads (n : Nat) (a : Automaton) (text : List Char) (b : Automaton) : Prop where
  run_eq : a.run text = b
  deep : ∀ front, front <+: text → n ≤ (a.run front).depth

namespace Leads

variable {n : Nat} {a b : Automaton} {c : Char} {text : List Char}

theorem refl (h : n ≤ a.depth) : Leads n a [] a := by
  refine ⟨rfl, fun front hFront => ?_⟩
  rw [List.prefix_nil.1 hFront]
  exact h

theorem cons {a' : Automaton} (h : n ≤ a.depth) (hRead : a.read c = a')
    (hRest : Leads n a' text b) : Leads n a (c :: text) b := by
  subst hRead
  refine ⟨hRest.run_eq, fun front hFront => ?_⟩
  cases front with
  | nil => exact h
  | cons d front =>
    obtain ⟨rfl, hTail⟩ := List.cons_prefix_cons.1 hFront
    exact hRest.deep front hTail

theorem single (h : n ≤ a.depth) (hRead : a.read c = b) (hb : n ≤ b.depth) : Leads n a [c] b :=
  .cons h hRead (.refl hb)

theorem trans {text' : List Char} {b' : Automaton} (h : Leads n a text b)
    (h' : Leads n b text' b') : Leads n a (text ++ text') b' := by
  refine ⟨by rw [run_append, h.run_eq, h'.run_eq], fun front hFront => ?_⟩
  rcases List.prefix_or_prefix_of_prefix hFront (List.prefix_append text text') with
    hShort | ⟨more, rfl⟩
  · exact h.deep front hShort
  · rw [run_append, h.run_eq]
    exact h'.deep more ((List.prefix_append_right_inj text).1 hFront)

theorem mono {m : Nat} (hm : m ≤ n) (h : Leads n a text b) : Leads m a text b :=
  ⟨h.run_eq, fun front hFront => hm.trans (h.deep front hFront)⟩

/-- Only the first character sees the state that a run begins in. -/
theorem congr {a' : Automaton} (h : Leads n a (c :: text) b) (hDepth : a'.depth = a.depth)
    (hRead : a'.read c = a.read c) : Leads n a' (c :: text) b := by
  refine ⟨by rw [run_cons, hRead]; exact h.run_eq, fun front hFront => ?_⟩
  cases front with
  | nil => exact hDepth ▸ h.deep [] List.nil_prefix
  | cons d front =>
    obtain ⟨rfl, _⟩ := List.cons_prefix_cons.1 hFront
    rw [run_cons, hRead]
    exact h.deep (d :: front) hFront

end Leads

/-- No open substitution began deeper than the present depth. -/
def Within (a : Automaton) : Prop :=
  ∀ n ∈ a.resume, n ≤ a.depth

theorem leads_quotedBody {quote : Char} (depth : Nat) (resume : List Nat) {body : List Char}
    (h : QuotedBody quote body) :
    Leads depth ⟨.quoted quote, depth, resume⟩ body ⟨.quoted quote, depth, resume⟩ := by
  induction h with
  | nil => exact .refl le_rfl
  | @plain c rest hQuote hEscape hBreak _ ih =>
    have hRead : read ⟨.quoted quote, depth, resume⟩ c = ⟨.quoted quote, depth, resume⟩ := by
      simp only [read, if_neg hBreak, if_neg hEscape, if_neg hQuote]
    exact .cons le_rfl hRead ih
  | @escape c rest hBreak _ ih =>
    have hRead : read ⟨.quotedEscape quote, depth, resume⟩ c = ⟨.quoted quote, depth, resume⟩ :=
      if_neg hBreak
    exact .cons le_rfl rfl (.cons le_rfl hRead ih)

theorem leads_lineComment (depth : Nat) (resume : List Nat) {body : List Char} (h : '\n' ∉ body) :
    Leads depth ⟨.lineComment, depth, resume⟩ body ⟨.lineComment, depth, resume⟩ := by
  induction body with
  | nil => exact .refl le_rfl
  | cons c body ih =>
    simp only [List.mem_cons, not_or] at h
    exact .cons le_rfl (if_neg (Ne.symm h.1)) (ih h.2)

/-- A block comment is left at the first `*/` only. -/
theorem leads_blockComment (depth : Nat) (resume : List Nat) (body : List Char) :
    (¬ ['*', '/'] <:+: body → ∃ mode, (mode = .blockComment ∨ mode = .star) ∧
      Leads depth ⟨.blockComment, depth, resume⟩ body ⟨mode, depth, resume⟩) ∧
    (¬ ['*', '/'] <:+: '*' :: body → ∃ mode, (mode = .blockComment ∨ mode = .star) ∧
      Leads depth ⟨.star, depth, resume⟩ body ⟨mode, depth, resume⟩) := by
  induction body with
  | nil =>
    exact ⟨fun _ => ⟨_, Or.inl rfl, .refl le_rfl⟩, fun _ => ⟨_, Or.inr rfl, .refl le_rfl⟩⟩
  | cons c body ih =>
    have hTail : ¬ ['*', '/'] <:+: c :: body → ¬ ['*', '/'] <:+: body := fun h hBody =>
      h (hBody.trans (List.suffix_cons c body).isInfix)
    by_cases hStar : c = '*'
    · subst hStar
      constructor
      · intro h
        obtain ⟨mode, hMode, hLeads⟩ := ih.2 h
        exact ⟨mode, hMode, .cons le_rfl rfl hLeads⟩
      · intro h
        obtain ⟨mode, hMode, hLeads⟩ := ih.2 fun hBody =>
          h (hBody.trans (List.suffix_cons '*' ('*' :: body)).isInfix)
        exact ⟨mode, hMode, .cons le_rfl rfl hLeads⟩
    · constructor
      · intro h
        obtain ⟨mode, hMode, hLeads⟩ := ih.1 (hTail h)
        have hRead : read ⟨.blockComment, depth, resume⟩ c = ⟨.blockComment, depth, resume⟩ := by
          simp only [read, readBreak, if_neg hStar, ite_self]
        exact ⟨mode, hMode, .cons le_rfl hRead hLeads⟩
      · intro h
        have hSlash : c ≠ '/' := by
          rintro rfl
          exact h ⟨[], body, rfl⟩
        obtain ⟨mode, hMode, hLeads⟩ := ih.1 (hTail fun hBody =>
          h (hBody.trans (List.suffix_cons '*' (c :: body)).isInfix))
        have hRead : read ⟨.star, depth, resume⟩ c = ⟨.blockComment, depth, resume⟩ := by
          simp only [read, readBreak, if_neg hStar, if_neg hSlash, ite_self]
        exact ⟨mode, hMode, .cons le_rfl hRead hLeads⟩

end Automaton

/-! ## The way back -/

/-- What a well-formed text does to the automaton. -/
def Restores : Place → List Char → Prop
  | .code, text => ∀ depth resume, Automaton.Within ⟨.code, depth, resume⟩ →
      Automaton.Leads depth ⟨.code, depth, resume⟩ text ⟨.code, depth, resume⟩
  | .template, text => ∀ depth resume, Automaton.Within ⟨.template, depth, resume⟩ →
      ∃ mode, (mode = .template ∨ mode = .dollar) ∧
        Automaton.Leads depth ⟨.template, depth, resume⟩ text ⟨mode, depth, resume⟩

/-- A pair of brackets around text that is restored. -/
theorem restores_brackets {body : List Char} {opening closing : Char}
    (hOpen : ∀ depth resume, Automaton.read ⟨.code, depth, resume⟩ opening =
      ⟨.code, depth + 1, resume⟩)
    (hClose : ∀ depth resume, Automaton.Within ⟨.code, depth, resume⟩ →
      Automaton.read ⟨.code, depth + 1, resume⟩ closing = ⟨.code, depth, resume⟩)
    (hBody : Restores .code body) : Restores .code (opening :: (body ++ [closing])) := by
  intro depth resume hWithin
  have hInner : Automaton.Within ⟨.code, depth + 1, resume⟩ := fun n hn =>
    (hWithin n hn).trans (Nat.le_succ depth)
  have hLast : Automaton.Leads depth ⟨.code, depth + 1, resume⟩ [closing] ⟨.code, depth, resume⟩ :=
    .single (Nat.le_succ depth) (hClose depth resume hWithin) le_rfl
  have hInside := (hBody (depth + 1) resume hInner).mono (Nat.le_succ depth)
  exact .cons le_rfl (hOpen depth resume) (hInside.trans hLast)

/-- A dollar sign that no brace follows is as plain as any other character of a template. -/
theorem restores_templatePlain {c : Char} {rest : List Char} (hTick : c ≠ '\x60')
    (hEscape : c ≠ '\\') (hDollar : c = '$' → rest.head? ≠ some '\x7b')
    (hRest : Restores .template rest) : Restores .template (c :: rest) := by
  intro depth resume hWithin
  obtain ⟨mode, hMode, hLeads⟩ := hRest depth resume hWithin
  by_cases hc : c = '$'
  · subst hc
    cases rest with
    | nil => exact ⟨.dollar, Or.inr rfl, .single le_rfl rfl le_rfl⟩
    | cons d rest =>
      have hBrace : d ≠ '\x7b' := fun h => hDollar rfl (by rw [h]; rfl)
      have hRead : Automaton.read ⟨.dollar, depth, resume⟩ d =
          Automaton.read ⟨.template, depth, resume⟩ d :=
        (Automaton.read_of_not_completes (a := ⟨.dollar, depth, resume⟩)
          (beq_false_of_ne hBrace)).1
      have hBehind : Automaton.Leads depth ⟨.dollar, depth, resume⟩ (d :: rest)
          ⟨mode, depth, resume⟩ := hLeads.congr rfl hRead
      exact ⟨mode, hMode, .cons le_rfl rfl hBehind⟩
  · have hRead : Automaton.read ⟨.template, depth, resume⟩ c = ⟨.template, depth, resume⟩ := by
      simp only [Automaton.read, Automaton.readBreak, Automaton.readTemplate, if_neg hTick,
        if_neg hEscape, if_neg hc, ite_self]
    exact ⟨mode, hMode, .cons le_rfl hRead hLeads⟩

theorem restores_substitution {body rest : List Char} (hBody : Restores .code body)
    (hRest : Restores .template rest) :
    Restores .template ('$' :: '\x7b' :: (body ++ '\x7d' :: rest)) := by
  intro depth resume hWithin
  obtain ⟨mode, hMode, hLeads⟩ := hRest depth resume hWithin
  have hInner : Automaton.Within ⟨.code, depth + 1, (depth + 1) :: resume⟩ := by
    intro n hn
    rcases List.mem_cons.1 hn with rfl | hn
    · exact le_rfl
    · exact (hWithin n hn).trans (Nat.le_succ depth)
  have hInside := (hBody (depth + 1) ((depth + 1) :: resume) hInner).mono (Nat.le_succ depth)
  -- The brace meets the depth at which the substitution began.
  have hBrace : Automaton.read ⟨.code, depth + 1, (depth + 1) :: resume⟩ '\x7d' =
      ⟨.template, depth, resume⟩ := by
    show Automaton.readBrace ⟨.code, depth + 1, (depth + 1) :: resume⟩ = _
    exact if_pos rfl
  exact ⟨mode, hMode, .cons le_rfl rfl
    (.cons le_rfl rfl (hInside.trans (.cons (Nat.le_succ depth) hBrace hLeads)))⟩

theorem Enclosed.restores {place : Place} {text : List Char} (h : Enclosed place text) :
    Restores place text := by
  induction h with
  | nil => exact fun _ _ _ => .refl le_rfl
  | append _ _ ihFront ihBack =>
    exact fun depth resume hWithin =>
      (ihFront depth resume hWithin).trans (ihBack depth resume hWithin)
  | plain hc =>
    intro depth resume _
    exact .single le_rfl (Automaton.read_of_isPlain rfl hc) le_rfl
  | quoted hQuote hBody =>
    intro depth resume _
    have hBodyLeads := Automaton.leads_quotedBody depth resume hBody
    rcases hQuote with rfl | rfl
    · exact .cons le_rfl rfl (hBodyLeads.trans (.single le_rfl rfl le_rfl))
    · exact .cons le_rfl rfl (hBodyLeads.trans (.single le_rfl rfl le_rfl))
  | lineComment hBody =>
    intro depth resume _
    have hBodyLeads := Automaton.leads_lineComment depth resume hBody
    exact .cons le_rfl rfl (.cons le_rfl rfl (hBodyLeads.trans (.single le_rfl rfl le_rfl)))
  | blockComment hBody =>
    intro depth resume _
    obtain ⟨mode, hMode, hBodyLeads⟩ := (Automaton.leads_blockComment depth resume _).1 hBody
    have hEnd : Automaton.Leads depth ⟨mode, depth, resume⟩ ['*', '/'] ⟨.code, depth, resume⟩ := by
      rcases hMode with rfl | rfl
      · exact .cons le_rfl rfl (.single le_rfl rfl le_rfl)
      · exact .cons le_rfl rfl (.single le_rfl rfl le_rfl)
    exact .cons le_rfl rfl (.cons le_rfl rfl (hBodyLeads.trans hEnd))
  | round _ ih => exact restores_brackets (fun _ _ => rfl) (fun _ _ _ => rfl) ih
  | square _ ih => exact restores_brackets (fun _ _ => rfl) (fun _ _ _ => rfl) ih
  | curly _ ih =>
    refine restores_brackets (fun _ _ => rfl) (fun depth resume hWithin => ?_) ih
    -- The brace closes the block, since every open substitution began further out.
    have hBlock : resume.head? ≠ some (depth + 1) := by
      intro hHead
      have := hWithin _ (List.mem_of_mem_head? hHead)
      simp only at this
      omega
    show Automaton.readBrace ⟨.code, depth + 1, resume⟩ = _
    rw [Automaton.readBrace, if_neg hBlock]
    rfl
  | backtick _ ih =>
    intro depth resume hWithin
    obtain ⟨mode, hMode, hBodyLeads⟩ := ih depth resume hWithin
    have hEnd : Automaton.Leads depth ⟨mode, depth, resume⟩ ['\x60'] ⟨.code, depth, resume⟩ := by
      rcases hMode with rfl | rfl <;> exact .single le_rfl rfl le_rfl
    exact .cons le_rfl rfl (hBodyLeads.trans hEnd)
  | templateNil => exact fun depth resume _ => ⟨.template, Or.inl rfl, .refl le_rfl⟩
  | templatePlain hTick hEscape hDollar _ ih =>
    exact restores_templatePlain hTick hEscape hDollar ih
  | templateEscape c _ ih =>
    intro depth resume hWithin
    obtain ⟨mode, hMode, hLeads⟩ := ih depth resume hWithin
    have hRead : Automaton.read ⟨.templateEscape, depth, resume⟩ c =
        ⟨.template, depth, resume⟩ := by
      simp only [Automaton.read, Automaton.readBreak, ite_self]
    exact ⟨mode, hMode, .cons le_rfl rfl (.cons le_rfl hRead hLeads)⟩
  | substitution _ _ ihBody ihRest => exact restores_substitution ihBody ihRest

/-! ## Painting over -/

/-- A blank, or the line feed if it is one. -/
def paint (c : Char) : Char :=
  if c = '\n' then '\n' else ' '

theorem paint_eq_break (c : Char) : paint c = '\n' ↔ c = '\n' := by
  unfold paint
  split <;> simp_all

theorem leads_paint {a : Automaton} (h : a.mode = .code) (text : List Char) :
    Automaton.Leads a.depth a (text.map paint) a := by
  have hPlain : ∀ c ∈ text.map paint, Automaton.isPlain c = true := by
    intro c hc
    obtain ⟨d, -, rfl⟩ := List.mem_map.1 hc
    unfold paint
    split <;> decide
  refine ⟨Automaton.run_of_isPlain h hPlain, fun front hFront => ?_⟩
  rw [Automaton.run_of_isPlain h fun c hc => hPlain c (hFront.subset hc)]

/-- Behind a text that leads back to a state away from the top level, the cursor has moved and
nothing else has changed. -/
theorem pass_of_leads {k : Cursor} (hk : k.Sound) (hDeep : 1 ≤ k.inside.depth) {text : List Char}
    (h : Automaton.Leads k.inside.depth k.inside text k.inside) :
    k.pass text = ⟨k.position.pass text, k.inside, false⟩ := by
  have hInside : (k.pass text).inside = k.inside := by rw [Cursor.inside_pass, h.run_eq]
  have hFresh : (k.pass text).fresh = false := by
    refine Bool.eq_false_iff.2 fun hTrue => ?_
    have hTop := (hk.pass text hTrue).2
    rw [hInside] at hTop
    omega
  show Cursor.mk (k.pass text).position (k.pass text).inside (k.pass text).fresh = _
  rw [Cursor.position_pass, hInside, hFresh]

/-- Such a text holds no statement. -/
theorem statements_of_leads {file : String} {k : Cursor} (hk : k.Sound)
    (hDeep : 1 ≤ k.inside.depth) {text : List Char}
    (h : Automaton.Leads k.inside.depth k.inside text k.inside) (behind : List Char) :
    k.statements file text behind = [] := by
  refine statements_eq_nil hk fun front back hText _ hTop => ?_
  have hFloor := h.deep front ⟨back, hText.symm⟩
  rw [hTop.2] at hFloor
  omega

/-- What is declared around a text that leads back: some declarations in front of it, and others
behind it, which depend only on the state and on the place where it ends. -/
theorem extract_around {x e : List Char} (y : List Char) (file : String) (hx : x ≠ [])
    (hDeep : 1 ≤ (Automaton.run {} (dropMark x)).depth)
    (h : Automaton.Leads (Automaton.run {} (dropMark x)).depth (Automaton.run {} (dropMark x)) e
      (Automaton.run {} (dropMark x))) :
    ∃ before, extract (String.ofList (x ++ e ++ y)) file =
        before ++ Cursor.statements file
          ⟨Position.pass {} (dropMark (x ++ e)), Automaton.run {} (dropMark x), false⟩ y [] ∧
      ∀ o ∈ before, o.position < Position.pass {} (dropMark x) := by
  have hk : (({} : Cursor).pass (dropMark x)).Sound := Cursor.sound_start.pass _
  have hInside : (({} : Cursor).pass (dropMark x)).inside = Automaton.run {} (dropMark x) :=
    Cursor.inside_pass _ _
  rw [← hInside] at hDeep h
  refine ⟨Cursor.statements file {} (dropMark x) (e ++ y), ?_, fun o ho => ?_⟩
  · rw [extract_eq, String.toList_ofList, List.append_assoc, dropMark_append hx,
      Cursor.statements_append, Cursor.statements_append, List.append_nil, List.append_nil,
      statements_of_leads hk hDeep h, List.nil_append, pass_of_leads hk hDeep h,
      dropMark_append hx, Position.pass_append, Cursor.position_pass, hInside]
  · refine position_lt_of_mem Cursor.sound_start (fun hTop => ?_) ho
    have hZero : (Automaton.run {} (dropMark x)).depth = 0 := hTop.2
    rw [hInside] at hDeep
    omega

/-- Behind a place, only what begins there is left. -/
theorem filter_around {file : String} {p q : Position} {a : Automaton} {y : List Char}
    {before : List Occurrence} (hBefore : ∀ o ∈ before, o.position < p) (hpq : p ≤ q) :
    (before ++ Cursor.statements file ⟨q, a, false⟩ y []).filter (q ≤ ·.position) =
      Cursor.statements file ⟨q, a, false⟩ y [] := by
  rw [List.filter_append, List.filter_eq_nil_iff.2, List.nil_append, List.filter_eq_self]
  · intro o ho
    exact decide_eq_true (le_position_of_mem (k := ⟨q, a, false⟩) (fun h => by cases h) ho)
  · intro o ho hAfter
    exact absurd (hBefore o ho) (not_lt.2 (hpq.trans (of_decide_eq_true hAfter)))

/-- **Nested text is invisible.** Let `x` end in code, within a bracket, and let `b` be well formed.
Whatever follows, nothing is declared in `b`, the nesting behind `b` is the one before it, and the
declarations behind `b` are those behind the same text painted over. -/
theorem nested_text_invisible {x b : List Char} (y : List Char) (file : String)
    (hRegion : (nestingBehind (dropMark x)).region = .code)
    (hDepth : 1 ≤ (nestingBehind (dropMark x)).depth)
    (hResume : ∀ n ∈ (nestingBehind (dropMark x)).resume, n ≤ (nestingBehind (dropMark x)).depth)
    (hSlash : x.getLast? ≠ some '/') (hb : Enclosed .code b) :
    let front := Position.pass {} (dropMark x)
    let back := Position.pass {} (dropMark (x ++ b))
    (∀ o ∈ extract (String.ofList (x ++ b ++ y)) file,
      ¬ (front ≤ o.position ∧ o.position < back)) ∧
    nestingBehind (dropMark (x ++ b)) = nestingBehind (dropMark x) ∧
    (extract (String.ofList (x ++ b ++ y)) file).filter (back ≤ ·.position) =
      (extract (String.ofList (x ++ b.map paint ++ y)) file).filter (back ≤ ·.position) := by
  intro front back
  have hMode := mode_eq_code hRegion (getLast?_dropMark_ne hSlash)
  have hx : x ≠ [] := by
    rintro rfl
    exact absurd hDepth (by decide)
  have hPainted : Position.pass {} (dropMark (x ++ b.map paint)) = back := by
    show _ = Position.pass {} (dropMark (x ++ b))
    rw [dropMark_append hx, dropMark_append hx, Position.pass_append, Position.pass_append,
      Position.pass_map _ _ paint_eq_break]
  have hOrder : front ≤ back := by
    show _ ≤ Position.pass {} (dropMark (x ++ b))
    rw [dropMark_append hx, Position.pass_append]
    exact Position.le_pass _ _
  rw [nestingBehind_eq] at hDepth hResume ⊢
  rw [Automaton.depth_nesting] at hDepth
  have hWithin : (Automaton.run {} (dropMark x)).Within := fun n hn => by
    simpa using hResume n (by simpa using hn)
  have hLeads : Automaton.Leads (Automaton.run {} (dropMark x)).depth
      (Automaton.run {} (dropMark x)) b (Automaton.run {} (dropMark x)) := by
    generalize Automaton.run {} (dropMark x) = a at hMode hWithin
    obtain ⟨mode, depth, resume⟩ := a
    obtain rfl : mode = .code := hMode
    exact hb.restores depth resume hWithin
  obtain ⟨before, hExtract, hBefore⟩ := extract_around y file hx hDepth hLeads
  obtain ⟨before', hExtract', hBefore'⟩ := extract_around y file hx hDepth (leads_paint hMode b)
  rw [hPainted] at hExtract'
  refine ⟨fun o ho hInside => ?_, ?_, ?_⟩
  · rw [hExtract] at ho
    rcases List.mem_append.1 ho with hFront | hBack
    · exact absurd (hBefore o hFront) (not_lt.2 hInside.1)
    · have hLater := le_position_of_mem (fun h => by cases h) hBack
      exact absurd hInside.2 (not_lt.2 hLater)
  · rw [nestingBehind_eq, dropMark_append hx, Automaton.run_append, hLeads.run_eq]
  · rw [hExtract, hExtract', filter_around hBefore hOrder, filter_around hBefore' hOrder]

/-- Within a bracket, a template whose substitution holds a quoted bracket, and a line comment. -/
theorem nested_template_invisible :
    let x := ['f', '(']
    let b := ['\x60', '$', '\x7b', '\'', ')', '\'', '\x7d', '\x60', '/', '/', ')', '\n']
    let y := [')', ';', 'l', 'e', 't', ' ', 'a']
    nestingBehind x = ⟨.code, 1, []⟩ ∧ Enclosed .code b ∧
      nestingBehind (x ++ b) = ⟨.code, 1, []⟩ ∧
      (extract (String.ofList (x ++ b ++ y)) "a.ts").filter (⟨2, 1⟩ ≤ ·.position) =
        (extract (String.ofList (x ++ b.map paint ++ y)) "a.ts").filter (⟨2, 1⟩ ≤ ·.position) := by
  have hString : Enclosed .code ['\'', ')', '\''] :=
    .quoted (.inl rfl) (.plain (by decide) (by decide) (by decide) .nil)
  have hTemplate : Enclosed .code ['\x60', '$', '\x7b', '\'', ')', '\'', '\x7d', '\x60'] :=
    .backtick (.substitution hString .templateNil)
  have hComment : Enclosed .code ['/', '/', ')', '\n'] :=
    Enclosed.lineComment (by decide : '\n' ∉ [')'])
  obtain ⟨-, hNesting, hAfter⟩ := nested_text_invisible (x := ['f', '('])
    [')', ';', 'l', 'e', 't', ' ', 'a'] "a.ts" (by decide) (by decide) (by decide) (by decide)
    (hTemplate.append hComment)
  exact ⟨by decide, hTemplate.append hComment, hNesting.trans (by decide), hAfter⟩

end Homonym.Source
