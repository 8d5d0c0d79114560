import Homonym.Proofs.Source.BindingList
import Homonym.Proofs.Source.Grammar
import Homonym.Proofs.Source.LoneStatement

/-!
# Exports without a name

A module may export a class or a function that has no name. `AnonymousExport` says how: `export
default`, then `class` with the clauses of its head and its body, or `function` with its parameters
and its body. Parameters and bodies are texts in which brackets match and strings are closed
(`BodyText`); the automaton comes back from them to the depth at which they began
(`BodyText.leads`), so that no other statement begins in them.

Such a statement should declare nothing. A function does not. But a class is read as the first word
behind `class`, whatever that is, and where the name is missing this may be the word of a clause.
So the class declares nothing exactly if its head has no clause, and is declared as `extends` or
`implements` otherwise (`extract_anonymous`).
-/

namespace Homonym.Source

open Text

/-! ## The grammar -/

/-- Code without comments and templates, in which brackets match and strings are closed. -/
inductive BodyText : List Char → Prop where
  | nil : BodyText []
  | plain {c : Char} {rest : List Char} (hc : Automaton.isPlain c = true) (hRest : BodyText rest) :
      BodyText (c :: rest)
  | slash {rest : List Char} (hAhead : rest.head? ≠ some '/' ∧ rest.head? ≠ some '*')
      (hRest : BodyText rest) : BodyText ('/' :: rest)
  | quoted {quote : Char} {body rest : List Char} (hQuote : quote = '\'' ∨ quote = '"')
      (hBody : QuotedBody quote body) (hRest : BodyText rest) :
      BodyText (quote :: (body ++ quote :: rest))
  | brackets {opening closing : Char} {inner rest : List Char}
      (hPair : BracketPair opening closing) (hInner : BodyText inner) (hRest : BodyText rest) :
      BodyText (opening :: (inner ++ closing :: rest))

/-- A clause of the head of a class: a word and a dotted name. -/
inductive Clause (word : String) : List Char → Prop where
  | intro {before lead name : List Char} (hSome : before ≠ []) (hBefore : AreBlank before)
      (hLead : Keyword word lead) (hName : Dotted name) : Clause word (before ++ (lead ++ name))

/-- The clauses of the head of a class, with the word of the first of them. -/
inductive Heritage : Option String → List Char → Prop where
  | nothing : Heritage none []
  | implementing {text : List Char} (h : Clause "implements" text) :
      Heritage (some "implements") text
  | extending {text rest : List Char} (hExtends : Clause "extends" text)
      (hRest : rest = [] ∨ Clause "implements" rest) : Heritage (some "extends") (text ++ rest)

/-- What may stand between `function` and its parameters: blanks, and a star among them. -/
inductive StarGap : List Char → Prop where
  | blank {blanks : List Char} (h : AreBlank blanks) : StarGap blanks
  | star {before after : List Char} (hBefore : AreBlank before) (hAfter : AreBlank after) :
      StarGap (before ++ '*' :: after)

/-- The export of a class or function without a name. The index is the word of the first clause, if
it is a class with clauses. -/
inductive AnonymousExport : Option String → List Char → Prop where
  | classType {first : Option String} {front₁ front₂ front₃ clauses gap body : List Char}
      (hExport : Keyword "export" front₁) (hDefault : Keyword "default" front₂)
      (hAbstract : Optional "abstract" front₃) (hClauses : Heritage first clauses)
      (hGap : AreBlank gap) (hBody : BodyText body) :
      AnonymousExport first (front₁ ++ (front₂ ++ (front₃ ++
        ("class".toList ++ (clauses ++ gap)))) ++ '\x7b' :: (body ++ ['\x7d']))
  | function {front₁ front₂ front₃ gap parameters between body : List Char}
      (hExport : Keyword "export" front₁) (hDefault : Keyword "default" front₂)
      (hAsync : Optional "async" front₃) (hGap : StarGap gap) (hParameters : BodyText parameters)
      (hBetween : AreBlank between) (hBody : BodyText body) :
      AnonymousExport none (front₁ ++ (front₂ ++ (front₃ ++ ("function".toList ++ gap))) ++
        '(' :: (parameters ++ ')' :: between) ++ '\x7b' :: (body ++ ['\x7d']))

/-! ## Bodies -/

theorem leads_brackets {n depth : Nat} (hn : n ≤ depth) {opening closing : Char}
    (hPair : BracketPair opening closing) {inner : List Char} {mode : Mode}
    (hMode : mode = .code ∨ mode = .slash)
    (hInner : Automaton.Leads (depth + 1) ⟨.code, depth + 1, []⟩ inner ⟨mode, depth + 1, []⟩) :
    Automaton.Leads n ⟨.code, depth, []⟩ (opening :: (inner ++ [closing])) ⟨.code, depth, []⟩ := by
  have hOpen : Automaton.read ⟨.code, depth, []⟩ opening = ⟨.code, depth + 1, []⟩ := by
    cases hPair <;> rfl
  have hClose : Automaton.read ⟨mode, depth + 1, []⟩ closing = ⟨.code, depth, []⟩ := by
    rcases hMode with rfl | rfl <;> cases hPair <;> rfl
  exact .cons hn hOpen ((hInner.mono (by omega)).trans (.single (by simp only; omega) hClose hn))

/-- A body leads back to the depth at which it began, though maybe with a slash just read. -/
theorem BodyText.leads {text : List Char} (h : BodyText text) (depth : Nat) :
    ∃ mode, (mode = .code ∨ mode = .slash) ∧
      Automaton.Leads depth ⟨.code, depth, []⟩ text ⟨mode, depth, []⟩ := by
  induction h generalizing depth with
  | nil => exact ⟨.code, .inl rfl, .refl le_rfl⟩
  | plain hc _ ih =>
    obtain ⟨mode, hMode, hLeads⟩ := ih depth
    exact ⟨mode, hMode, .cons le_rfl (Automaton.read_of_isPlain rfl hc) hLeads⟩
  | @slash rest hAhead _ ih =>
    obtain ⟨mode, hMode, hLeads⟩ := ih depth
    -- What follows does not make the slash begin a comment, so it is read as if in code.
    cases rest with
    | nil => exact ⟨.slash, .inr rfl, .single le_rfl rfl le_rfl⟩
    | cons d rest =>
      have hNot : Automaton.completes ⟨.slash, depth, []⟩ d = false := by
        have hd : d ≠ '/' ∧ d ≠ '*' := by simpa using hAhead
        simp only [Automaton.completes, beq_false_of_ne hd.1, beq_false_of_ne hd.2, Bool.or_self]
      have hRead := (Automaton.read_of_not_completes hNot).1
      have hBehind : Automaton.Leads depth ⟨.slash, depth, []⟩ (d :: rest) ⟨mode, depth, []⟩ :=
        hLeads.congr rfl hRead
      exact ⟨mode, hMode, .cons le_rfl rfl hBehind⟩
  | @quoted quote body rest hQuote hBody _ ih =>
    obtain ⟨mode, hMode, hLeads⟩ := ih depth
    have hBodyLeads := Automaton.leads_quotedBody depth [] hBody
    have hEnd : Automaton.Leads depth ⟨.quoted quote, depth, []⟩ (quote :: rest)
        ⟨mode, depth, []⟩ := by
      rcases hQuote with rfl | rfl <;> exact .cons le_rfl rfl hLeads
    refine ⟨mode, hMode, .cons le_rfl ?_ (hBodyLeads.trans hEnd)⟩
    rcases hQuote with rfl | rfl <;> rfl
  | @brackets opening closing inner rest hPair _ _ ihInner ihRest =>
    obtain ⟨modeInner, hModeInner, hInner⟩ := ihInner (depth + 1)
    obtain ⟨mode, hMode, hRest⟩ := ihRest depth
    have hWhole := (leads_brackets le_rfl hPair hModeInner hInner).trans hRest
    rw [List.cons_append, List.append_assoc, List.singleton_append] at hWhole
    exact ⟨mode, hMode, hWhole⟩

/-- From the top level, no statement begins up to the end of a body. -/
theorem BodyText.starts_eq_nil {body : List Char} (h : BodyText body) :
    Automaton.starts {} ('\x7b' :: body) = [] := by
  obtain ⟨mode, -, hLeads⟩ := h.leads 1
  exact Automaton.starts_cons_eq_nil.2 ⟨rfl, Automaton.starts_of_leads hLeads⟩

/-! ## Heads -/

/-- What the words of a head consist of. -/
def IsHeadChar (c : Char) : Prop :=
  isBlank c = true ∨ ContinuesIdentifier c ∨ c = '.' ∨ c = '*'

theorem isQuiet_of_isHeadChar {c : Char} (h : IsHeadChar c) (hBreak : c ≠ '\n') :
    Automaton.isQuiet c = true := by
  rcases h with hBlank | hName | rfl | rfl
  · exact Automaton.isQuiet_of_isBlank hBlank hBreak
  · exact Automaton.isQuiet_of_continues hName
  · rfl
  · rfl

theorem isHeadChar_of_areBlank {blanks : List Char} (h : AreBlank blanks) :
    ∀ c ∈ blanks, IsHeadChar c :=
  fun c hc => .inl (h c hc)

theorem isHeadChar_of_isIdentifier {name : List Char} (h : IsIdentifier name) :
    ∀ c ∈ name, IsHeadChar c :=
  fun c hc => .inr (.inl (h.continues c hc))

theorem isHeadChar_of_keyword {word : String} (hWord : IsIdentifier word.toList) {front : List Char}
    (h : Keyword word front) : ∀ c ∈ front, IsHeadChar c := by
  obtain ⟨-, hBlanks⟩ := h
  rw [List.forall_mem_append]
  exact ⟨isHeadChar_of_isIdentifier hWord, isHeadChar_of_areBlank hBlanks⟩

theorem isHeadChar_of_optional {word : String} (hWord : IsIdentifier word.toList)
    {front : List Char} (h : Optional word front) : ∀ c ∈ front, IsHeadChar c := by
  cases h with
  | absent => exact List.forall_mem_nil _
  | present h => exact isHeadChar_of_keyword hWord h

theorem Dotted.isHeadChar {name : List Char} (h : Dotted name) : ∀ c ∈ name, IsHeadChar c := by
  induction h with
  | one hName => exact isHeadChar_of_isIdentifier hName
  | more hName _ ih =>
    rw [List.forall_mem_append, List.forall_mem_cons]
    exact ⟨isHeadChar_of_isIdentifier hName, .inr (.inr (.inl rfl)), ih⟩

theorem Clause.isHeadChar {word : String} (hWord : IsIdentifier word.toList) {text : List Char}
    (h : Clause word text) : ∀ c ∈ text, IsHeadChar c := by
  obtain ⟨-, hBefore, hLead, hName⟩ := h
  rw [List.forall_mem_append, List.forall_mem_append]
  exact ⟨isHeadChar_of_areBlank hBefore, isHeadChar_of_keyword hWord hLead, hName.isHeadChar⟩

theorem Heritage.isHeadChar {first : Option String} {text : List Char} (h : Heritage first text) :
    ∀ c ∈ text, IsHeadChar c := by
  have hImplements : IsIdentifier "implements".toList := by decide
  cases h with
  | nothing => exact List.forall_mem_nil _
  | implementing h => exact h.isHeadChar hImplements
  | extending hExtends hRest =>
    rw [List.forall_mem_append]
    refine ⟨hExtends.isHeadChar (by decide), ?_⟩
    rcases hRest with rfl | hRest
    · exact List.forall_mem_nil _
    · exact hRest.isHeadChar hImplements

theorem StarGap.isHeadChar {gap : List Char} (h : StarGap gap) : ∀ c ∈ gap, IsHeadChar c := by
  cases h with
  | blank h => exact isHeadChar_of_areBlank h
  | star hBefore hAfter =>
    rw [List.forall_mem_append, List.forall_mem_cons]
    exact ⟨isHeadChar_of_areBlank hBefore, .inr (.inr (.inr rfl)), isHeadChar_of_areBlank hAfter⟩

/-! ## What is read -/

/-- What the first word of a text leaves to be declared, if it is the word of a form other than that
of a constant. -/
theorem declaredNames_of_begins {kind : Kind} {name? : List Char → Option (List Char)}
    (hMem : (kind, name?) ∈ singleForms) {text : List Char} (h : Begins (leads kind) text)
    (hClear : ∀ word ∈ ["const", "let", "var"], Clear word (leads kind)) :
    declaredNames text = (name? text).toList.map (kind, ·) := by
  have hNone : ∀ word ∈ ["const", "let", "var"], keyword? word text = none :=
    fun word hWord => keyword?_eq_none h (hClear word hWord)
  simp only [List.forall_mem_cons] at hNone
  obtain ⟨hConst, hLet, hVar, -⟩ := hNone
  rw [declaredNames, single?_of_begins hMem h]
  cases name? text with
  | some name => rfl
  | none =>
    simp only [Option.map_none, bindingList?, hConst, hLet, hVar, Option.none_or]
    rfl

theorem namedBy?_brace (word : String) {gap : List Char} (hGap : AreBlank gap) (more : List Char) :
    namedBy? word (word.toList ++ (gap ++ '\x7b' :: more)) = none := by
  have hUnblank : Unblank ('\x7b' :: more) := by
    rintro c ⟨⟩
    rfl
  rw [namedBy?, keyword?, after?_eq_some_iff.2 rfl, Option.bind_some]
  cases gap with
  | nil => rfl
  | cons b gap =>
    obtain ⟨hBlank, hBlanks⟩ := List.forall_mem_cons.1 hGap
    rw [List.cons_append, afterBlanks?, if_pos hBlank, trimStart_append hBlanks hUnblank]
    rfl

theorem namedBy?_clause (word : String) {clause : String} (hClause : IsIdentifier clause.toList)
    {text : List Char} (h : Clause clause text) (more : List Char) :
    namedBy? word (word.toList ++ (text ++ more)) = some clause.toList := by
  obtain ⟨hSome, hBefore, ⟨hGap, hBlanks⟩, -⟩ := h
  rename_i before name blanks
  refine namedBy?_eq_some_iff.2 ⟨word.toList ++ before ++ clause.toList, blanks ++ name ++ more, ?_,
    .intro (.intro hSome hBefore) (hClause.longest_append ?_)⟩
  · simp only [List.append_assoc]
  · obtain ⟨b, blanks, rfl⟩ := List.exists_cons_of_ne_nil hGap
    rintro c ⟨⟩
    exact not_continues_of_isBlank (hBlanks b List.mem_cons_self)

theorem namedBy?_heritage (word : String) {first : Option String} {clauses gap : List Char}
    (h : Heritage first clauses) (hGap : AreBlank gap) (more : List Char) :
    namedBy? word (word.toList ++ (clauses ++ (gap ++ '\x7b' :: more))) =
      first.map String.toList := by
  cases h with
  | nothing => exact namedBy?_brace word hGap more
  | implementing h => exact namedBy?_clause word (by decide) h _
  | extending hExtends _ =>
    rw [List.append_assoc]
    exact namedBy?_clause word (by decide) hExtends _

theorem StarGap.afterStar_eq {gap : List Char} (h : StarGap gap) (more : List Char) :
    afterStar (gap ++ '(' :: more) = '(' :: more := by
  have hRound : Unblank ('(' :: more) := by
    rintro c ⟨⟩
    rfl
  cases h with
  | blank hBlanks =>
    rw [afterStar, trimStart_append hBlanks hRound]
    exact trimStart_of_unblank hRound
  | @star before after hBefore hAfter =>
    have hStar : Unblank ('*' :: (after ++ '(' :: more)) := by
      rintro c ⟨⟩
      rfl
    rw [afterStar, List.append_assoc, List.cons_append, trimStart_append hBefore hStar]
    exact trimStart_append hAfter hRound

theorem functionName?_anonymous {gap : List Char} (h : StarGap gap) (more : List Char) :
    functionName? ("function".toList ++ (gap ++ '(' :: more)) = none := by
  rw [Option.eq_none_iff_forall_ne_some]
  intro name hName
  obtain ⟨after, rest, hText, -, hRead⟩ := functionName?_eq_some_iff_afterStar.1 hName
  obtain rfl := List.append_cancel_left hText
  rw [h.afterStar_eq] at hRead
  cases hRead

theorem declared_exported {front₁ front₂ inner rest : List Char} (h₁ : Keyword "export" front₁)
    (h₂ : Keyword "default" front₂) (hInner : InnerModifiers inner) (hRest : Begins openers rest) :
    (declared (front₁ ++ (front₂ ++ (inner ++ rest)))).2 = declaredNames rest := by
  have hModifiers := modifiers_append (.exported h₁ (.present h₂) hInner) hRest
  rw [List.append_assoc, List.append_assoc] at hModifiers
  rw [declared, hModifiers]

theorem declared_anonymousClass {first : Option String}
    {front₁ front₂ front₃ clauses gap : List Char} (h₁ : Keyword "export" front₁)
    (h₂ : Keyword "default" front₂) (h₃ : Optional "abstract" front₃)
    (hClauses : Heritage first clauses) (hGap : AreBlank gap) (more : List Char) :
    (declared (front₁ ++ (front₂ ++ (front₃ ++ ("class".toList ++ (clauses ++ gap)))) ++
      '\x7b' :: more)).2 = first.toList.map fun word => (.classType, word.toList) := by
  have hInner : InnerModifiers ([] ++ (front₃ ++ [])) := .intro .absent h₃ .absent
  rw [List.nil_append, List.append_nil] at hInner
  have hBegins : Begins ["class"] ("class".toList ++ (clauses ++ (gap ++ '\x7b' :: more))) :=
    ⟨_, List.mem_singleton_self _, List.prefix_append _ _⟩
  have hForm : (Kind.classType, namedBy? "class") ∈ singleForms := by simp [singleForms]
  simp only [List.append_assoc]
  rw [declared_exported h₁ h₂ hInner (hBegins.mono (by decide)),
    declaredNames_of_begins hForm hBegins (by decide), namedBy?_heritage "class" hClauses hGap]
  cases first <;> rfl

theorem declared_anonymousFunction {front₁ front₂ front₃ gap : List Char}
    (h₁ : Keyword "export" front₁) (h₂ : Keyword "default" front₂) (h₃ : Optional "async" front₃)
    (hGap : StarGap gap) (more : List Char) :
    (declared (front₁ ++ (front₂ ++ (front₃ ++ ("function".toList ++ gap))) ++ '(' :: more)).2 =
      [] := by
  have hInner : InnerModifiers front₃ := .intro .absent .absent h₃
  have hBegins : Begins ["function"] ("function".toList ++ (gap ++ '(' :: more)) :=
    ⟨_, List.mem_singleton_self _, List.prefix_append _ _⟩
  have hForm : (Kind.function, functionName?) ∈ singleForms := by simp [singleForms]
  simp only [List.append_assoc]
  rw [declared_exported h₁ h₂ hInner (hBegins.mono (by decide)),
    declaredNames_of_begins hForm hBegins (by decide), functionName?_anonymous hGap]
  rfl

/-! ## The whole statement -/

theorem passes_head {head : List Char} (h : ∀ c ∈ head, IsHeadChar c) (hBreak : '\n' ∉ head) :
    Automaton.starts {} head = [] ∧ Automaton.run {} head = {} := by
  have hQuiet : ∀ c ∈ head, Automaton.isQuiet c = true := by
    intro c hc
    refine isQuiet_of_isHeadChar (h c hc) ?_
    rintro rfl
    exact hBreak hc
  exact ⟨Automaton.starts_of_isQuiet rfl hQuiet,
    Automaton.run_of_isPlain rfl fun c hc => Automaton.isPlain_of_isQuiet (hQuiet c hc)⟩

theorem passes_parameters {parameters between : List Char} (h : BodyText parameters)
    (hBetween : AreBlank between) (hBreak : '\n' ∉ between) :
    Automaton.starts {} ('(' :: (parameters ++ ')' :: between)) = [] ∧
      Automaton.run {} ('(' :: (parameters ++ ')' :: between)) = {} := by
  obtain ⟨mode, hMode, hLeads⟩ := h.leads 1
  obtain ⟨hStarts, hRun⟩ := passes_head (isHeadChar_of_areBlank hBetween) hBreak
  have hClose : Automaton.opens ⟨mode, 1, []⟩ ')' = false ∧
      Automaton.read ⟨mode, 1, []⟩ ')' = {} := by
    rcases hMode with rfl | rfl <;> exact ⟨rfl, rfl⟩
  constructor
  · refine Automaton.starts_cons_eq_nil.2 ⟨rfl, ?_⟩
    refine Automaton.starts_append_eq_nil (Automaton.starts_of_leads hLeads) ?_
    show Automaton.starts (Automaton.run ⟨.code, 1, []⟩ parameters) _ = []
    rw [hLeads.run_eq]
    refine Automaton.starts_cons_eq_nil.2 ⟨hClose.1, ?_⟩
    rw [hClose.2]
    exact hStarts
  · show Automaton.run ⟨.code, 1, []⟩ (parameters ++ ')' :: between) = {}
    rw [Automaton.run_append, hLeads.run_eq, Automaton.run_cons, hClose.2]
    exact hRun

theorem identities_block {head body blanks : List Char} (hExport : Begins ["export"] head)
    (hStarts : Automaton.starts {} head = []) (hRun : Automaton.run {} head = {})
    (hBody : BodyText body) (hBreak : '\n' ∉ head ++ '\x7b' :: (body ++ ['\x7d']))
    (hBlanks : AreBlank blanks) (file : String) :
    ∃ more, (extract (String.ofList (head ++ '\x7b' :: (body ++ ['\x7d']) ++ blanks)) file).map
        Occurrence.identity =
      (declared (head ++ '\x7b' :: more)).2.map fun found => ⟨String.ofList found.2, found.1⟩ := by
  have hFirst : ∃ c ∈ (head ++ '\x7b' :: body).head?, BeginsIdentifier c := by
    obtain ⟨word, hWord, rest, rfl⟩ := hExport
    rw [List.mem_singleton.1 hWord]
    exact ⟨'e', rfl, isIdentifierStart_iff.1 rfl⟩
  have hNoBreak : '\n' ∉ head ++ '\x7b' :: body := by
    intro hMem
    refine hBreak ?_
    rw [← List.cons_append, ← List.append_assoc]
    exact List.mem_append_left _ hMem
  have hAll : Automaton.starts {} (head ++ '\x7b' :: body) = [] := by
    refine Automaton.starts_append_eq_nil hStarts ?_
    rw [hRun]
    exact hBody.starts_eq_nil
  obtain ⟨gap, hFound⟩ := identities_extract hFirst hNoBreak
    (by decide : '\x7d' ≠ '\n' ∧ '\x7d' ≠ '\r') hAll hBlanks file
  refine ⟨body ++ '\x7d' :: gap, ?_⟩
  simp only [List.append_assoc, List.cons_append, List.nil_append] at hFound ⊢
  exact hFound

theorem identities_anonymous {first : Option String} {statement blanks : List Char}
    (h : AnonymousExport first statement) (hBreak : '\n' ∉ statement) (hBlanks : AreBlank blanks)
    (file : String) :
    (extract (String.ofList (statement ++ blanks)) file).map Occurrence.identity =
      first.toList.map (⟨·, .classType⟩) := by
  cases h with
  | @classType _ front₁ front₂ front₃ clauses gap body h₁ h₂ h₃ hClauses hGap hBody =>
    have hHead : ∀ c ∈ front₁ ++ (front₂ ++ (front₃ ++ ("class".toList ++ (clauses ++ gap)))),
        IsHeadChar c := by
      simp only [List.forall_mem_append]
      exact ⟨isHeadChar_of_keyword (by decide) h₁, isHeadChar_of_keyword (by decide) h₂,
        isHeadChar_of_optional (by decide) h₃, isHeadChar_of_isIdentifier (by decide),
        hClauses.isHeadChar, isHeadChar_of_areBlank hGap⟩
    have hHeadBreak := mt (List.mem_append_left _) hBreak
    obtain ⟨hStarts, hRun⟩ := passes_head hHead hHeadBreak
    obtain ⟨more, hFound⟩ :=
      identities_block (h₁.begins _) hStarts hRun hBody hBreak hBlanks file
    rw [hFound, declared_anonymousClass h₁ h₂ h₃ hClauses hGap]
    cases first with
    | none => rfl
    | some word =>
      simp only [Option.toList_some, List.map_cons, List.map_nil, String.ofList_toList]
  | @function front₁ front₂ front₃ gap parameters between body h₁ h₂ h₃ hGap hParameters hBetween
      hBody =>
    have hHead : ∀ c ∈ front₁ ++ (front₂ ++ (front₃ ++ ("function".toList ++ gap))),
        IsHeadChar c := by
      simp only [List.forall_mem_append]
      exact ⟨isHeadChar_of_keyword (by decide) h₁, isHeadChar_of_keyword (by decide) h₂,
        isHeadChar_of_optional (by decide) h₃, isHeadChar_of_isIdentifier (by decide),
        hGap.isHeadChar⟩
    have hBegins : Begins ["export"] (front₁ ++ (front₂ ++ (front₃ ++
        ("function".toList ++ gap))) ++ '(' :: (parameters ++ ')' :: between)) := by
      rw [List.append_assoc]
      exact h₁.begins _
    have hFront := mt (List.mem_append_left ('\x7b' :: (body ++ ['\x7d']))) hBreak
    have hBetweenBreak : '\n' ∉ between := fun hMem =>
      hFront (List.mem_append_right _ (List.mem_cons_of_mem _
        (List.mem_append_right _ (List.mem_cons_of_mem _ hMem))))
    -- Up to the body there are two parts, and the automaton is back at the top after each.
    obtain ⟨hStarts, hRun⟩ := passes_head hHead (mt (List.mem_append_left _) hFront)
    obtain ⟨hStarts', hRun'⟩ := passes_parameters hParameters hBetween hBetweenBreak
    rw [← hRun] at hStarts'
    obtain ⟨more, hFound⟩ := identities_block hBegins
      (Automaton.starts_append_eq_nil hStarts hStarts')
      (by rw [Automaton.run_append, hRun, hRun']) hBody hBreak hBlanks file
    rw [hFound, List.append_assoc _ ('(' :: _), List.cons_append,
      declared_anonymousFunction h₁ h₂ h₃ hGap]
    rfl

/-- The export of a class or function without a name declares nothing, but for the word of its first
clause, which is taken for the name of a class. -/
theorem extract_anonymous {first : Option String} {statement blanks : List Char}
    (h : AnonymousExport first statement) (hBreak : '\n' ∉ statement) (hBlanks : AreBlank blanks)
    (file : String) :
    let found := extract (String.ofList (statement ++ blanks)) file
    found.map Occurrence.identity = first.toList.map (⟨·, .classType⟩) ∧
      (found = [] ↔ first = none) := by
  intro found
  have hAll : found.map Occurrence.identity = first.toList.map (⟨·, .classType⟩) :=
    identities_anonymous h hBreak hBlanks file
  refine ⟨hAll, ?_⟩
  rw [← List.map_eq_nil_iff, hAll, List.map_eq_nil_iff, Option.toList_eq_nil_iff]

/-- A generator with a bracket in a string and a slash behind which a bracket closes. -/
theorem generator_declares_nothing :
    AnonymousExport none "export default async function *(a = ')') \x7bb /[]\x7d".toList ∧
      extract "export default async function *(a = ')') \x7bb /[]\x7d\n" "a.ts" = [] := by
  have hString : BodyText ['\'', ')', '\''] :=
    BodyText.quoted (.inl rfl) (.plain (by decide) (by decide) (by decide) .nil) .nil
  have hParameters : BodyText ('a' :: ' ' :: '=' :: ' ' :: ['\'', ')', '\'']) :=
    .plain rfl (.plain rfl (.plain rfl (.plain rfl hString)))
  have hSquare : BodyText ['[', ']'] := BodyText.brackets .square .nil .nil
  have hBody : BodyText ('b' :: ' ' :: '/' :: ['[', ']']) :=
    .plain rfl (.plain rfl (.slash (by decide) hSquare))
  have hBlank : AreBlank [' '] := by decide
  have hNone : AreBlank [] := by decide
  have hExport := AnonymousExport.function (keyword_space "export") (keyword_space "default")
    (.present (keyword_space "async")) (.star hBlank hNone) hParameters hBlank hBody
  have hText : "export".toList ++ [' '] ++ ("default".toList ++ [' '] ++ ("async".toList ++ [' '] ++
      ("function".toList ++ ([' '] ++ '*' :: [])))) ++
      '(' :: ('a' :: ' ' :: '=' :: ' ' :: ['\'', ')', '\''] ++ ')' :: [' ']) ++
      '\x7b' :: ('b' :: ' ' :: '/' :: ['[', ']'] ++ ['\x7d']) =
      "export default async function *(a = ')') \x7bb /[]\x7d".toList := by decide
  rw [hText] at hExport
  have hLine : AreBlank ['\n'] := by decide
  exact ⟨hExport, (extract_anonymous hExport (by decide) hLine "a.ts").2.2 rfl⟩

/-- A class without a name that extends another one is declared, by the name `extends`. -/
theorem class_named_extends :
    AnonymousExport (some "extends") "export default class extends A \x7b\x7d".toList ∧
      extract "export default class extends A \x7b\x7d" "a.ts" =
        [⟨"extends", .classType, "a.ts", 1, 1, some "export default class extends A \x7b\x7d",
          true⟩] := by
  have hBlank : AreBlank [' '] := by decide
  have hClause : Clause "extends" ([' '] ++ ("extends".toList ++ [' '] ++ ['A'])) :=
    .intro (List.cons_ne_nil _ _) hBlank (keyword_space "extends") (.one (by decide))
  have hExport := AnonymousExport.classType (keyword_space "export") (keyword_space "default")
    .absent (.extending hClause (.inl rfl)) hBlank .nil
  have hText : "export".toList ++ [' '] ++ ("default".toList ++ [' '] ++ ([] ++ ("class".toList ++
      ([' '] ++ ("extends".toList ++ [' '] ++ ['A']) ++ [] ++ [' '])))) ++
      '\x7b' :: ([] ++ ['\x7d']) =
      "export default class extends A \x7b\x7d".toList := by decide
  rw [hText] at hExport
  exact ⟨hExport, by decide⟩

end Homonym.Source
