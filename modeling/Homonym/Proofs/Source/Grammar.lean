import Homonym.Source.Statement
import Homonym.Proofs.Text.Words

/-!
# The grammar of statements

A statement that declares one name consists of modifiers (`Modifiers`), a form that introduces the
name (`Form`), and a rest that is only asked where the name ends. Any modifier may be left out and
any word may be a name, but none of the words of the grammar begins with another one. So the first
word decides what is read next (`modifiers_append`, `FormAt.kind_unique`), and a statement has one
reading at most.

Every form has its reader, and the reader takes what the form allows (`eq_some_iff_formAt`).

Main statement: `declared_eq_iff_declares`. A statement declares a single name that is no binding
exactly when the grammar derives it, with the kind of its form; if the grammar derives nothing, then
only bindings are declared, and only behind `const`, `let` or `var`.
-/

namespace Homonym.Source

open Text

/-! ## Dotted names -/

/-- Identifiers with a full stop between them. -/
inductive Dotted : List Char → Prop where
  | one {name : List Char} (hName : IsIdentifier name) : Dotted name
  | more {name rest : List Char} (hName : IsIdentifier name) (hRest : Dotted rest) :
      Dotted (name ++ '.' :: rest)

theorem Dotted.exists_identifier {name : List Char} (h : Dotted name) :
    ∃ first, IsIdentifier first ∧ first <+: name := by
  cases h with
  | one hName => exact ⟨_, hName, List.prefix_rfl⟩
  | more hName _ => exact ⟨_, hName, List.prefix_append _ _⟩

theorem not_dotted_of_identifier?_eq_none {text name : List Char} (h : identifier? text = none)
    (hName : Dotted name) : ¬name <+: text := by
  intro hPrefix
  obtain ⟨first, ⟨hFirst, -⟩, hInner⟩ := hName.exists_identifier
  obtain ⟨after, rfl⟩ := hInner.trans hPrefix
  rw [List.cons_append, identifier?, if_pos (isIdentifierStart_iff.2 hFirst)] at h
  cases h

theorem not_continuesIdentifier_dot : ¬ContinuesIdentifier '.' := by
  rw [← isIdentifierPart_iff]
  decide

/-- A dotted name at the front ends with the identifier there, or goes on behind it. -/
theorem Dotted.length_le_or {name rest other : List Char}
    (hName : Longest IsIdentifier name (name ++ rest)) (hOther : Dotted other)
    (hPrefix : other <+: name ++ rest) :
    other.length ≤ name.length ∨
      ∃ tail, Dotted tail ∧ other = name ++ '.' :: tail ∧ '.' :: tail <+: rest := by
  cases hOther with
  | one hFirst => exact .inl (hName.length_le _ hFirst hPrefix)
  | @more first tail hFirst hTail =>
    obtain ⟨after, hText⟩ := hPrefix
    rw [List.append_assoc, List.cons_append] at hText
    -- A full stop ends the identifier, so the first part is the longest one too.
    have hLongest : Longest IsIdentifier first (first ++ '.' :: (tail ++ after)) := by
      refine hFirst.longest_append ?_
      rintro c ⟨⟩
      exact not_continuesIdentifier_dot
    rw [hText] at hLongest
    obtain rfl := hLongest.unique hName
    exact .inr ⟨tail, hTail, rfl, after, List.append_cancel_left hText⟩

theorem longest_dotted_one {name rest : List Char}
    (hName : Longest IsIdentifier name (name ++ rest))
    (hRest : ∀ tail, Dotted tail → ¬('.' :: tail <+: rest)) :
    Longest Dotted name (name ++ rest) := by
  refine ⟨.one hName.holds, hName.isPrefix, ?_⟩
  intro other hOther hPrefix
  rcases hOther.length_le_or hName hPrefix with hLe | ⟨tail, hTail, -, hMore⟩
  · exact hLe
  · exact absurd hMore (hRest tail hTail)

theorem longest_dotted_more {name more dotted : List Char}
    (hName : Longest IsIdentifier name (name ++ '.' :: more)) (hMore : Longest Dotted dotted more) :
    Longest Dotted (name ++ '.' :: dotted) (name ++ '.' :: more) := by
  have hCons : '.' :: dotted <+: '.' :: more := List.cons_prefix_cons.2 ⟨rfl, hMore.isPrefix⟩
  refine ⟨.more hName.holds hMore.holds, (List.prefix_append_right_inj name).2 hCons, ?_⟩
  intro other hOther hPrefix
  rcases hOther.length_le_or hName hPrefix with hLe | ⟨tail, hTail, rfl, hInner⟩
  · rw [List.length_append]
    omega
  · have hLe := hMore.length_le tail hTail (List.cons_prefix_cons.1 hInner).2
    simp only [List.length_append, List.length_cons]
    omega

theorem longest_dottedTail {fuel : Nat} {name rest : List Char} (hFuel : rest.length ≤ fuel)
    (hName : Longest IsIdentifier name (name ++ rest)) :
    Longest Dotted (name ++ dottedTail fuel rest) (name ++ rest) := by
  induction fuel generalizing name rest with
  | zero =>
    rw [dottedTail, List.append_nil]
    refine longest_dotted_one hName ?_
    intro tail _ hPrefix
    exact absurd (Nat.le_trans hPrefix.length_le hFuel) (Nat.not_succ_le_zero _)
  | succ fuel ih =>
    rw [dottedTail.eq_def]
    dsimp only
    split
    · rename_i more
      split
      · rename_i next after hNext
        obtain ⟨rfl, hLongest⟩ := identifier?_eq_some_iff.1 hNext
        refine longest_dotted_more hName (ih ?_ hLongest)
        simp only [List.length_cons, List.length_append] at hFuel
        omega
      · rename_i hNone
        rw [List.append_nil]
        refine longest_dotted_one hName ?_
        intro tail hTail hPrefix
        exact not_dotted_of_identifier?_eq_none hNone hTail (List.cons_prefix_cons.1 hPrefix).2
    · rename_i hNoDot
      rw [List.append_nil]
      refine longest_dotted_one hName ?_
      rintro tail - ⟨after, rfl⟩
      exact hNoDot _ rfl

theorem dottedName?_eq_some_iff {text name : List Char} :
    dottedName? text = some name ↔ Longest Dotted name text := by
  have hSound {name : List Char} (h : dottedName? text = some name) : Longest Dotted name text := by
    rw [dottedName?, Option.map_eq_some_iff] at h
    obtain ⟨⟨first, rest⟩, hFirst, rfl⟩ := h
    obtain ⟨rfl, hLongest⟩ := identifier?_eq_some_iff.1 hFirst
    exact longest_dottedTail Nat.le.refl hLongest
  refine ⟨hSound, ?_⟩
  intro hLongest
  cases hRead : dottedName? text with
  | some read => rw [(hSound hRead).unique hLongest]
  | none =>
    have hNone : identifier? text = none := Option.map_eq_none_iff.1 hRead
    exact absurd hLongest.isPrefix (not_dotted_of_identifier?_eq_none hNone hLongest.holds)

/-! ## Modifiers -/

/-- The modifiers behind `export`: each may be left out, but their order is fixed. -/
inductive InnerModifiers : List Char → Prop where
  | intro {front₁ front₂ front₃ : List Char} (hDeclare : Optional "declare" front₁)
      (hAbstract : Optional "abstract" front₂) (hAsync : Optional "async" front₃) :
      InnerModifiers (front₁ ++ (front₂ ++ front₃))

/-- The modifiers of a declaration, exported or not. -/
inductive Modifiers : Bool → List Char → Prop where
  | unexported {inner : List Char} (hInner : InnerModifiers inner) : Modifiers false inner
  | exported {front₁ front₂ inner : List Char} (hExport : Keyword "export" front₁)
      (hDefault : Optional "default" front₂) (hInner : InnerModifiers inner) :
      Modifiers true (front₁ ++ (front₂ ++ inner))

/-- The words that may stand behind the modifiers. -/
def openers : List String :=
  ["function", "class", "interface", "type", "enum", "namespace", "module", "const", "let", "var"]

theorem exists_innerModifiers (text : List Char) :
    ∃ inner, InnerModifiers inner ∧ text = inner ++ modifiers.inner text := by
  obtain ⟨front₁, h₁, hText₁⟩ := exists_optional "declare" text
  obtain ⟨front₂, h₂, hText₂⟩ := exists_optional "abstract" (skipKeyword "declare" text)
  obtain ⟨front₃, h₃, hText₃⟩ :=
    exists_optional "async" (skipKeyword "abstract" (skipKeyword "declare" text))
  refine ⟨_, .intro h₁ h₂ h₃, ?_⟩
  rw [List.append_assoc, List.append_assoc, modifiers.inner, ← hText₃, ← hText₂, ← hText₁]

theorem exists_modifiers (text : List Char) :
    ∃ front, Modifiers (modifiers text).1 front ∧ text = front ++ (modifiers text).2 := by
  cases hExport : keyword? "export" text with
  | none =>
    obtain ⟨inner, hInner, hText⟩ := exists_innerModifiers text
    exact ⟨inner, by rw [modifiers, hExport]; exact .unexported hInner,
      by rw [modifiers, hExport]; exact hText⟩
  | some rest =>
    obtain ⟨-, front₁, h₁, rfl⟩ := keyword?_eq_some_iff.1 hExport
    obtain ⟨front₂, h₂, hText₂⟩ := exists_optional "default" rest
    obtain ⟨inner, hInner, hText⟩ := exists_innerModifiers (skipKeyword "default" rest)
    refine ⟨front₁ ++ (front₂ ++ inner), ?_, ?_⟩
    · rw [modifiers, hExport]
      exact .exported h₁ h₂ hInner
    · rw [modifiers, hExport, List.append_assoc, List.append_assoc, ← hText, ← hText₂]

theorem InnerModifiers.begins {inner rest : List Char} (h : InnerModifiers inner)
    (hRest : Begins openers rest) :
    Begins ("declare" :: "abstract" :: "async" :: openers) (inner ++ rest) := by
  obtain ⟨h₁, h₂, h₃⟩ := h
  rw [List.append_assoc, List.append_assoc]
  exact h₁.begins (h₂.begins (h₃.begins hRest))

theorem inner_append {inner rest : List Char} (h : InnerModifiers inner)
    (hRest : Begins openers rest) : modifiers.inner (inner ++ rest) = rest := by
  obtain ⟨h₁, h₂, h₃⟩ := h
  have hBegins₃ := h₃.begins hRest
  have hBegins₂ := h₂.begins hBegins₃
  rw [modifiers.inner, List.append_assoc, List.append_assoc,
    skipKeyword_append h₁ hBegins₂ (by decide), skipKeyword_append h₂ hBegins₃ (by decide),
    skipKeyword_append h₃ hRest (by decide)]

/-- The modifiers in front of a word that is none of them are read as they stand. -/
theorem modifiers_append {exported : Bool} {front rest : List Char} (h : Modifiers exported front)
    (hRest : Begins openers rest) : modifiers (front ++ rest) = (exported, rest) := by
  cases h with
  | unexported hInner =>
    rw [modifiers, keyword?_eq_none (hInner.begins hRest) (by decide)]
    exact congrArg (Prod.mk false) (inner_append hInner hRest)
  | @exported front₁ front₂ inner h₁ h₂ hInner =>
    have hBegins := hInner.begins hRest
    have hClear : Clear "export" ("default" :: "declare" :: "abstract" :: "async" :: openers) := by
      decide
    have hUnblank : Unblank (front₂ ++ (inner ++ rest)) := (h₂.begins hBegins).unblank hClear
    have hExport := keyword?_eq_some_iff.2 ⟨hUnblank, front₁, h₁, rfl⟩
    rw [List.append_assoc, List.append_assoc, modifiers, hExport]
    dsimp only
    rw [skipKeyword_append h₂ hBegins (by decide), inner_append hInner hRest]

/-! ## Forms -/

/-- What may stand between `function` and the name. -/
inductive FunctionGap (name : List Char) : List Char → Prop where
  | blank {blanks : List Char} (hSome : blanks ≠ []) (hBlanks : AreBlank blanks) :
      FunctionGap name blanks
  | star {before after : List Char} (hBefore : AreBlank before) (hAfter : AreBlank after) :
      FunctionGap name (before ++ '*' :: after)
  | dollar (hName : name.head? = some '$') : FunctionGap name []

/-- A keyword and the longest identifier behind it, with `rest` behind both. -/
inductive Named (word : String) (name : List Char) : List Char → List Char → Prop where
  | intro {lead rest : List Char} (hLead : Keyword word lead)
      (hName : Longest IsIdentifier name (name ++ rest)) : Named word name (lead ++ name) rest

/-- `Form kind name form rest`: with `rest` behind it, `form` declares `name`. The rest bounds the
name, which is the longest that can be read, and decides whether `type` declares an alias. -/
inductive Form : Kind → List Char → List Char → List Char → Prop where
  | function {name gap rest : List Char} (hGap : FunctionGap name gap)
      (hName : Longest IsIdentifier name (name ++ rest)) :
      Form .function name ("function".toList ++ (gap ++ name)) rest
  | classType {name form rest : List Char} (hNamed : Named "class" name form rest) :
      Form .classType name form rest
  | interfaceType {name form rest : List Char} (hNamed : Named "interface" name form rest) :
      Form .interfaceType name form rest
  | typeAlias {name form blanks rest : List Char} (hNamed : Named "type" name form (blanks ++ rest))
      (hBlanks : AreBlank blanks) (hRest : ∀ c ∈ rest.head?, c = '<' ∨ c = '=') :
      Form .typeAlias name (form ++ blanks) rest
  | enumeration {name const form rest : List Char} (hConst : Optional "const" const)
      (hNamed : Named "enum" name form rest) : Form .enumeration name (const ++ form) rest
  | nameSpace {name lead rest : List Char}
      (hLead : Keyword "namespace" lead ∨ Keyword "module" lead)
      (hName : Longest Dotted name (name ++ rest)) : Form .nameSpace name (lead ++ name) rest

/-- The text begins with a form. -/
def FormAt (kind : Kind) (name text : List Char) : Prop :=
  ∃ form rest, text = form ++ rest ∧ Form kind name form rest

/-! ### Functions -/

/-- The text behind blanks and an optional star among them. -/
def afterStar (text : List Char) : List Char :=
  trimStart ((after? ['*'] (trimStart text)).getD (trimStart text))

theorem functionName?_eq_some_iff_afterStar {text name : List Char} :
    functionName? text = some name ↔ ∃ after rest, text = "function".toList ++ after ∧
      after.head?.any isWordPart = false ∧ identifier? (afterStar after) = some (name, rest) := by
  constructor
  · intro h
    rw [functionName?] at h
    split at h
    · cases h
    · rename_i after hAfter
      split at h
      · cases h
      · rename_i hHead
        obtain ⟨⟨read, rest⟩, hRead, rfl⟩ := Option.map_eq_some_iff.1 h
        exact ⟨after, rest, after?_eq_some_iff.1 hAfter, Bool.eq_false_iff.2 hHead, hRead⟩
  · rintro ⟨after, rest, hText, hHead, hRead⟩
    rw [functionName?, after?_eq_some_iff.2 hText]
    dsimp only
    rw [hHead, if_neg Bool.false_ne_true]
    exact congrArg (Option.map Prod.fst) hRead

theorem exists_gap (text : List Char) :
    ∃ gap, text = gap ++ afterStar text ∧
      (AreBlank gap ∨ ∃ before after, AreBlank before ∧ AreBlank after ∧
        gap = before ++ '*' :: after) := by
  obtain ⟨before, hBefore, hText⟩ := exists_blanks text
  cases hStar : after? ['*'] (trimStart text) with
  | none =>
    refine ⟨before, ?_, .inl hBefore⟩
    rw [afterStar, hStar, Option.getD_none, trimStart_of_unblank (unblank_trimStart text)]
    exact hText
  | some rest =>
    obtain ⟨after, hAfter, hRest⟩ := exists_blanks rest
    refine ⟨before ++ '*' :: after, ?_, .inr ⟨before, after, hBefore, hAfter, rfl⟩⟩
    rw [afterStar, hStar, Option.getD_some, List.append_assoc, List.cons_append, ← hRest]
    rw [after?_eq_some_iff] at hStar
    rw [hStar] at hText
    exact hText

theorem afterStar_blanks {blanks name : List Char} (hBlanks : AreBlank blanks)
    (hName : IsIdentifier name) (rest : List Char) :
    afterStar (blanks ++ (name ++ rest)) = name ++ rest := by
  have hNoStar : after? ['*'] (name ++ rest) = none := by
    obtain ⟨hFirst, -⟩ := hName
    rw [Option.eq_none_iff_forall_ne_some]
    intro after hAfter
    obtain ⟨rfl, -⟩ := List.cons.inj (after?_eq_some_iff.1 hAfter)
    exact absurd (isIdentifierStart_iff.2 hFirst) (by decide)
  have hUnblank := hName.unblank rest
  rw [afterStar, trimStart_append hBlanks hUnblank, hNoStar, Option.getD_none,
    trimStart_of_unblank hUnblank]

theorem FunctionGap.afterStar_append {name gap : List Char} (h : FunctionGap name gap)
    (hName : IsIdentifier name) (rest : List Char) :
    afterStar (gap ++ (name ++ rest)) = name ++ rest := by
  cases h with
  | blank _ hBlanks => exact afterStar_blanks hBlanks hName rest
  | dollar _ => exact afterStar_blanks (List.forall_mem_nil _) hName rest
  | @star before after hBefore hAfter =>
    have hStar : Unblank ('*' :: (after ++ (name ++ rest))) := by
      rintro c ⟨⟩
      rfl
    have hRead := after?_eq_some_iff.2 (Eq.refl (['*'] ++ (after ++ (name ++ rest))))
    rw [afterStar, List.append_assoc, List.cons_append, trimStart_append hBefore hStar]
    rw [List.singleton_append] at hRead
    rw [hRead, Option.getD_some, trimStart_append hAfter (hName.unblank rest)]

theorem isWordPart_eq_false_of_isBlank {c : Char} (h : isBlank c = true) :
    isWordPart c = false := by
  rw [← Bool.not_eq_true]
  intro hWord
  have hPart : isIdentifierPart c = true := by
    simp only [isWordPart, Char.isAlphanum, Bool.or_eq_true] at hWord
    simp only [isIdentifierPart, isIdentifierStart, Bool.or_eq_true]
    rcases hWord with (hAlpha | hDigit) | hUnderscore
    · exact .inl (.inl (.inl hAlpha))
    · exact .inr hDigit
    · exact .inl (.inl (.inr hUnderscore))
  rw [(isIdentifierPart_iff.1 hPart).not_isBlank] at h
  cases h

theorem eq_dollar_of_isWordPart_eq_false {c : Char} (hFirst : BeginsIdentifier c)
    (h : isWordPart c = false) : c = '$' := by
  have hStart := isIdentifierStart_iff.2 hFirst
  simp only [isIdentifierStart, Bool.or_eq_true, beq_iff_eq] at hStart
  simp only [isWordPart, Char.isAlphanum, Bool.or_eq_false_iff, beq_eq_false_iff_ne] at h
  obtain ⟨⟨hAlpha, -⟩, hUnderscore⟩ := h
  rcases hStart with (hTrue | hEq) | hEq
  · rw [hAlpha] at hTrue
    cases hTrue
  · exact absurd hEq hUnderscore
  · exact hEq

theorem FunctionGap.not_isWordPart {name gap : List Char} (h : FunctionGap name gap)
    (rest : List Char) : (gap ++ (name ++ rest)).head?.any isWordPart = false := by
  cases h with
  | blank hSome hBlanks =>
    obtain ⟨c, blanks, rfl⟩ := List.exists_cons_of_ne_nil hSome
    exact isWordPart_eq_false_of_isBlank (hBlanks c List.mem_cons_self)
  | @star before after hBefore _ =>
    cases before with
    | nil => rfl
    | cons c before => exact isWordPart_eq_false_of_isBlank (hBefore c List.mem_cons_self)
  | dollar hName =>
    obtain ⟨more, rfl⟩ := List.head?_eq_some_iff.1 hName
    rfl

theorem functionName?_eq_some_iff {text name : List Char} :
    functionName? text = some name ↔ FormAt .function name text := by
  rw [functionName?_eq_some_iff_afterStar]
  constructor
  · rintro ⟨after, rest, rfl, hHead, hRead⟩
    obtain ⟨hRest, hName⟩ := identifier?_eq_some_iff.1 hRead
    obtain ⟨gap, hAfter, hGap⟩ := exists_gap after
    rw [hRest] at hAfter hName
    have hFunctionGap : FunctionGap name gap := by
      rcases hGap with hBlanks | ⟨before, behind, hBefore, hBehind, rfl⟩
      · by_cases hSome : gap = []
        · -- With no gap, the name begins right behind the word.
          subst hSome
          obtain ⟨hFirst, -⟩ := hName.holds
          rw [hAfter] at hHead
          exact .dollar (congrArg some (eq_dollar_of_isWordPart_eq_false hFirst hHead))
        · exact .blank hSome hBlanks
      · exact .star hBefore hBehind
    refine ⟨_, rest, ?_, .function hFunctionGap hName⟩
    rw [hAfter, List.append_assoc, List.append_assoc]
  · rintro ⟨form, rest, rfl, hForm⟩
    obtain ⟨hGap, hName⟩ := hForm
    refine ⟨_, rest, List.append_assoc _ _ _, ?_⟩
    rw [List.append_assoc, hGap.afterStar_append hName.holds]
    exact ⟨hGap.not_isWordPart rest, identifier?_eq_some_iff.2 ⟨rfl, hName⟩⟩

/-! ### Names behind a keyword -/

theorem keyword?_identifier?_eq_some_iff {word : String} {text name rest : List Char} :
    (keyword? word text).bind identifier? = some (name, rest) ↔
      ∃ form, text = form ++ rest ∧ Named word name form rest := by
  rw [Option.bind_eq_some_iff]
  constructor
  · rintro ⟨after, hAfter, hRead⟩
    obtain ⟨-, lead, hLead, rfl⟩ := keyword?_eq_some_iff.1 hAfter
    obtain ⟨rfl, hName⟩ := identifier?_eq_some_iff.1 hRead
    exact ⟨lead ++ name, (List.append_assoc _ _ _).symm, .intro hLead hName⟩
  · rintro ⟨form, rfl, ⟨hLead, hName⟩⟩
    refine ⟨name ++ rest, ?_, identifier?_eq_some_iff.2 ⟨rfl, hName⟩⟩
    exact keyword?_eq_some_iff.2
      ⟨hName.holds.unblank rest, _, hLead, List.append_assoc _ _ _⟩

theorem namedBy?_eq_some_iff {word : String} {text name : List Char} :
    namedBy? word text = some name ↔
      ∃ form rest, text = form ++ rest ∧ Named word name form rest := by
  rw [namedBy?, Option.map_eq_some_iff]
  constructor
  · rintro ⟨⟨read, rest⟩, hRead, rfl⟩
    obtain ⟨form, hText, hNamed⟩ := keyword?_identifier?_eq_some_iff.1 hRead
    exact ⟨form, rest, hText, hNamed⟩
  · rintro ⟨form, rest, hText, hNamed⟩
    exact ⟨(name, rest), keyword?_identifier?_eq_some_iff.2 ⟨form, hText, hNamed⟩, rfl⟩

theorem Named.begins {word : String} {name form rest : List Char} (h : Named word name form rest) :
    Begins [word] (form ++ rest) := by
  obtain ⟨hLead, -⟩ := h
  rw [List.append_assoc]
  exact hLead.begins _

theorem enumName?_eq_some_iff {text name : List Char} :
    enumName? text = some name ↔ FormAt .enumeration name text := by
  rw [enumName?, namedBy?_eq_some_iff]
  constructor
  · rintro ⟨form, rest, hText, hNamed⟩
    obtain ⟨const, hConst, hWhole⟩ := exists_optional "const" text
    refine ⟨_, rest, ?_, .enumeration hConst hNamed⟩
    rw [List.append_assoc, ← hText]
    exact hWhole
  · rintro ⟨_, rest, rfl, hForm⟩
    cases hForm with
    | @enumeration _ const form _ hConst hNamed =>
      refine ⟨form, rest, ?_, hNamed⟩
      rw [List.append_assoc]
      exact skipKeyword_append hConst hNamed.begins (by decide)

theorem aliasName?_eq_some_iff {text name : List Char} :
    aliasName? text = some name ↔ FormAt .typeAlias name text := by
  constructor
  · intro h
    rw [aliasName?] at h
    split at h
    · cases h
    · rename_i read after hRead
      obtain ⟨form, rfl, hNamed⟩ := keyword?_identifier?_eq_some_iff.1 hRead
      obtain ⟨blanks, hBlanks, hAfter⟩ := exists_blanks after
      have hText : form ++ after = form ++ blanks ++ trimStart after := by
        rw [List.append_assoc, ← hAfter]
      rw [hAfter] at hNamed
      split at h
      · rename_i hNil
        cases h
        refine ⟨_, _, hText, .typeAlias hNamed hBlanks ?_⟩
        rw [hNil]
        rintro c ⟨⟩
      · rename_i c rest hCons
        split at h
        · rename_i hc
          cases h
          refine ⟨_, _, hText, .typeAlias hNamed hBlanks ?_⟩
          rw [hCons]
          rintro d ⟨⟩
          exact hc
        · cases h
  · rintro ⟨_, rest, rfl, hForm⟩
    cases hForm with
    | @typeAlias _ form blanks _ hNamed hBlanks hRest =>
      have hRead := keyword?_identifier?_eq_some_iff.2 ⟨form, rfl, hNamed⟩
      have hUnblank : Unblank rest := by
        intro c hHead
        rcases hRest c hHead with rfl | rfl
        · rfl
        · rfl
      rw [aliasName?, List.append_assoc, hRead]
      dsimp only
      rw [trimStart_append hBlanks hUnblank]
      cases rest with
      | nil => rfl
      | cons c after => exact if_pos (hRest c rfl)

theorem Dotted.unblank {name : List Char} (h : Dotted name) (rest : List Char) :
    Unblank (name ++ rest) := by
  obtain ⟨first, hFirst, after, rfl⟩ := h.exists_identifier
  rw [List.append_assoc]
  exact hFirst.unblank _

theorem keyword?_dottedName?_eq_some_iff {word : String} {text name : List Char} :
    (keyword? word text).bind dottedName? = some name ↔
      ∃ lead rest, text = lead ++ name ++ rest ∧ Keyword word lead ∧
        Longest Dotted name (name ++ rest) := by
  rw [Option.bind_eq_some_iff]
  constructor
  · rintro ⟨after, hAfter, hRead⟩
    obtain ⟨-, lead, hLead, rfl⟩ := keyword?_eq_some_iff.1 hAfter
    rw [dottedName?_eq_some_iff] at hRead
    obtain ⟨rest, rfl⟩ := hRead.isPrefix
    exact ⟨lead, rest, (List.append_assoc _ _ _).symm, hLead, hRead⟩
  · rintro ⟨lead, rest, rfl, hLead, hName⟩
    refine ⟨name ++ rest, ?_, dottedName?_eq_some_iff.2 hName⟩
    exact keyword?_eq_some_iff.2
      ⟨hName.holds.unblank rest, lead, hLead, List.append_assoc _ _ _⟩

theorem namespaceName?_eq_some_iff {text name : List Char} :
    namespaceName? text = some name ↔ FormAt .nameSpace name text := by
  constructor
  · intro h
    have hEither : (keyword? "namespace" text).bind dottedName? = some name ∨
        (keyword? "module" text).bind dottedName? = some name := by
      rw [namespaceName?] at h
      split at h
      · rename_i rest hRest
        rw [hRest]
        exact .inl h
      · exact .inr h
    rcases hEither with h | h
    · obtain ⟨lead, rest, hText, hLead, hName⟩ := keyword?_dottedName?_eq_some_iff.1 h
      exact ⟨_, rest, hText, .nameSpace (.inl hLead) hName⟩
    · obtain ⟨lead, rest, hText, hLead, hName⟩ := keyword?_dottedName?_eq_some_iff.1 h
      exact ⟨_, rest, hText, .nameSpace (.inr hLead) hName⟩
  · rintro ⟨_, rest, rfl, hForm⟩
    cases hForm with
    | @nameSpace _ lead _ hLead hName =>
      rcases hLead with hLead | hLead
      · have hRead := keyword?_dottedName?_eq_some_iff.2 ⟨lead, rest, rfl, hLead, hName⟩
        obtain ⟨after, hAfter, hDotted⟩ := Option.bind_eq_some_iff.1 hRead
        rw [namespaceName?, hAfter]
        exact hDotted
      · have hNone : keyword? "namespace" (lead ++ name ++ rest) = none := by
          rw [List.append_assoc]
          exact keyword?_eq_none (hLead.begins _) (by decide)
        rw [namespaceName?, hNone]
        exact keyword?_dottedName?_eq_some_iff.2 ⟨lead, rest, rfl, hLead, hName⟩

/-! ## One reading at most -/

/-- The words that the forms of a kind begin with. -/
def leads : Kind → List String
  | .function => ["function"]
  | .classType => ["class"]
  | .interfaceType => ["interface"]
  | .typeAlias => ["type"]
  | .enumeration => ["const", "enum"]
  | .nameSpace => ["namespace", "module"]
  | .binding => []

theorem leads_subset_openers (kind : Kind) : leads kind ⊆ openers := by
  cases kind <;> decide

theorem clear_leads {a b : Kind} (h : a ≠ b) : ∀ word ∈ leads a, Clear word (leads b) := by
  have hAll : ∀ a ∈ Kind.all, ∀ b ∈ Kind.all, a ≠ b → ∀ word ∈ leads a, Clear word (leads b) := by
    decide
  exact hAll a (Kind.mem_all a) b (Kind.mem_all b) h

theorem FormAt.begins {kind : Kind} {name text : List Char} (h : FormAt kind name text) :
    Begins (leads kind) text := by
  obtain ⟨form, rest, rfl, hForm⟩ := h
  cases hForm with
  | function _ _ =>
    rw [List.append_assoc]
    exact ⟨_, List.mem_singleton_self _, List.prefix_append _ _⟩
  | classType hNamed => exact hNamed.begins
  | interfaceType hNamed => exact hNamed.begins
  | typeAlias hNamed _ _ =>
    rw [List.append_assoc]
    exact hNamed.begins
  | enumeration hConst hNamed =>
    rw [List.append_assoc]
    exact hConst.begins hNamed.begins
  | nameSpace hLead _ =>
    rw [List.append_assoc]
    rcases hLead with hLead | hLead
    · exact (hLead.begins _).mono (by decide)
    · exact (hLead.begins _).mono (by decide)

theorem FormAt.kind_unique {a b : Kind} {name other text : List Char} (ha : FormAt a name text)
    (hb : FormAt b other text) : a = b := by
  refine Decidable.byContradiction fun hne => ?_
  exact ha.begins.disjoint hb.begins (clear_leads hne)

/-- Each form has its own reader of names. -/
theorem eq_some_iff_formAt {kind : Kind} {name? : List Char → Option (List Char)}
    (hMem : (kind, name?) ∈ singleForms) {text name : List Char} :
    name? text = some name ↔ FormAt kind name text := by
  simp only [singleForms, List.mem_cons, List.not_mem_nil, or_false, Prod.mk.injEq] at hMem
  obtain ⟨rfl, rfl⟩ | ⟨rfl, rfl⟩ | ⟨rfl, rfl⟩ | ⟨rfl, rfl⟩ | ⟨rfl, rfl⟩ | ⟨rfl, rfl⟩ := hMem
  · exact functionName?_eq_some_iff
  · rw [namedBy?_eq_some_iff]
    refine exists_congr fun form => exists_congr fun rest => and_congr_right fun _ => ?_
    exact ⟨.classType, fun | .classType hNamed => hNamed⟩
  · rw [namedBy?_eq_some_iff]
    refine exists_congr fun form => exists_congr fun rest => and_congr_right fun _ => ?_
    exact ⟨.interfaceType, fun | .interfaceType hNamed => hNamed⟩
  · exact aliasName?_eq_some_iff
  · exact enumName?_eq_some_iff
  · exact namespaceName?_eq_some_iff

theorem FormAt.exists_reader {kind : Kind} {name text : List Char} (h : FormAt kind name text) :
    ∃ name?, (kind, name?) ∈ singleForms := by
  obtain ⟨form, rest, -, hForm⟩ := h
  cases hForm with
  | function => exact ⟨_, .head _⟩
  | classType => exact ⟨_, .tail _ (.head _)⟩
  | interfaceType => exact ⟨_, .tail _ (.tail _ (.head _))⟩
  | typeAlias => exact ⟨_, .tail _ (.tail _ (.tail _ (.head _)))⟩
  | enumeration => exact ⟨_, .tail _ (.tail _ (.tail _ (.tail _ (.head _))))⟩
  | nameSpace => exact ⟨_, .tail _ (.tail _ (.tail _ (.tail _ (.tail _ (.head _)))))⟩

theorem FormAt.name_unique {kind : Kind} {name other text : List Char}
    (h : FormAt kind name text) (h' : FormAt kind other text) : name = other := by
  obtain ⟨name?, hMem⟩ := h.exists_reader
  have hRead := (eq_some_iff_formAt hMem).2 h
  rw [(eq_some_iff_formAt hMem).2 h'] at hRead
  exact (Option.some.inj hRead).symm

theorem single?_eq_some_iff {text name : List Char} {kind : Kind} :
    single? text = some (kind, name) ↔ FormAt kind name text := by
  have hSound {kind : Kind} {name : List Char} (h : single? text = some (kind, name)) :
      FormAt kind name text := by
    obtain ⟨⟨k, name?⟩, hMem, hRead⟩ := List.exists_of_findSome?_eq_some h
    obtain ⟨read, hName, hPair⟩ := Option.map_eq_some_iff.1 hRead
    cases hPair
    exact (eq_some_iff_formAt hMem).1 hName
  refine ⟨hSound, ?_⟩
  intro hForm
  cases hRead : single? text with
  | some found =>
    obtain ⟨k, read⟩ := found
    obtain rfl := hForm.kind_unique (hSound hRead)
    rw [hForm.name_unique (hSound hRead)]
  | none =>
    obtain ⟨name?, hMem⟩ := hForm.exists_reader
    have hNone : (name? text).map (kind, ·) = none := List.findSome?_eq_none_iff.1 hRead _ hMem
    rw [(eq_some_iff_formAt hMem).2 hForm] at hNone
    cases hNone

/-- The first word of a text leaves one form that it may have. -/
theorem single?_of_begins {kind : Kind} {name? : List Char → Option (List Char)}
    (hMem : (kind, name?) ∈ singleForms) {text : List Char} (h : Begins (leads kind) text) :
    single? text = (name? text).map (kind, ·) := by
  cases hRead : name? text with
  | some name => exact single?_eq_some_iff.2 ((eq_some_iff_formAt hMem).1 hRead)
  | none =>
    rw [Option.map_none, Option.eq_none_iff_forall_ne_some]
    rintro ⟨other, name⟩ hSingle
    have hForm := single?_eq_some_iff.1 hSingle
    have hKind : other = kind :=
      Decidable.byContradiction fun hne => hForm.begins.disjoint h (clear_leads hne)
    subst hKind
    rw [(eq_some_iff_formAt hMem).2 hForm] at hRead
    cases hRead

/-! ## Statements -/

/-- The grammar derives the declaration of one name from the statement. -/
def Declares (statement : List Char) (exported : Bool) (kind : Kind) (name : List Char) : Prop :=
  ∃ front form rest, statement = front ++ form ++ rest ∧ Modifiers exported front ∧
    Form kind name form rest

theorem declares_iff {statement name : List Char} {exported : Bool} {kind : Kind} :
    Declares statement exported kind name ↔
      (modifiers statement).1 = exported ∧ single? (modifiers statement).2 = some (kind, name) := by
  rw [single?_eq_some_iff]
  constructor
  · rintro ⟨front, form, rest, rfl, hFront, hForm⟩
    have hAt : FormAt kind name (form ++ rest) := ⟨form, rest, rfl, hForm⟩
    have hBegins : Begins openers (form ++ rest) := hAt.begins.mono (leads_subset_openers kind)
    rw [List.append_assoc, modifiers_append hFront hBegins]
    exact ⟨rfl, hAt⟩
  · rintro ⟨rfl, form, rest, hRest, hForm⟩
    obtain ⟨front, hFront, hStatement⟩ := exists_modifiers statement
    refine ⟨front, form, rest, ?_, hFront, hForm⟩
    rw [List.append_assoc, ← hRest]
    exact hStatement

theorem not_formAt_binding {name text : List Char} : ¬FormAt .binding name text := by
  rintro ⟨_, _, _, ⟨⟩⟩

theorem bindingList?_eq_some {text list : List Char} (h : bindingList? text = some list) :
    ∃ lead, text = lead ++ list ∧
      (Keyword "const" lead ∨ Keyword "let" lead ∨ Keyword "var" lead) := by
  rw [bindingList?, Option.or_eq_some_iff, Option.or_eq_some_iff] at h
  rcases h with hRead | ⟨-, hRead | ⟨-, hRead⟩⟩
  · obtain ⟨-, lead, hLead, hText⟩ := keyword?_eq_some_iff.1 hRead
    exact ⟨lead, hText, .inl hLead⟩
  · obtain ⟨-, lead, hLead, hText⟩ := keyword?_eq_some_iff.1 hRead
    exact ⟨lead, hText, .inr (.inl hLead)⟩
  · obtain ⟨-, lead, hLead, hText⟩ := keyword?_eq_some_iff.1 hRead
    exact ⟨lead, hText, .inr (.inr hLead)⟩

theorem declaredNames_of_single?_eq_none {text : List Char} (h : single? text = none) :
    (∀ found ∈ declaredNames text, found.1 = .binding) ∧
      (declaredNames text ≠ [] → ∃ list, bindingList? text = some list) := by
  rw [declaredNames, h]
  dsimp only
  cases bindingList? text with
  | none => exact ⟨List.forall_mem_nil _, fun hne => absurd rfl hne⟩
  | some list =>
    refine ⟨?_, fun _ => ⟨list, rfl⟩⟩
    intro found hMem
    obtain ⟨name, -, rfl⟩ := List.mem_map.1 hMem
    rfl

theorem declaredNames_eq_singleton_iff {text name : List Char} {kind : Kind} :
    kind ≠ .binding ∧ declaredNames text = [(kind, name)] ↔ single? text = some (kind, name) := by
  cases hRead : single? text with
  | some found =>
    constructor
    · rintro ⟨-, hNames⟩
      rw [declaredNames, hRead] at hNames
      rw [List.singleton_inj.1 hNames]
    · rintro ⟨⟩
      refine ⟨?_, by rw [declaredNames, hRead]⟩
      rintro rfl
      exact not_formAt_binding (single?_eq_some_iff.1 hRead)
  | none =>
    refine ⟨?_, fun h => nomatch h⟩
    rintro ⟨hKind, hNames⟩
    have hMem : (kind, name) ∈ declaredNames text := by
      rw [hNames]
      exact .head _
    exact absurd ((declaredNames_of_single?_eq_none hRead).1 _ hMem) hKind

/-- A statement declares a single name that is no binding exactly when the grammar derives it, and
the grammar derives one declaration at most. Where it derives none, all that is declared are
bindings, and there are none unless `const`, `let` or `var` stands behind the modifiers. -/
theorem declared_eq_iff_declares (statement : List Char) :
    (∀ exported kind name, kind ≠ .binding ∧ declared statement = (exported, [(kind, name)]) ↔
      Declares statement exported kind name) ∧
    (∀ exported kind name exported' kind' name', Declares statement exported kind name →
      Declares statement exported' kind' name' →
      exported = exported' ∧ kind = kind' ∧ name = name') ∧
    ((¬∃ exported kind name, Declares statement exported kind name) →
      (∀ found ∈ (declared statement).2, found.1 = .binding) ∧
      ((declared statement).2 ≠ [] →
        ∃ front lead list, statement = front ++ lead ++ list ∧
          Modifiers (declared statement).1 front ∧
          (Keyword "const" lead ∨ Keyword "let" lead ∨ Keyword "var" lead))) := by
  refine ⟨?_, ?_, ?_⟩
  · intro exported kind name
    rw [declares_iff, ← declaredNames_eq_singleton_iff, declared, Prod.mk.injEq]
    exact and_left_comm
  · intro exported kind name exported' kind' name' h h'
    obtain ⟨rfl, hRead⟩ := declares_iff.1 h
    obtain ⟨rfl, hRead'⟩ := declares_iff.1 h'
    cases hRead.symm.trans hRead'
    exact ⟨rfl, rfl, rfl⟩
  · intro hNone
    have hSingle : single? (modifiers statement).2 = none := by
      rw [Option.eq_none_iff_forall_ne_some]
      rintro ⟨kind, name⟩ hRead
      exact hNone ⟨_, kind, name, declares_iff.2 ⟨rfl, hRead⟩⟩
    obtain ⟨hBindings, hList⟩ := declaredNames_of_single?_eq_none hSingle
    refine ⟨hBindings, ?_⟩
    intro hSome
    obtain ⟨list, hRead⟩ := hList hSome
    obtain ⟨lead, hRest, hLead⟩ := bindingList?_eq_some hRead
    obtain ⟨front, hFront, hStatement⟩ := exists_modifiers statement
    refine ⟨front, lead, list, ?_, hFront, hLead⟩
    rw [List.append_assoc, ← hRest]
    exact hStatement

/-- A name may be a word of the grammar, and a word that might open a form may be a name. -/
theorem declares_enum_named_enum :
    Declares "export declare const enum enum".toList true .enumeration "enum".toList ∧
      ¬∃ exported kind name, Declares "const enum = 1".toList exported kind name := by
  constructor
  · exact ((declared_eq_iff_declares _).1 _ _ _).1 ⟨by decide, by decide⟩
  · rintro ⟨exported, kind, name, h⟩
    obtain ⟨hKind, hDeclared⟩ := ((declared_eq_iff_declares _).1 _ _ _).2 h
    have hOne : declared "const enum = 1".toList = (false, [(.binding, "enum".toList)]) := by decide
    cases hOne.symm.trans hDeclared
    exact hKind rfl

end Homonym.Source
