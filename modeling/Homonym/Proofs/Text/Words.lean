import Homonym.Text.Words

/-!
# The grammar of words

What the readers of words take from the front of a text, said without them: a fixed word with the
blanks that must follow it (`Keyword`), which may be allowed to be left out (`Optional`), and an
identifier. A name is the longest that the text begins with (`Longest`), so the text determines it.

* `keyword?_eq_some_iff`, `identifier?_eq_some_iff`: the readers take what the grammar allows.
* `keyword?_eq_none`, `skipKeyword_append`: where a text begins with one of some words, no other
  word is read that is apart from all of them, so that optional words in a row are read one by one.
-/

namespace Homonym.Text

/-! ## Blanks -/

/-- Blanks alone, and maybe none. -/
def AreBlank (text : List Char) : Prop :=
  ∀ c ∈ text, isBlank c = true

/-- The text does not begin with a blank. -/
def Unblank (text : List Char) : Prop :=
  ∀ c ∈ text.head?, isBlank c = false

instance (text : List Char) : Decidable (AreBlank text) :=
  List.decidableBAll (fun c => isBlank c = true) text

instance (text : List Char) : Decidable (Unblank text) :=
  Option.decidableForallMem text.head?

theorem trimStart_of_unblank {text : List Char} (h : Unblank text) : trimStart text = text := by
  cases text with
  | nil => rfl
  | cons c rest => rw [trimStart, List.dropWhile_cons_of_neg (by simp [h c rfl])]

theorem trimStart_append {blanks rest : List Char} (hBlanks : AreBlank blanks)
    (hRest : Unblank rest) : trimStart (blanks ++ rest) = rest := by
  rw [trimStart, List.dropWhile_append_of_pos hBlanks]
  exact trimStart_of_unblank hRest

theorem unblank_trimStart (text : List Char) : Unblank (trimStart text) := by
  intro c hHead
  rcases trimStart_eq_nil_or text with hNil | ⟨d, rest, hTrim, hd⟩
  · rw [hNil] at hHead
    cases hHead
  · rw [hTrim] at hHead
    cases hHead
    exact hd

theorem exists_blanks (text : List Char) :
    ∃ blanks, AreBlank blanks ∧ text = blanks ++ trimStart text := by
  refine ⟨text.takeWhile isBlank, ?_, List.takeWhile_append_dropWhile.symm⟩
  exact List.all_eq_true.1 List.all_takeWhile

theorem afterBlanks?_eq_some_iff {text rest : List Char} :
    afterBlanks? text = some rest ↔
      Unblank rest ∧ ∃ blanks, blanks ≠ [] ∧ AreBlank blanks ∧ text = blanks ++ rest := by
  cases text with
  | nil =>
    constructor
    · intro h
      cases h
    · rintro ⟨-, blanks, hSome, -, hText⟩
      exact absurd (List.append_eq_nil_iff.1 hText.symm).1 hSome
  | cons c text =>
    rw [afterBlanks?]
    constructor
    · intro h
      split at h
      · rename_i hBlank
        obtain ⟨blanks, hBlanks, hText⟩ := exists_blanks text
        cases h
        refine ⟨unblank_trimStart text, c :: blanks, List.cons_ne_nil _ _, ?_, ?_⟩
        · exact List.forall_mem_cons.2 ⟨hBlank, hBlanks⟩
        · rw [List.cons_append, ← hText]
      · cases h
    · rintro ⟨hRest, blanks, hSome, hBlanks, hText⟩
      obtain ⟨d, blanks, rfl⟩ := List.exists_cons_of_ne_nil hSome
      obtain ⟨hBlank, hMore⟩ := List.forall_mem_cons.1 hBlanks
      obtain ⟨rfl, rfl⟩ : c = d ∧ text = blanks ++ rest := List.cons.inj hText
      rw [if_pos hBlank, trimStart_append hMore hRest]

/-! ## Keywords -/

/-- A word and the blanks behind it, of which there is one at least. -/
inductive Keyword (word : String) : List Char → Prop where
  | intro {blanks : List Char} (hSome : blanks ≠ []) (hBlanks : AreBlank blanks) :
      Keyword word (word.toList ++ blanks)

theorem keyword_space (word : String) : Keyword word (word.toList ++ [' ']) :=
  .intro (List.cons_ne_nil _ _) (by decide)

theorem keyword?_eq_some_iff {word : String} {text rest : List Char} :
    keyword? word text = some rest ↔
      Unblank rest ∧ ∃ front, Keyword word front ∧ text = front ++ rest := by
  rw [keyword?, Option.bind_eq_some_iff]
  constructor
  · rintro ⟨after, hAfter, hBlanks⟩
    obtain ⟨hRest, blanks, hSome, hBlank, rfl⟩ := afterBlanks?_eq_some_iff.1 hBlanks
    rw [after?_eq_some_iff] at hAfter
    exact ⟨hRest, _, .intro hSome hBlank, by rw [hAfter, List.append_assoc]⟩
  · rintro ⟨hRest, front, ⟨hSome, hBlanks⟩, rfl⟩
    refine ⟨_, after?_eq_some_iff.2 (List.append_assoc _ _ _), ?_⟩
    exact afterBlanks?_eq_some_iff.2 ⟨hRest, _, hSome, hBlanks, rfl⟩

/-- A keyword that may be left out. -/
inductive Optional (word : String) : List Char → Prop where
  | absent : Optional word []
  | present {front : List Char} (h : Keyword word front) : Optional word front

theorem exists_optional (word : String) (text : List Char) :
    ∃ front, Optional word front ∧ text = front ++ skipKeyword word text := by
  cases hRead : keyword? word text with
  | none => exact ⟨[], .absent, by rw [skipKeyword, hRead]; rfl⟩
  | some rest =>
    obtain ⟨-, front, hFront, hText⟩ := keyword?_eq_some_iff.1 hRead
    exact ⟨front, .present hFront, by rw [skipKeyword, hRead]; exact hText⟩

/-! ## Telling words apart -/

/-- The text begins with one of some words. -/
def Begins (words : List String) (text : List Char) : Prop :=
  ∃ word ∈ words, word.toList <+: text

/-- Neither word begins with the other. -/
def Apart (word other : String) : Prop :=
  ¬word.toList <+: other.toList ∧ ¬other.toList <+: word.toList

/-- The word is apart from each of some others, and none of these begins with a blank. -/
def Clear (word : String) (others : List String) : Prop :=
  ∀ other ∈ others, Apart word other ∧ Unblank other.toList

instance (word other : String) : Decidable (Apart word other) :=
  inferInstanceAs (Decidable (_ ∧ _))

instance (word : String) (others : List String) : Decidable (Clear word others) :=
  inferInstanceAs (Decidable (∀ other ∈ others, Apart word other ∧ Unblank other.toList))

theorem Begins.mono {words more : List String} {text : List Char} (h : Begins words text)
    (hMore : words ⊆ more) : Begins more text := by
  obtain ⟨word, hMem, hPrefix⟩ := h
  exact ⟨word, hMore hMem, hPrefix⟩

theorem Keyword.begins {word : String} {front : List Char} (h : Keyword word front)
    (rest : List Char) : Begins [word] (front ++ rest) := by
  obtain ⟨-, -⟩ := h
  refine ⟨word, List.mem_singleton_self word, ?_⟩
  rw [List.append_assoc]
  exact List.prefix_append _ _

theorem Optional.begins {word : String} {words : List String} {front rest : List Char}
    (h : Optional word front) (hRest : Begins words rest) :
    Begins (word :: words) (front ++ rest) := by
  cases h with
  | absent => exact hRest.mono (List.subset_cons_self _ _)
  | present h => exact (h.begins rest).mono (List.cons_subset_cons word (List.nil_subset words))

/-- A text does not begin with two words that are apart. -/
theorem Begins.disjoint {words others : List String} {text : List Char} (h : Begins words text)
    (hOther : Begins others text) : ¬∀ word ∈ words, Clear word others := by
  intro hClear
  obtain ⟨word, hMem, hPrefix⟩ := h
  obtain ⟨other, hMem', hPrefix'⟩ := hOther
  have hApart := (hClear word hMem other hMem').1
  rcases List.prefix_or_prefix_of_prefix hPrefix hPrefix' with hInner | hInner
  · exact hApart.1 hInner
  · exact hApart.2 hInner

theorem Begins.unblank {word : String} {words : List String} {text : List Char}
    (h : Begins words text) (hClear : Clear word words) : Unblank text := by
  obtain ⟨other, hMem, after, rfl⟩ := h
  obtain ⟨hApart, hUnblank⟩ := hClear other hMem
  -- The empty word begins every word, so `other` has a first character.
  cases hOther : other.toList with
  | nil => exact absurd (hOther ▸ List.nil_prefix) hApart.2
  | cons c rest =>
    rintro d ⟨⟩
    exact hUnblank c (by rw [hOther]; rfl)

theorem keyword?_eq_none {word : String} {words : List String} {text : List Char}
    (h : Begins words text) (hClear : Clear word words) : keyword? word text = none := by
  rw [Option.eq_none_iff_forall_ne_some]
  intro rest hRest
  obtain ⟨-, front, hFront, rfl⟩ := keyword?_eq_some_iff.1 hRest
  refine (hFront.begins rest).disjoint h ?_
  intro other hMem
  rw [List.mem_singleton.1 hMem]
  exact hClear

theorem skipKeyword_append {word : String} {words : List String} {front rest : List Char}
    (hFront : Optional word front) (hRest : Begins words rest) (hClear : Clear word words) :
    skipKeyword word (front ++ rest) = rest := by
  cases hFront with
  | absent => rw [List.nil_append, skipKeyword, keyword?_eq_none hRest hClear, Option.getD_none]
  | present h =>
    have hRead := keyword?_eq_some_iff.2 ⟨hRest.unblank hClear, front, h, rfl⟩
    rw [skipKeyword, hRead, Option.getD_some]

/-! ## Names -/

/-- Of the fronts of a text that have a property, the longest. -/
structure Longest (P : List Char → Prop) (front text : List Char) : Prop where
  holds : P front
  isPrefix : front <+: text
  length_le : ∀ other, P other → other <+: text → other.length ≤ front.length

theorem Longest.unique {P : List Char → Prop} {a b text : List Char} (ha : Longest P a text)
    (hb : Longest P b text) : a = b := by
  have hLe := hb.length_le a ha.holds ha.isPrefix
  have hGe := ha.length_le b hb.holds hb.isPrefix
  exact (List.prefix_of_prefix_length_le ha.isPrefix hb.isPrefix hLe).eq_of_length
    (Nat.le_antisymm hLe hGe)

/-- An ASCII letter, an underscore or a dollar sign. -/
def BeginsIdentifier (c : Char) : Prop :=
  ('A' ≤ c ∧ c ≤ 'Z') ∨ ('a' ≤ c ∧ c ≤ 'z') ∨ c = '_' ∨ c = '$'

/-- Such a character or an ASCII digit. -/
def ContinuesIdentifier (c : Char) : Prop :=
  BeginsIdentifier c ∨ ('0' ≤ c ∧ c ≤ '9')

inductive IsIdentifier : List Char → Prop where
  | intro {c : Char} {rest : List Char} (hFirst : BeginsIdentifier c)
      (hRest : ∀ d ∈ rest, ContinuesIdentifier d) : IsIdentifier (c :: rest)

theorem isIdentifierStart_iff {c : Char} : isIdentifierStart c = true ↔ BeginsIdentifier c := by
  have hAlpha : c.isAlpha = (decide ('A' ≤ c ∧ c ≤ 'Z') ||
      (decide ('a' ≤ c) && decide (c ≤ 'z'))) := rfl
  simp only [isIdentifierStart, BeginsIdentifier, hAlpha, Bool.or_eq_true, Bool.and_eq_true,
    decide_eq_true_eq, beq_iff_eq, or_assoc]

theorem isIdentifierPart_iff {c : Char} : isIdentifierPart c = true ↔ ContinuesIdentifier c := by
  have hDigit : c.isDigit = (decide ('0' ≤ c) && decide (c ≤ '9')) := rfl
  simp only [isIdentifierPart, ContinuesIdentifier, hDigit, Bool.or_eq_true, isIdentifierStart_iff,
    Bool.and_eq_true, decide_eq_true_eq]

theorem ContinuesIdentifier.not_isBlank {c : Char} (h : ContinuesIdentifier c) :
    isBlank c = false := by
  have hRange : (48 ≤ c.toNat ∧ c.toNat ≤ 57) ∨ (65 ≤ c.toNat ∧ c.toNat ≤ 90) ∨
      (97 ≤ c.toNat ∧ c.toNat ≤ 122) ∨ c.toNat = 95 ∨ c.toNat = 36 := by
    rcases h with (hUpper | hLower | rfl | rfl) | hDigit
    · exact .inr (.inl hUpper)
    · exact .inr (.inr (.inl hLower))
    · exact .inr (.inr (.inr (.inl rfl)))
    · exact .inr (.inr (.inr (.inr rfl)))
    · exact .inl hDigit
  rw [← Bool.not_eq_true]
  simp only [isBlank, Bool.or_eq_true, Bool.and_eq_true, decide_eq_true_eq, beq_iff_eq]
  omega

theorem not_continues_of_isBlank {c : Char} (h : isBlank c = true) : ¬ContinuesIdentifier c := by
  intro hContinues
  rw [hContinues.not_isBlank] at h
  cases h

theorem ContinuesIdentifier.not_mem {c : Char} (h : ContinuesIdentifier c) {marks : List Char}
    (hMarks : marks.any isIdentifierPart = false) : c ∉ marks := by
  intro hMem
  exact List.any_eq_false.1 hMarks c hMem (isIdentifierPart_iff.2 h)

theorem IsIdentifier.continues {name : List Char} (h : IsIdentifier name) :
    ∀ c ∈ name, ContinuesIdentifier c := by
  obtain ⟨hFirst, hRest⟩ := h
  exact List.forall_mem_cons.2 ⟨.inl hFirst, hRest⟩

theorem IsIdentifier.unblank {name : List Char} (h : IsIdentifier name) (rest : List Char) :
    Unblank (name ++ rest) := by
  obtain ⟨hFirst, -⟩ := h
  rintro c ⟨⟩
  exact ContinuesIdentifier.not_isBlank (.inl hFirst)

theorem longest_takeWhile {c : Char} (hc : BeginsIdentifier c) (text : List Char) :
    Longest IsIdentifier (c :: text.takeWhile isIdentifierPart) (c :: text) := by
  refine ⟨.intro hc ?_, ?_, ?_⟩
  · intro d hMem
    exact isIdentifierPart_iff.1 (List.all_eq_true.1 List.all_takeWhile d hMem)
  · exact (List.cons_prefix_cons).2 ⟨rfl, List.takeWhile_prefix _⟩
  · rintro other ⟨-, hRest⟩ ⟨after, hText⟩
    rename_i d rest
    obtain ⟨rfl, rfl⟩ : d = c ∧ rest ++ after = text := List.cons.inj hText
    rw [List.takeWhile_append_of_pos fun d hMem => isIdentifierPart_iff.2 (hRest d hMem)]
    simp only [List.length_cons, List.length_append]
    omega

/-- An identifier is the longest one where no character follows that it could go on with. -/
theorem IsIdentifier.longest_append {name rest : List Char} (h : IsIdentifier name)
    (hRest : ∀ c ∈ rest.head?, ¬ContinuesIdentifier c) :
    Longest IsIdentifier name (name ++ rest) := by
  obtain ⟨hFirst, hMore⟩ := h
  rename_i c more
  have hTaken : (more ++ rest).takeWhile isIdentifierPart = more := by
    rw [List.takeWhile_append_of_pos fun d hMem => isIdentifierPart_iff.2 (hMore d hMem)]
    cases rest with
    | nil => exact List.append_nil more
    | cons d rest =>
      have hStop : ¬isIdentifierPart d = true := mt isIdentifierPart_iff.1 (hRest d rfl)
      rw [List.takeWhile_cons_of_neg hStop, List.append_nil]
  have hLongest := longest_takeWhile hFirst (more ++ rest)
  rwa [hTaken] at hLongest

theorem identifier?_eq_some_iff {text name rest : List Char} :
    identifier? text = some (name, rest) ↔
      text = name ++ rest ∧ Longest IsIdentifier name text := by
  constructor
  · intro h
    have hText := identifier?_append h
    cases text with
    | nil => cases h
    | cons c text =>
      rw [identifier?] at h
      split at h
      · rename_i hc
        cases h
        exact ⟨hText, longest_takeWhile (isIdentifierStart_iff.1 hc) text⟩
      · cases h
  · rintro ⟨rfl, hLongest⟩
    obtain ⟨hFirst, -⟩ := hLongest.holds
    rename_i c more
    have hTaken := (longest_takeWhile hFirst (more ++ rest)).unique hLongest
    rw [List.cons_append, identifier?, if_pos (isIdentifierStart_iff.2 hFirst), hTaken]
    have hMore : (more ++ rest).takeWhile isIdentifierPart = more := (List.cons.inj hTaken).2
    have hParts := List.takeWhile_append_dropWhile (p := isIdentifierPart) (l := more ++ rest)
    rw [hMore] at hParts
    rw [List.append_cancel_left hParts]

theorem isIdentifier_iff {name : List Char} :
    IsIdentifier name ↔ identifier? name = some (name, []) := by
  rw [identifier?_eq_some_iff]
  constructor
  · intro h
    have hLongest : Longest IsIdentifier name (name ++ []) :=
      h.longest_append fun _ hNone => nomatch hNone
    rw [List.append_nil] at hLongest
    exact ⟨(List.append_nil name).symm, hLongest⟩
  · rintro ⟨-, hLongest⟩
    exact hLongest.holds

instance (name : List Char) : Decidable (IsIdentifier name) :=
  decidable_of_iff _ isIdentifier_iff.symm

end Homonym.Text
