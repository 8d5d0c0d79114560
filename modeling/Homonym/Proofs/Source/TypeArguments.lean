import Homonym.Proofs.Source.BindingList
import Homonym.Proofs.Source.Grammar
import Homonym.Proofs.Source.LoneStatement

/-!
# Type arguments in a list of bindings

A binding may have a type, and a type may have arguments: `C<A, B>`. To the reader of a list, angle
brackets are no brackets. So the commas between type arguments divide the list, and what is left
of the type is taken for bindings of its own. Most of these declare nothing, since an angle bracket
stands behind their first word. But an argument that is neither the first nor the last of its list
and that is a name alone stands between two commas, and is declared.

`TypeExpr.between` collects these names. The declaration of a constant with a type declares the
constant and the names between the commas of its type, in their order; it declares the constant
alone exactly if there are none (`extract_typedConst`).
-/

namespace Homonym.Source

open Text

abbrev Identifier := { name : List Char // IsIdentifier name }

mutual

/-- A type: a name, or a name with type arguments. -/
inductive TypeExpr where
  | named (name : Identifier)
  | apply (name : Identifier) (arguments : TypeArguments)

/-- One type argument or more. -/
inductive TypeArguments where
  | last (type : TypeExpr)
  | more (type : TypeExpr) (rest : TypeArguments)

end

mutual

def TypeExpr.text : TypeExpr → List Char
  | .named name => name
  | .apply name arguments => name ++ '<' :: arguments.text

/-- Type arguments as they are written, with the angle bracket behind them. -/
def TypeArguments.text : TypeArguments → List Char
  | .last type => type.text ++ ['>']
  | .more type rest => type.text ++ ',' :: ' ' :: rest.text

end

/-- The name of a type that is a name alone. -/
def TypeExpr.lone : TypeExpr → List (List Char)
  | .named name => [name]
  | .apply _ _ => []

mutual

/-- The names that stand alone between two commas of a type. -/
def TypeExpr.between : TypeExpr → List (List Char)
  | .named _ => []
  | .apply _ arguments => arguments.between

def TypeArguments.between : TypeArguments → List (List Char)
  | .last type => type.between
  | .more type rest => type.between ++ rest.betweenBehind

/-- The names that stand alone between two commas of type arguments and one in front of them. -/
def TypeArguments.betweenBehind : TypeArguments → List (List Char)
  | .last type => type.between
  | .more type rest => type.lone ++ type.between ++ rest.betweenBehind

end

def typedBinding (name : Identifier) (type : TypeExpr) (value : Identifier) : List Char :=
  name ++ ':' :: ' ' :: (type.text ++ ' ' :: '=' :: ' ' :: value)

/-- The declaration of a constant with a type and a value. -/
def typedConst (name : Identifier) (type : TypeExpr) (value : Identifier) : List Char :=
  "export ".toList ++ ("const ".toList ++ typedBinding name type value) ++ [';']

/-! ## Names at the front of a piece -/

theorem undivided_of_inert {text : List Char} (h : ∀ c ∈ text, isInert c = true) :
    Undivided {} text {} := by
  have hBalanced := balanced_append h .nil
  rw [List.append_nil] at hBalanced
  exact hBalanced.undivided fun hEnclosed => nomatch hEnclosed

theorem laterNames_append {text : List Char} (h : Undivided {} text {}) (back : List Char) :
    laterNames {} (text ++ back) = laterNames {} back := by
  obtain ⟨first, more, hPieces⟩ := exists_bindings_eq_cons {} back
  rw [laterNames, h back, laterNames, hPieces]
  rfl

theorem laterNames_name_cons {name : List Char} (hName : IsIdentifier name) {c : Char}
    (hc : isInert c = true) (back : List Char) :
    laterNames {} (name ++ c :: back) = laterNames {} back := by
  have hFront : ∀ d ∈ name ++ [c], isInert d = true := by
    rw [List.forall_mem_append, List.forall_mem_singleton]
    exact ⟨isInert_of_isIdentifier hName, hc⟩
  have hLater := laterNames_append (undivided_of_inert hFront) back
  rwa [List.append_assoc, List.singleton_append] at hLater

theorem bindings_comma (back : List Char) : bindings {} (',' :: back) = [] :: bindings {} back :=
  rfl

theorem laterNames_angle (back : List Char) : laterNames {} ('>' :: back) = laterNames {} back := by
  have hAngle : Undivided {} ['>'] {} := undivided_of_inert (List.all_eq_true.1 rfl)
  exact laterNames_append hAngle back

theorem laterNames_comma (back : List Char) : laterNames {} (',' :: back) = boundNames back :=
  rfl

/-- A name between two commas is declared. -/
theorem boundNames_name_comma {lead name : List Char} (hLead : AreBlank lead)
    (hName : IsIdentifier name) (back : List Char) :
    boundNames (lead ++ name ++ ',' :: back) = name :: boundNames back := by
  have hInert : ∀ c ∈ lead ++ name, isInert c = true := by
    rw [List.forall_mem_append]
    exact ⟨isInert_of_areBlank hLead, isInert_of_isIdentifier hName⟩
  have hSegment : Segment (lead ++ (name ++ [])) (some name) :=
    .bare hLead hName fun _ h => nomatch h
  have hRead := hSegment.bindingName?_eq
  rw [List.append_nil] at hRead
  rw [boundNames, undivided_of_inert hInert, bindings_comma, List.modifyHead_cons, List.append_nil,
    List.filterMap_cons_some hRead, boundNames]

/-- What stands behind a name decides whether the piece that begins with it declares it. -/
theorem boundNames_name_cons {lead name : List Char} (hLead : AreBlank lead)
    (hName : IsIdentifier name) {c : Char} (hc : c = '<' ∨ c = '>' ∨ c = ':') (back : List Char) :
    boundNames (lead ++ name ++ c :: back) =
      (if c = ':' then [name] else []) ++ laterNames {} back := by
  have hMark : isBlank c = false ∧ isIdentifierPart c = false ∧ isInert c = true := by
    rcases hc with rfl | rfl | rfl <;> decide
  obtain ⟨hBlank, hPart, hInert⟩ := hMark
  have hFront : ∀ d ∈ lead ++ name ++ [c], isInert d = true := by
    rw [List.forall_mem_append, List.forall_mem_append, List.forall_mem_singleton]
    exact ⟨⟨isInert_of_areBlank hLead, isInert_of_isIdentifier hName⟩, hInert⟩
  obtain ⟨first, more, hPieces⟩ := exists_bindings_eq_cons {} back
  have hEnds : endsName (c :: first) = decide (c = ':') := by
    rcases hc with rfl | rfl | rfl <;> rfl
  have hNone : AreBlank [] := fun _ h => nomatch h
  have hRead := bindingName?_append_cons hLead hName hNone hBlank hPart first
  have hList : bindings {} (lead ++ name ++ c :: back) =
      (lead ++ (name ++ ([] ++ c :: first))) :: more := by
    have hWhole := undivided_of_inert hFront back
    rw [hPieces, List.append_assoc, List.singleton_append] at hWhole
    rw [hWhole, List.modifyHead_cons]
    simp only [List.append_assoc, List.nil_append, List.singleton_append]
  rw [hEnds] at hRead
  rw [boundNames, hList, laterNames, hPieces, List.tail_cons]
  by_cases hColon : c = ':'
  · rw [if_pos (decide_eq_true hColon)] at hRead
    rw [List.filterMap_cons_some hRead, if_pos hColon, List.singleton_append]
  · rw [if_neg (mt of_decide_eq_true hColon)] at hRead
    rw [List.filterMap_cons_none hRead, if_neg hColon, List.nil_append]

/-! ## The names of a type -/

theorem areBlank_space : AreBlank [' '] := by decide

/-- In front of an angle bracket, a type begins with a name that such a bracket follows. -/
theorem TypeExpr.exists_angle (type : TypeExpr) (back : List Char) :
    ∃ name c more, IsIdentifier name ∧ (c = '<' ∨ c = '>') ∧
      type.text ++ '>' :: back = name ++ c :: more := by
  cases type with
  | named name => exact ⟨name, '>', back, name.2, .inr rfl, rfl⟩
  | apply name arguments =>
    refine ⟨name, '<', arguments.text ++ '>' :: back, name.2, .inl rfl, ?_⟩
    rw [text, List.append_assoc, List.cons_append]

theorem boundNames_angle {name : List Char} (hName : IsIdentifier name) {c : Char}
    (hc : c = '<' ∨ c = '>') (more : List Char) :
    boundNames (' ' :: (name ++ c :: more)) = laterNames {} (name ++ c :: more) := by
  have hMark : isInert c = true ∧ c ≠ ':' := by
    rcases hc with rfl | rfl <;> decide
  have hBound := boundNames_name_cons areBlank_space hName (hc.imp_right .inl) more
  rw [if_neg hMark.2, List.nil_append] at hBound
  rw [laterNames_name_cons hName hMark.1]
  exact hBound

mutual

theorem TypeExpr.laterNames_text : ∀ (type : TypeExpr) (back : List Char),
    laterNames {} (type.text ++ back) = type.between ++ laterNames {} back
  | .named name, back =>
    laterNames_append (undivided_of_inert (isInert_of_isIdentifier name.2)) back
  | .apply name arguments, back => by
    rw [TypeExpr.text, List.append_assoc, List.cons_append, laterNames_name_cons name.2 rfl,
      TypeExpr.between]
    exact arguments.laterNames_text back

theorem TypeArguments.laterNames_text : ∀ (arguments : TypeArguments) (back : List Char),
    laterNames {} (arguments.text ++ back) = arguments.between ++ laterNames {} back
  | .last type, back => by
    rw [TypeArguments.text, List.append_assoc, type.laterNames_text, TypeArguments.between,
      List.singleton_append, laterNames_angle]
  | .more type rest, back => by
    rw [TypeArguments.text, List.append_assoc, type.laterNames_text, TypeArguments.between,
      List.append_assoc, List.cons_append, List.cons_append, laterNames_comma,
      rest.boundNames_text]

theorem TypeArguments.boundNames_text : ∀ (arguments : TypeArguments) (back : List Char),
    boundNames (' ' :: (arguments.text ++ back)) = arguments.betweenBehind ++ laterNames {} back
  | .last type, back => by
    obtain ⟨name, c, more, hName, hc, hText⟩ := type.exists_angle back
    rw [TypeArguments.text, List.append_assoc, List.singleton_append, hText,
      boundNames_angle hName hc, ← hText, type.laterNames_text, laterNames_angle,
      TypeArguments.betweenBehind]
  | .more type rest, back => by
    have hRest := rest.boundNames_text back
    have hText : (TypeArguments.more type rest).text ++ back =
        type.text ++ ',' :: ' ' :: (rest.text ++ back) := by
      rw [TypeArguments.text, List.append_assoc, List.cons_append, List.cons_append]
    rw [hText, TypeArguments.betweenBehind]
    cases hType : type with
    | named name =>
      -- The name has a comma on either side.
      have hComma := boundNames_name_comma areBlank_space name.2 (' ' :: (rest.text ++ back))
      rw [hRest] at hComma
      exact hComma
    | apply name arguments =>
      have hLater := type.laterNames_text (',' :: ' ' :: (rest.text ++ back))
      rw [hType, laterNames_comma, hRest, ← List.append_assoc] at hLater
      rw [TypeExpr.text, List.append_assoc, List.cons_append] at hLater ⊢
      rw [boundNames_angle name.2 (.inl rfl), hLater]
      rfl

end

theorem boundNames_typedBinding (name : Identifier) (type : TypeExpr) (value : Identifier)
    (more : List Char) :
    boundNames (typedBinding name type value ++ ';' :: more) = name.1 :: type.between := by
  have hText : typedBinding name type value ++ ';' :: more =
      name.1 ++ ':' :: ([' '] ++ (type.text ++ (' ' :: '=' :: ' ' :: value.1 ++ ';' :: more))) := by
    simp only [typedBinding, List.append_assoc, List.cons_append, List.nil_append]
  have hSpace : Undivided {} [' '] {} := undivided_of_inert (List.all_eq_true.1 rfl)
  have hValue : Undivided {} (' ' :: '=' :: ' ' :: value.1) {} := by
    refine undivided_of_inert ?_
    simp only [List.forall_mem_cons]
    exact ⟨by decide, by decide, by decide, isInert_of_isIdentifier value.2⟩
  have hFirst := boundNames_name_cons (fun _ h => nomatch h : AreBlank []) name.2
    (.inr (.inr rfl) : ':' = '<' ∨ ':' = '>' ∨ ':' = ':')
  rw [hText]
  refine (hFirst _).trans ?_
  rw [if_pos rfl, laterNames_append hSpace, type.laterNames_text, laterNames_append hValue]
  exact congrArg (name.1 :: ·) (List.append_nil _)

/-! ## The statement -/

/-- A constant whose name a colon follows is no enumeration. -/
theorem enumName?_const {lead name : List Char} (hLead : Keyword "const" lead)
    (hName : IsIdentifier name) (more : List Char) :
    enumName? (lead ++ (name ++ ':' :: more)) = none := by
  have hColon : ∀ c ∈ (':' :: more).head?, ¬ContinuesIdentifier c := by
    rintro c ⟨⟩
    rw [← isIdentifierPart_iff]
    decide
  have hSkip : skipKeyword "const" (lead ++ (name ++ ':' :: more)) = name ++ ':' :: more := by
    have hRead := keyword?_eq_some_iff.2 ⟨hName.unblank (':' :: more), lead, hLead, rfl⟩
    rw [skipKeyword, hRead, Option.getD_some]
  rw [enumName?, hSkip, namedBy?, Option.map_eq_none_iff, Option.bind_eq_none_iff]
  intro after hAfter
  obtain ⟨-, _, ⟨hSome, hBlanks⟩, hText⟩ := keyword?_eq_some_iff.1 hAfter
  rename_i blanks
  obtain ⟨b, blanks, rfl⟩ := List.exists_cons_of_ne_nil hSome
  have hBlank : isBlank b = true := hBlanks b List.mem_cons_self
  -- The name would be `enum`, with a blank where the colon stands.
  have hEnum : Longest IsIdentifier "enum".toList ("enum".toList ++ (b :: blanks ++ after)) := by
    have hWord : IsIdentifier "enum".toList := by decide
    refine hWord.longest_append ?_
    rintro c ⟨⟩
    exact not_continues_of_isBlank hBlank
  have hLongest := hName.longest_append hColon
  rw [hText, List.append_assoc] at hLongest
  obtain rfl := hLongest.unique hEnum
  rw [List.append_assoc] at hText
  obtain ⟨rfl, -⟩ := List.cons.inj (List.append_cancel_left hText)
  cases hBlank

theorem declared_typed {front lead : List Char} (hFront : Keyword "export" front)
    (hLead : Keyword "const" lead) (name : Identifier) (type : TypeExpr) (value : Identifier)
    (more : List Char) :
    declared (front ++ (lead ++ (typedBinding name type value ++ ';' :: more))) =
      (true, (name.1 :: type.between).map (Kind.binding, ·)) := by
  have hModifiers : Modifiers true (front ++ []) :=
    .exported hFront .absent (.intro .absent .absent .absent)
  rw [List.append_nil] at hModifiers
  generalize hList : typedBinding name type value ++ ';' :: more = list
  have hText : list = name.1 ++ ':' :: ' ' :: (type.text ++ ' ' :: '=' :: ' ' :: value.1 ++
      ';' :: more) := by
    rw [← hList, typedBinding, List.append_assoc, List.cons_append, List.cons_append]
  have hBegins := hLead.begins list
  have hSingle : single? (lead ++ list) = none := by
    have hForm : (Kind.enumeration, enumName?) ∈ singleForms := by simp [singleForms]
    rw [single?_of_begins hForm (hBegins.mono (by decide)), hText, enumName?_const hLead name.2]
    rfl
  have hUnblank : Unblank list := by
    rw [hText]
    exact name.2.unblank _
  have hNames : boundNames list = name.1 :: type.between := by
    rw [← hList]
    exact boundNames_typedBinding name type value more
  simp only [declared, modifiers_append hModifiers (hBegins.mono (by decide)), declaredNames,
    hSingle, bindingList?, keyword?_eq_some_iff.2 ⟨hUnblank, lead, hLead, rfl⟩, Option.some_or,
    hNames]

theorem isQuiet_of_isIdentifier {name : List Char} (h : IsIdentifier name) :
    ∀ c ∈ name, Automaton.isQuiet c = true :=
  fun c hc => Automaton.isQuiet_of_continues (h.continues c hc)

mutual

theorem TypeExpr.isQuiet_text : ∀ (type : TypeExpr), ∀ c ∈ type.text, Automaton.isQuiet c = true
  | .named name => isQuiet_of_isIdentifier name.2
  | .apply name arguments => by
    rw [TypeExpr.text, List.forall_mem_append, List.forall_mem_cons]
    exact ⟨isQuiet_of_isIdentifier name.2, by decide, arguments.isQuiet_text⟩

theorem TypeArguments.isQuiet_text : ∀ (arguments : TypeArguments), ∀ c ∈ arguments.text,
    Automaton.isQuiet c = true
  | .last type => by
    rw [TypeArguments.text, List.forall_mem_append]
    exact ⟨type.isQuiet_text, List.all_eq_true.1 rfl⟩
  | .more type rest => by
    rw [TypeArguments.text, List.forall_mem_append, List.forall_mem_cons, List.forall_mem_cons]
    exact ⟨type.isQuiet_text, by decide, by decide, rest.isQuiet_text⟩

end

theorem isQuiet_typedBinding (name : Identifier) (type : TypeExpr) (value : Identifier) :
    ∀ c ∈ typedBinding name type value, Automaton.isQuiet c = true := by
  simp only [typedBinding, List.forall_mem_append, List.forall_mem_cons]
  exact ⟨isQuiet_of_isIdentifier name.2, by decide, by decide, type.isQuiet_text, by decide,
    by decide, by decide, isQuiet_of_isIdentifier value.2⟩

theorem identities_typed {front lead blanks : List Char} (hFront : Keyword "export" front)
    (hLead : Keyword "const" lead) (hQuiet : ∀ c ∈ front ++ lead, Automaton.isQuiet c = true)
    (hBlanks : AreBlank blanks) (name : Identifier) (type : TypeExpr) (value : Identifier)
    (file : String) :
    (extract (String.ofList (front ++ (lead ++ typedBinding name type value) ++ [';'] ++ blanks))
        file).map Occurrence.identity =
      (name.1 :: type.between).map fun n => ⟨String.ofList n, .binding⟩ := by
  have hAll : ∀ c ∈ front ++ (lead ++ typedBinding name type value),
      Automaton.isQuiet c = true := by
    rw [← List.append_assoc, List.forall_mem_append]
    exact ⟨hQuiet, isQuiet_typedBinding name type value⟩
  have hFirst : ∃ c ∈ (front ++ (lead ++ typedBinding name type value)).head?,
      BeginsIdentifier c := by
    obtain ⟨-, -⟩ := hFront
    exact ⟨'e', rfl, isIdentifierStart_iff.1 rfl⟩
  have hBreak : '\n' ∉ front ++ (lead ++ typedBinding name type value) :=
    fun hMem => absurd (hAll _ hMem) (by decide)
  have hLast : ';' ≠ '\n' ∧ ';' ≠ '\r' := by decide
  obtain ⟨gap, hFound⟩ := identities_extract hFirst hBreak hLast
    (Automaton.starts_of_isQuiet rfl hAll) hBlanks file
  rw [List.append_assoc _ [';'], List.singleton_append, hFound, List.append_assoc,
    List.append_assoc, declared_typed hFront hLead, List.map_map]
  rfl

/-- The declaration of a constant with a type declares the constant, and each name that stands alone
between two commas of the type. So it declares the constant alone exactly if no list of type
arguments has a name alone that is neither its first nor its last. -/
theorem extract_typedConst (name : Identifier) (type : TypeExpr) (value : Identifier)
    {blanks : List Char} (hBlanks : AreBlank blanks) (file : String) :
    let found := (extract (String.ofList (typedConst name type value ++ blanks)) file).map
      Occurrence.identity
    found = (name.1 :: type.between).map (fun n => ⟨String.ofList n, .binding⟩) ∧
      (found = [⟨String.ofList name, .binding⟩] ↔ type.between = []) := by
  intro found
  have hExport : Keyword "export" "export ".toList := keyword_space "export"
  have hConst : Keyword "const" "const ".toList := keyword_space "const"
  have hAll : found = (name.1 :: type.between).map (fun n => ⟨String.ofList n, .binding⟩) :=
    identities_typed hExport hConst (List.all_eq_true.1 rfl) hBlanks name type value file
  refine ⟨hAll, ?_⟩
  rw [hAll]
  cases type.between with
  | nil => exact ⟨fun _ => rfl, fun _ => rfl⟩
  | cons first more =>
    constructor
    · intro h
      cases h
    · intro h
      cases h

/-- Arguments within arguments, and commas between two arguments only. -/
theorem extract_typedConst_pairs :
    let set := TypeExpr.apply ⟨['S'], by decide⟩
      (.more (.named ⟨['A'], by decide⟩) (.last (.named ⟨['B'], by decide⟩)))
    let type := TypeExpr.apply ⟨['M'], by decide⟩ (.more set (.last (.named ⟨['C'], by decide⟩)))
    AreBlank ['\n'] ∧ typedConst ⟨['n'], by decide⟩ type ⟨['v'], by decide⟩ =
        "export const n: M<S<A, B>, C> = v;".toList ∧
      (extract "export const n: M<S<A, B>, C> = v;\n" "a.ts").map Occurrence.identity =
        [⟨"n", .binding⟩] := by
  intro set type
  have hBlank : AreBlank ['\n'] := by decide
  have hAlone := (extract_typedConst ⟨['n'], by decide⟩ type ⟨['v'], by decide⟩ hBlank "a.ts").2
  exact ⟨hBlank, by decide, hAlone.2 rfl⟩

/-- The second of three type arguments is declared. -/
theorem type_argument_declared :
    let type := TypeExpr.apply ⟨['M'], by decide⟩ (.more (.named ⟨['A'], by decide⟩)
      (.more (.named ⟨['B'], by decide⟩) (.last (.named ⟨['C'], by decide⟩))))
    typedConst ⟨['n'], by decide⟩ type ⟨['v'], by decide⟩ =
        "export const n: M<A, B, C> = v;".toList ∧
      (extract "export const n: M<A, B, C> = v;" "a.ts").map Occurrence.identity =
        [⟨"n", .binding⟩, ⟨"B", .binding⟩] := by
  decide

end Homonym.Source
