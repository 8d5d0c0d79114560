import Homonym.Json.Reader
import Homonym.Proofs.Json.Tokens

/-!
# Layouts of JSON values

A value can be laid out in many ways, which differ in the blanks between its tokens. `Layout` is the
grammar of all of them. The writers keep to it (`Writable.compact`, `Writable.pretty`), and the
reader takes every text of the grammar back to its value (`Layout.reads`), so what is written is
read, whoever wrote it (`read?_of_layout`).

The reader counts its calls and the depth of nesting. The first count is bounded by the length of
the text; for the second the grammar carries the depth along.
-/

namespace Homonym.Json

/-! ## The grammar -/

/-- Only blanks. -/
def IsGap (gap : List Char) : Prop :=
  ∀ c ∈ gap, isSpace c = true

/-- What a stretch of text stands for: a value, or the inside of an array or an object with the
bracket that closes it. -/
inductive Part where
  | value (value : Json)
  | elements (elements : List Json)
  | members (members : List (String × Json))

/-- The text is a layout of the part, in which arrays and objects nest at most `depth` deep. -/
inductive Layout : Nat → Part → List Char → Prop where
  | null (depth : Nat) : Layout depth (.value .null) ['n', 'u', 'l', 'l']
  | yes (depth : Nat) : Layout depth (.value (.bool true)) ['t', 'r', 'u', 'e']
  | no (depth : Nat) : Layout depth (.value (.bool false)) ['f', 'a', 'l', 's', 'e']
  | int (depth : Nat) {n : Int} (hMin : intMin ≤ n) (hMax : n ≤ intMax) :
      Layout depth (.value (.int n)) (intText n)
  | str (depth : Nat) (text : String) : Layout depth (.value (.str text)) (quoted text)
  | emptyArray (depth : Nat) {gap : List Char} (hGap : IsGap gap) :
      Layout (depth + 1) (.value (.arr [])) ('[' :: (gap ++ [']']))
  | array {depth : Nat} {elements : List Json} {text : List Char}
      (hText : Layout depth (.elements elements) text) :
      Layout (depth + 1) (.value (.arr elements)) ('[' :: text)
  | emptyObject (depth : Nat) {gap : List Char} (hGap : IsGap gap) :
      Layout (depth + 1) (.value (.obj [])) ('\x7b' :: (gap ++ ['\x7d']))
  | object {depth : Nat} {members : List (String × Json)} {text : List Char}
      (hText : Layout depth (.members members) text) :
      Layout (depth + 1) (.value (.obj members)) ('\x7b' :: text)
  | lastElement {depth : Nat} {value : Json} {gap text gap' : List Char} (hGap : IsGap gap)
      (hText : Layout depth (.value value) text) (hGap' : IsGap gap') :
      Layout depth (.elements [value]) (gap ++ (text ++ (gap' ++ [']'])))
  | element {depth : Nat} {value : Json} {elements : List Json} {gap text gap' more : List Char}
      (hGap : IsGap gap) (hText : Layout depth (.value value) text) (hGap' : IsGap gap')
      (hMore : Layout depth (.elements elements) more) :
      Layout depth (.elements (value :: elements)) (gap ++ (text ++ (gap' ++ ',' :: more)))
  | lastMember {depth : Nat} (name : String) {value : Json} {gap between text gap' : List Char}
      (hGap : IsGap gap) (hBetween : IsGap between) (hText : Layout depth (.value value) text)
      (hGap' : IsGap gap') :
      Layout depth (.members [(name, value)])
        (gap ++ (quoted name ++ ':' :: (between ++ (text ++ (gap' ++ ['\x7d'])))))
  | member {depth : Nat} (name : String) {value : Json} {members : List (String × Json)}
      {gap between text gap' more : List Char} (hGap : IsGap gap) (hBetween : IsGap between)
      (hText : Layout depth (.value value) text) (hGap' : IsGap gap')
      (hMore : Layout depth (.members members) more) :
      Layout depth (.members ((name, value) :: members))
        (gap ++ (quoted name ++ ':' :: (between ++ (text ++ (gap' ++ ',' :: more)))))

/-! ## Blanks -/

theorem isGap_nil : IsGap [] := fun _ hc => by cases hc

theorem skipSpace_gap {gap : List Char} (hGap : IsGap gap) {c : Char} (hc : isSpace c = false)
    (rest : List Char) : skipSpace (gap ++ c :: rest) = c :: rest := by
  rw [skipSpace, List.dropWhile_append_of_pos hGap, List.dropWhile_cons, hc]
  rfl

theorem skipSpace_of_isGap {gap : List Char} (hGap : IsGap gap) : skipSpace gap = [] := by
  have h : skipSpace (gap ++ []) = [] := List.dropWhile_append_of_pos hGap
  rwa [List.append_nil] at h

/-- Neither blanks nor one of the marks between tokens go on with a number. -/
theorem endsNumber_gap {gap : List Char} (hGap : IsGap gap) {rest : List Char}
    (hRest : EndsNumber rest) : EndsNumber (gap ++ rest) := by
  cases gap with
  | nil => exact hRest
  | cons c gap =>
    have hc : isSpace c = true := hGap c List.mem_cons_self
    simp only [isSpace, Bool.or_eq_true, beq_iff_eq] at hc
    rcases hc with ((rfl | rfl) | rfl) | rfl <;>
      exact endsNumber_cons (by decide) (by decide) (by decide) (by decide) _

theorem isSpace_of_startsNumber {c : Char} (h : StartsNumber c) : isSpace c = false := by
  have hTab := h.ne (d := '\t') (by decide)
  have hSpace := h.ne (d := ' ') (by decide)
  have hFeed := h.ne (d := '\n') (by decide)
  have hReturn := h.ne (d := '\r') (by decide)
  simp only [isSpace, beq_false_of_ne hSpace, beq_false_of_ne hTab, beq_false_of_ne hFeed,
    beq_false_of_ne hReturn, Bool.or_self]

theorem Layout.head {depth : Nat} {value : Json} {text : List Char}
    (h : Layout depth (.value value) text) :
    ∃ c more, text = c :: more ∧ isSpace c = false ∧ c ≠ ']' := by
  cases h with
  | int =>
    obtain ⟨c, more, hText, hc⟩ := exists_intText_eq_cons _
    exact ⟨c, more, hText, isSpace_of_startsNumber hc, hc.ne (by decide)⟩
  | null => exact ⟨_, _, rfl, by decide, by decide⟩
  | yes => exact ⟨_, _, rfl, by decide, by decide⟩
  | no => exact ⟨_, _, rfl, by decide, by decide⟩
  | str => exact ⟨_, _, rfl, by decide, by decide⟩
  | emptyArray => exact ⟨_, _, rfl, by decide, by decide⟩
  | array => exact ⟨_, _, rfl, by decide, by decide⟩
  | emptyObject => exact ⟨_, _, rfl, by decide, by decide⟩
  | object => exact ⟨_, _, rfl, by decide, by decide⟩

/-! ## The reader -/

section Value

variable {text rest : List Char} (fuel depth : Nat)

theorem value?_number {c : Char} (hc : StartsNumber c) (hSkip : skipSpace text = c :: rest)
    {found : Json × List Char} (h : number? (c :: rest) = some found) :
    value? (fuel + 1) depth text = some found := by
  have hNull := hc.ne (d := 'n') (by decide)
  have hTrue := hc.ne (d := 't') (by decide)
  have hFalse := hc.ne (d := 'f') (by decide)
  have hQuote := hc.ne (d := '"') (by decide)
  have hArray := hc.ne (d := '[') (by decide)
  have hObject := hc.ne (d := '\x7b') (by decide)
  simp [value?, hSkip, hNull, hTrue, hFalse, hQuote, hArray, hObject, h]

theorem value?_string (hSkip : skipSpace text = '"' :: rest) {inside after : List Char}
    (h : stringBody? rest = some (inside, after)) :
    value? (fuel + 1) depth text = some (.str (String.ofList inside), after) := by
  simp [value?, hSkip, h]

theorem value?_emptyArray (hSkip : skipSpace text = '[' :: rest) {after : List Char}
    (h : skipSpace rest = ']' :: after) :
    value? (fuel + 1) (depth + 1) text = some (.arr [], after) := by
  simp [value?, hSkip, h]

theorem value?_array (hSkip : skipSpace text = '[' :: rest) {c : Char} {more : List Char}
    (hFirst : skipSpace rest = c :: more) (hc : c ≠ ']') {elements : List Json}
    {after : List Char} (h : elements? fuel depth rest = some (elements, after)) :
    value? (fuel + 1) (depth + 1) text = some (.arr elements, after) := by
  simp [value?, hSkip, hFirst, hc, h]

theorem value?_emptyObject (hSkip : skipSpace text = '\x7b' :: rest) {after : List Char}
    (h : skipSpace rest = '\x7d' :: after) :
    value? (fuel + 1) (depth + 1) text = some (.obj [], after) := by
  simp [value?, hSkip, h]

theorem value?_object (hSkip : skipSpace text = '\x7b' :: rest) {c : Char} {more : List Char}
    (hFirst : skipSpace rest = c :: more) (hc : c ≠ '\x7d') {members : List (String × Json)}
    {after : List Char} (h : members? fuel depth rest = some (members, after)) :
    value? (fuel + 1) (depth + 1) text = some (.obj members, after) := by
  simp [value?, hSkip, hFirst, hc, h]

end Value

/-- The reader takes the text as the part, whatever follows, if its bound is not below the length of
the text. -/
def Reads (depth : Nat) : Part → List Char → Prop
  | .value value, text => ∀ fuel gap rest, text.length ≤ fuel → IsGap gap → EndsNumber rest →
      value? fuel depth (gap ++ (text ++ rest)) = some (value, rest)
  | .elements elements, text => ∀ fuel rest, text.length ≤ fuel →
      elements? fuel depth (text ++ rest) = some (elements, rest)
  | .members members, text => ∀ fuel rest, text.length ≤ fuel →
      members? fuel depth (text ++ rest) = some (members, rest)

/-- To read a value it is enough to read it where the blanks before it have been passed over. -/
theorem reads_value {depth : Nat} {value : Json} {text : List Char} {c : Char} {more : List Char}
    (hText : text = c :: more) (hc : isSpace c = false)
    (h : ∀ fuel gap rest, more.length ≤ fuel → EndsNumber rest →
      skipSpace (gap ++ (text ++ rest)) = c :: (more ++ rest) →
      value? (fuel + 1) depth (gap ++ (text ++ rest)) = some (value, rest)) :
    Reads depth (.value value) text := by
  intro fuel gap rest hFuel hGap hRest
  have hSkip : skipSpace (gap ++ (text ++ rest)) = c :: (more ++ rest) := by
    rw [hText, List.cons_append, skipSpace_gap hGap hc]
  rw [hText, List.length_cons] at hFuel
  obtain ⟨fuel, rfl⟩ : ∃ n, fuel = n + 1 := ⟨fuel - 1, by omega⟩
  exact h fuel gap rest (by omega) hRest hSkip

theorem reads_int (depth : Nat) {n : Int} (hMin : intMin ≤ n) (hMax : n ≤ intMax) :
    Reads depth (.value (.int n)) (intText n) := by
  obtain ⟨c, more, hText, hc⟩ := exists_intText_eq_cons n
  refine reads_value hText (isSpace_of_startsNumber hc) fun fuel gap rest _ hRest hSkip => ?_
  have hNumber := number?_intText hRest hMin hMax
  rw [hText, List.cons_append] at hNumber
  exact value?_number fuel depth hc hSkip hNumber

theorem reads_str (depth : Nat) (text : String) :
    Reads depth (.value (.str text)) (quoted text) := by
  refine reads_value rfl (by decide) fun fuel gap rest _ _ hSkip => ?_
  have hBody := stringBody?_escaped text.toList rest
  rw [List.append_assoc] at hSkip
  have hRead := value?_string fuel depth hSkip hBody
  rwa [String.ofList_toList] at hRead

/-- The elements of an array do not begin with the bracket that closes it. -/
theorem Layout.elements_head {depth : Nat} {elements : List Json} {text : List Char}
    (h : Layout depth (.elements elements) text) (rest : List Char) :
    ∃ c more, skipSpace (text ++ rest) = c :: more ∧ c ≠ ']' := by
  cases h with
  | lastElement hGap hText =>
    obtain ⟨c, more, rfl, hSpace, hc⟩ := hText.head
    rw [List.append_assoc, List.cons_append, List.cons_append, skipSpace_gap hGap hSpace]
    exact ⟨c, _, rfl, hc⟩
  | element hGap hText =>
    obtain ⟨c, more, rfl, hSpace, hc⟩ := hText.head
    rw [List.append_assoc, List.cons_append, List.cons_append, skipSpace_gap hGap hSpace]
    exact ⟨c, _, rfl, hc⟩

/-- The members of an object begin with the quote of a name. -/
theorem Layout.members_head {depth : Nat} {members : List (String × Json)} {text : List Char}
    (h : Layout depth (.members members) text) (rest : List Char) :
    ∃ more, skipSpace (text ++ rest) = '"' :: more := by
  have hQuote : isSpace '"' = false := by decide
  cases h with
  | lastMember name hGap =>
    rw [List.append_assoc, quoted, List.cons_append, List.cons_append, skipSpace_gap hGap hQuote]
    exact ⟨_, rfl⟩
  | member name hGap =>
    rw [List.append_assoc, quoted, List.cons_append, List.cons_append, skipSpace_gap hGap hQuote]
    exact ⟨_, rfl⟩

/-- A mark that may stand behind an element or a member. -/
def IsMark (c : Char) : Prop :=
  c = ',' ∨ c = ']' ∨ c = '\x7d'

/-- A value between blanks is read up to the blanks behind it, and these up to the mark. -/
theorem Reads.up_to_mark {depth : Nat} {value : Json} {gap text gap' : List Char}
    (h : Reads depth (.value value) text) (fuel : Nat) (c : Char) (hGap : IsGap gap)
    (hGap' : IsGap gap') (hc : IsMark c) (hFuel : text.length ≤ fuel) (rest : List Char) :
    value? fuel depth (gap ++ (text ++ (gap' ++ c :: rest))) = some (value, gap' ++ c :: rest) ∧
      skipSpace (gap' ++ c :: rest) = c :: rest := by
  have hEnds : EndsNumber (c :: rest) := by
    rcases hc with rfl | rfl | rfl <;>
      exact endsNumber_cons (by decide) (by decide) (by decide) (by decide) rest
  have hSpace : isSpace c = false := by rcases hc with rfl | rfl | rfl <;> decide
  exact ⟨h fuel gap _ hFuel hGap (endsNumber_gap hGap' hEnds), skipSpace_gap hGap' hSpace rest⟩

/-- The front of a member, up to its value. -/
theorem members?_name {gap : List Char} (hGap : IsGap gap) (name : String) (rest : List Char) :
    ∃ inside, skipSpace (gap ++ (quoted name ++ ':' :: rest)) = '"' :: inside ∧
      stringBody? inside = some (name.toList, ':' :: rest) := by
  refine ⟨name.toList.flatMap escape ++ '"' :: ':' :: rest, ?_, stringBody?_escaped _ _⟩
  rw [quoted, List.cons_append, skipSpace_gap hGap (by decide), List.append_assoc]
  rfl

theorem skipSpace_colon (rest : List Char) : skipSpace (':' :: rest) = ':' :: rest :=
  skipSpace_gap isGap_nil (by decide) rest

/-- **The reader takes every layout.** -/
theorem Layout.reads {depth : Nat} {part : Part} {text : List Char} (h : Layout depth part text) :
    Reads depth part text := by
  induction h with
  | null depth =>
    refine reads_value rfl (by decide) fun fuel gap rest _ _ hSkip => ?_
    rw [value?, hSkip]
    rfl
  | yes depth =>
    refine reads_value rfl (by decide) fun fuel gap rest _ _ hSkip => ?_
    rw [value?, hSkip]
    rfl
  | no depth =>
    refine reads_value rfl (by decide) fun fuel gap rest _ _ hSkip => ?_
    rw [value?, hSkip]
    rfl
  | int depth hMin hMax => exact reads_int depth hMin hMax
  | str depth text => exact reads_str depth text
  | emptyArray depth hGap =>
    refine reads_value rfl (by decide) fun fuel gap rest _ _ hSkip => ?_
    refine value?_emptyArray fuel depth hSkip ?_
    rw [List.append_assoc, List.singleton_append, skipSpace_gap hGap (by decide)]
  | array hText ih =>
    refine reads_value rfl (by decide) fun fuel gap rest hFuel _ hSkip => ?_
    obtain ⟨c, more, hFirst, hc⟩ := hText.elements_head rest
    exact value?_array fuel _ hSkip hFirst hc (ih fuel rest hFuel)
  | emptyObject depth hGap =>
    refine reads_value rfl (by decide) fun fuel gap rest _ _ hSkip => ?_
    refine value?_emptyObject fuel depth hSkip ?_
    rw [List.append_assoc, List.singleton_append, skipSpace_gap hGap (by decide)]
  | object hText ih =>
    refine reads_value rfl (by decide) fun fuel gap rest hFuel _ hSkip => ?_
    obtain ⟨more, hFirst⟩ := hText.members_head rest
    exact value?_object fuel _ hSkip hFirst (by decide) (ih fuel rest hFuel)
  | @lastElement depth value gap text gap' hGap hText hGap' ih =>
    intro fuel rest hFuel
    simp only [List.length_append, List.length_cons, List.length_nil] at hFuel
    obtain ⟨fuel, rfl⟩ : ∃ n, fuel = n + 1 := ⟨fuel - 1, by omega⟩
    obtain ⟨hValue, hMark⟩ :=
      ih.up_to_mark fuel ']' hGap hGap' (by simp [IsMark]) (by omega) rest
    simp only [List.append_assoc, List.singleton_append, elements?, hValue, hMark]
  | @element depth value elements gap text gap' more hGap hText hGap' hMore ih ihMore =>
    intro fuel rest hFuel
    simp only [List.length_append, List.length_cons] at hFuel
    obtain ⟨fuel, rfl⟩ : ∃ n, fuel = n + 1 := ⟨fuel - 1, by omega⟩
    obtain ⟨hValue, hMark⟩ :=
      ih.up_to_mark fuel ',' hGap hGap' (by simp [IsMark]) (by omega) (more ++ rest)
    simp only [List.append_assoc, List.cons_append, elements?, hValue, hMark,
      ihMore fuel rest (by omega), Option.map_some]
  | @lastMember depth name value gap between text gap' hGap hBetween hText hGap' ih =>
    intro fuel rest hFuel
    simp only [List.length_append, List.length_cons, List.length_nil] at hFuel
    obtain ⟨fuel, rfl⟩ : ∃ n, fuel = n + 1 := ⟨fuel - 1, by omega⟩
    obtain ⟨hValue, hMark⟩ :=
      ih.up_to_mark fuel '\x7d' hBetween hGap' (by simp [IsMark]) (by omega) rest
    obtain ⟨inside, hName, hBody⟩ :=
      members?_name hGap name (between ++ (text ++ (gap' ++ '\x7d' :: rest)))
    simp only [List.append_assoc, List.cons_append, List.nil_append, members?, hName, hBody,
      skipSpace_colon, hValue, hMark, String.ofList_toList]
  | @member depth name value members gap between text gap' more hGap hBetween hText hGap' hMore ih
      ihMore =>
    intro fuel rest hFuel
    simp only [List.length_append, List.length_cons] at hFuel
    obtain ⟨fuel, rfl⟩ : ∃ n, fuel = n + 1 := ⟨fuel - 1, by omega⟩
    obtain ⟨hValue, hMark⟩ := ih.up_to_mark fuel ',' hBetween hGap'
      (by simp [IsMark]) (by omega) (more ++ rest)
    obtain ⟨inside, hName, hBody⟩ :=
      members?_name hGap name (between ++ (text ++ (gap' ++ ',' :: (more ++ rest))))
    simp only [List.append_assoc, List.cons_append, members?, hName, hBody, skipSpace_colon, hValue,
      hMark, ihMore fuel rest (by omega), Option.map_some, String.ofList_toList]

/-- A whole text that is a layout, but for blanks behind it, is read as its value. -/
theorem read?_of_layout {value : Json} {text gap : List Char}
    (h : Layout nestingLimit (.value value) text) (hGap : IsGap gap) :
    read? (text ++ gap) = some value := by
  have hEnds : EndsNumber gap := by simpa using endsNumber_gap hGap endsNumber_nil
  have hValue := h.reads ((text ++ gap).length + 1) [] gap (by simp; omega) isGap_nil hEnds
  rw [List.nil_append] at hValue
  simp only [read?, hValue, skipSpace_of_isGap hGap, List.isEmpty_nil, if_true]

/-! ## The writers -/

/-- The value has a text that can be read: its integers are in range, no part of it is kept as a
literal, and it nests at most `depth` deep. -/
inductive Writable : Nat → Json → Prop where
  | null (depth : Nat) : Writable depth .null
  | bool (depth : Nat) (b : Bool) : Writable depth (.bool b)
  | int (depth : Nat) {n : Int} (hMin : intMin ≤ n) (hMax : n ≤ intMax) : Writable depth (.int n)
  | str (depth : Nat) (text : String) : Writable depth (.str text)
  | arr {depth : Nat} {elements : List Json} (h : ∀ e ∈ elements, Writable depth e) :
      Writable (depth + 1) (.arr elements)
  | obj {depth : Nat} {members : List (String × Json)} (h : ∀ m ∈ members, Writable depth m.2) :
      Writable (depth + 1) (.obj members)

theorem layout_compactElements {depth : Nat} {element : Json} {elements : List Json}
    (h : ∀ e ∈ element :: elements, Layout depth (.value e) (compactText e)) :
    Layout depth (.elements (element :: elements))
      (compactElements (element :: elements) ++ [']']) := by
  induction elements generalizing element with
  | nil =>
    have hFirst := h element List.mem_cons_self
    exact .lastElement isGap_nil hFirst isGap_nil
  | cons next elements ih =>
    have hFirst := h element List.mem_cons_self
    have hMore := ih fun e he => h e (List.mem_cons_of_mem _ he)
    rw [compactElements, List.append_assoc]
    · exact .element isGap_nil hFirst isGap_nil hMore
    · exact List.cons_ne_nil _ _

theorem layout_compactMembers {depth : Nat} {member : String × Json}
    {members : List (String × Json)}
    (h : ∀ m ∈ member :: members, Layout depth (.value m.2) (compactText m.2)) :
    Layout depth (.members (member :: members))
      (compactMembers (member :: members) ++ ['\x7d']) := by
  induction members generalizing member with
  | nil =>
    have hFirst := h member List.mem_cons_self
    have hText := Layout.lastMember member.1 isGap_nil isGap_nil hFirst isGap_nil
    simpa [compactMembers] using hText
  | cons next members ih =>
    have hFirst := h member List.mem_cons_self
    have hMore := ih fun m hm => h m (List.mem_cons_of_mem _ hm)
    have hText := Layout.member member.1 isGap_nil isGap_nil hFirst isGap_nil hMore
    simpa [compactMembers] using hText

theorem Writable.compact {depth : Nat} {value : Json} (h : Writable depth value) :
    Layout depth (.value value) (compactText value) := by
  induction h with
  | null depth => exact .null depth
  | bool depth b =>
    cases b with
    | false => exact .no depth
    | true => exact .yes depth
  | int depth hMin hMax => exact .int depth hMin hMax
  | str depth text => exact .str depth text
  | @arr depth elements h ih =>
    cases elements with
    | nil => exact .emptyArray depth isGap_nil
    | cons element elements => exact .array (layout_compactElements ih)
  | @obj depth members h ih =>
    cases members with
    | nil => exact .emptyObject depth isGap_nil
    | cons member members => exact .object (layout_compactMembers ih)

theorem isGap_newLine (level : Nat) : IsGap (newLine level) := by
  intro c hc
  rcases List.mem_cons.1 hc with rfl | hc
  · decide
  · rw [List.eq_of_mem_replicate hc]
    decide

theorem layout_prettyElements {depth level : Nat} {gap : List Char} (hGap : IsGap gap)
    {gap' : List Char} (hGap' : IsGap gap') {element : Json} {elements : List Json}
    (h : ∀ e ∈ element :: elements, Layout depth (.value e) (prettyText level e)) :
    Layout depth (.elements (element :: elements))
      (gap ++ (prettyElements level (element :: elements) ++ (gap' ++ [']']))) := by
  induction elements generalizing element gap with
  | nil =>
    have hFirst := h element List.mem_cons_self
    exact .lastElement hGap hFirst hGap'
  | cons next elements ih =>
    have hFirst := h element List.mem_cons_self
    have hMore := ih (isGap_newLine level) fun e he => h e (List.mem_cons_of_mem _ he)
    have hText := Layout.element hGap hFirst isGap_nil hMore
    simpa [prettyElements] using hText

theorem layout_prettyMembers {depth level : Nat} {gap : List Char} (hGap : IsGap gap)
    {gap' : List Char} (hGap' : IsGap gap') {member : String × Json}
    {members : List (String × Json)}
    (h : ∀ m ∈ member :: members, Layout depth (.value m.2) (prettyText level m.2)) :
    Layout depth (.members (member :: members))
      (gap ++ (prettyMembers level (member :: members) ++ (gap' ++ ['\x7d']))) := by
  have hSpace : IsGap [' '] := fun c hc => by
    rw [List.mem_singleton.1 hc]
    decide
  induction members generalizing member gap with
  | nil =>
    have hFirst := h member List.mem_cons_self
    have hText := Layout.lastMember member.1 hGap hSpace hFirst hGap'
    simpa [prettyMembers] using hText
  | cons next members ih =>
    have hFirst := h member List.mem_cons_self
    have hMore := ih (isGap_newLine level) fun m hm => h m (List.mem_cons_of_mem _ hm)
    have hText := Layout.member member.1 hGap hSpace hFirst isGap_nil hMore
    simpa [prettyMembers] using hText

theorem Writable.pretty {depth : Nat} {value : Json} (h : Writable depth value) (level : Nat) :
    Layout depth (.value value) (prettyText level value) := by
  induction h generalizing level with
  | null depth => exact .null depth
  | bool depth b =>
    cases b with
    | false => exact .no depth
    | true => exact .yes depth
  | int depth hMin hMax => exact .int depth hMin hMax
  | str depth text => exact .str depth text
  | @arr depth elements h ih =>
    cases elements with
    | nil => exact .emptyArray depth isGap_nil
    | cons element elements =>
      have hText := layout_prettyElements (isGap_newLine (level + 1)) (isGap_newLine level)
        fun e he => ih e he (level + 1)
      rw [prettyText, List.append_assoc, List.append_assoc]
      exact .array hText
  | @obj depth members h ih =>
    cases members with
    | nil => exact .emptyObject depth isGap_nil
    | cons member members =>
      have hText := layout_prettyMembers (isGap_newLine (level + 1)) (isGap_newLine level)
        fun m hm => ih m hm (level + 1)
      rw [prettyText, List.append_assoc, List.append_assoc]
      exact .object hText

end Homonym.Json
