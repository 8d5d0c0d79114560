import Homonym.Proofs.Toml.Values

/-!
# A document of TOML read back

A document here has lines with a key and a value, and then one table with such lines of its own.
Every `Line` carries the proofs that its key needs no marks and that its value is read back. The
reader takes a document for the dictionary of its lines (`parse?_document`), if no key is given
twice.

The reader has a bound on the number of lines, which is at first the length of the text. `Loads`
hides it: a text that is shorter than the bound is read to its end, and every line is shorter than
what it leaves (`Loads.line`, `Loads.lines`).
-/

namespace Homonym

/-! ## Entries by key -/

namespace Value

variable {α β : Type}

theorem get?_cons (key k : String) (v : α) (rest : List (String × α)) :
    get? key ((k, v) :: rest) = if k = key then some v else get? key rest := by
  by_cases hKey : k = key <;> simp [get?, hKey]

theorem get?_insert_self (key : String) (value : α) (entries : List (String × α)) :
    get? key (insert key value entries) = some value := by
  induction entries with
  | nil => simp [insert, get?_cons]
  | cons e rest ih =>
    obtain ⟨k, v⟩ := e
    rw [insert]
    split
    · simp [get?_cons]
    · split
      · simp [get?_cons]
      · rename_i hKey _
        rw [get?_cons, if_neg hKey, ih]

theorem get?_insert_of_ne {key other : String} (hNe : key ≠ other) (value : α)
    (entries : List (String × α)) : get? key (insert other value entries) = get? key entries := by
  induction entries with
  | nil => rw [insert, get?_cons, if_neg hNe.symm]
  | cons e rest ih =>
    obtain ⟨k, v⟩ := e
    rw [insert]
    split
    · rename_i hKey
      rw [get?_cons, get?_cons, if_neg hNe.symm, if_neg (hKey ▸ hNe.symm)]
    · split
      · rw [get?_cons, if_neg hNe.symm]
      · rw [get?_cons, get?_cons, ih]

theorem insert_insert (key : String) (first second : α) (entries : List (String × α)) :
    insert key second (insert key first entries) = insert key second entries := by
  induction entries with
  | nil => simp [insert]
  | cons e rest ih =>
    obtain ⟨k, v⟩ := e
    by_cases hKey : k = key
    · simp [insert, hKey]
    · by_cases hLess : key < k
      · simp [insert, hKey, hLess]
      · simp [insert, hKey, hLess, ih]

end Value

namespace Toml

theorem valuesOf_insert (key : String) (item : Item) (entries : Entries) :
    valuesOf (Value.insert key item entries) =
      Value.insert key item.toValue (valuesOf entries) := by
  induction entries with
  | nil => simp [Value.insert, valuesOf]
  | cons e rest ih =>
    obtain ⟨k, v⟩ := e
    by_cases hKey : k = key
    · simp [Value.insert, valuesOf, hKey]
    · by_cases hLess : key < k
      · simp [Value.insert, valuesOf, hKey, hLess]
      · simp [Value.insert, valuesOf, hKey, hLess, ih]

/-! ## Lines -/

/-- The key needs no marks. -/
def isBare (key : String) : Bool :=
  !key.isEmpty && key.toList.all isKeyPart

/-- A line of a document: a key, the text of its value and the value. -/
structure Line where
  key : String
  text : String
  value : Value
  bare : isBare key = true
  written : Written text.toList value

namespace Line

/-- The line as a text. -/
def chars (l : Line) : List Char :=
  (entry l.key l.text).toList

/-- The line as an entry. -/
def pair (l : Line) : String × Value :=
  (l.key, l.value)

end Line

/-- The entries of a table with those of some lines added. -/
def addAll (all : List Line) (entries : Entries) : Entries :=
  all.foldl (fun entries l => Value.insert l.key (.value l.value) entries) entries

theorem isBare_iff {key : String} :
    isBare key = true ↔ key.toList ≠ [] ∧ ∀ c ∈ key.toList, isKeyPart c = true := by
  simp [isBare]

/-- A character of a key without marks means nothing else. -/
theorem ne_of_isKeyPart {c d : Char} (hKey : isKeyPart c = true) (hOther : isKeyPart d = false) :
    c ≠ d := by
  rintro rfl
  rw [hKey] at hOther
  cases hOther

theorem isBlank_of_isKeyPart {c : Char} (hKey : isKeyPart c = true) : isBlank c = false := by
  simp [isBlank, ne_of_isKeyPart (d := ' ') hKey (by decide),
    ne_of_isKeyPart (d := '\t') hKey (by decide)]

theorem exists_bare {key : String} (hBare : isBare key = true) :
    ∃ c more, key.toList = c :: more ∧ isKeyPart c = true := by
  obtain ⟨hSome, hParts⟩ := isBare_iff.1 hBare
  obtain ⟨c, more, hText⟩ := List.exists_cons_of_ne_nil hSome
  exact ⟨c, more, hText, hParts c (by simp [hText])⟩

theorem key?_bare {key : String} (hBare : isBare key = true) {rest : List Char}
    (hRest : ∀ c, rest.head? = some c → isKeyPart c = false)
    (hDot : (skipBlanks rest).head? ≠ some '.') :
    key? (key.toList ++ rest) = some ([], key, skipBlanks rest) := by
  obtain ⟨c, more, hText, hFirst⟩ := exists_bare hBare
  have hParts := (isBare_iff.1 hBare).2
  have hBlanks : skipBlanks (key.toList ++ rest) = key.toList ++ rest := by
    rw [hText, List.cons_append, skipBlanks, List.dropWhile_cons_of_neg]
    simp [isBlank_of_isKeyPart hFirst]
  have hNoString : lineString? (key.toList ++ rest) = none := by
    rw [hText, List.cons_append]
    unfold lineString?
    split
    · rename_i hMark
      exact absurd (List.cons.inj hMark).1 (ne_of_isKeyPart hFirst (by decide))
    · rename_i hMark
      exact absurd (List.cons.inj hMark).1 (ne_of_isKeyPart hFirst (by decide))
    · rfl
  have hTake : (key.toList ++ rest).takeWhile isKeyPart = key.toList := by
    rw [List.takeWhile_append_of_pos hParts]
    cases rest with
    | nil => simp
    | cons d rest => simp [hRest d rfl]
  have hDrop : (key.toList ++ rest).dropWhile isKeyPart = rest := by
    rw [List.dropWhile_append_of_pos hParts]
    cases rest with
    | nil => rfl
    | cons d rest => simp [hRest d rfl]
  have hPart : keyPart? (key.toList ++ rest) = some (key.toList, rest) := by
    rw [keyPart?, hNoString, hTake, hDrop, hText]
  have hKeys : keyParts? depthLimit (key.toList ++ rest) = some ([key], skipBlanks rest) := by
    rw [depthLimit, keyParts?, hBlanks, hPart]
    simp only [String.ofList_toList]
    split
    · rename_i hMore
      simp [hMore] at hDot
    · rfl
  rw [key?, hKeys]
  rfl

theorem Line.chars_append (l : Line) (rest : List Char) :
    l.chars ++ rest =
      l.key.toList ++ ' ' :: '=' :: ' ' :: (l.text.toList ++ '\n' :: rest) := by
  simp [Line.chars, entry]

theorem keyValue?_line (l : Line) (bound : Nat) (hBound : l.text.toList.length ≤ bound)
    (rest : List Char) : keyValue? bound (l.chars ++ rest) = some ([], l.key, l.value, rest) := by
  obtain ⟨c, more, hText, hBlank⟩ := l.written.head
  have hKey : key? (l.chars ++ rest) =
      some ([], l.key, '=' :: ' ' :: (l.text.toList ++ '\n' :: rest)) := by
    rw [l.chars_append, key?_bare l.bare]
    · rfl
    · rintro d hHead
      cases hHead
      decide
    · exact fun hDot => by cases hDot
  have hSkip : skipBlanks (' ' :: (l.text.toList ++ '\n' :: rest)) =
      l.text.toList ++ '\n' :: rest := by
    have hSpace : isBlank ' ' = true := by decide
    rw [skipBlanks, List.dropWhile_cons_of_pos hSpace, hText, List.cons_append,
      List.dropWhile_cons_of_neg (by simp [hBlank])]
  simp only [keyValue?, hKey, hSkip, l.written.read bound rest hBound]
  rfl

/-! ## Reading to the end -/

/-- A text is read to its end, under a header and into a table. -/
def Loads (under : List String) (root : Entries) (text : List Char) (out : Entries) : Prop :=
  ∀ bound, text.length < bound → lines? bound under root text = some out

namespace Loads

variable {under : List String} {root next out : Entries} {rest : List Char}

theorem done : Loads under root [] root := by
  intro bound hBound
  obtain ⟨fuel, rfl⟩ : ∃ fuel, bound = fuel + 1 := ⟨bound - 1, by omega⟩
  rfl

theorem line (l : Line) (hAdd : addUnder under [] l.key l.value root = some next)
    (hRest : Loads under next rest out) : Loads under root (l.chars ++ rest) out := by
  intro bound hBound
  obtain ⟨fuel, rfl⟩ : ∃ fuel, bound = fuel + 1 := ⟨bound - 1, by omega⟩
  -- The bound goes down by one for the line, and the line is longer than that.
  have hLength : (l.chars ++ rest).length =
      l.key.toList.length + 3 + l.text.toList.length + 1 + rest.length := by
    rw [l.chars_append]
    simp only [List.length_append, List.length_cons]
    omega
  have hRead := keyValue?_line l fuel (by omega) rest
  have hLoad := hRest fuel (by omega)
  obtain ⟨c, more, hText, hFirst⟩ := exists_bare l.bare
  rw [l.chars_append, hText, List.cons_append] at hRead ⊢
  have hSkip : ∀ tail, skipBlanks (c :: tail) = c :: tail := fun tail =>
    List.dropWhile_cons_of_neg (by simp [isBlank_of_isKeyPart hFirst])
  have hPlain : ¬(c = '#' ∨ c = '\n' ∨ c = '\r') := by
    rintro (rfl | rfl | rfl) <;> cases hFirst
  have hHeader : c ≠ '[' := ne_of_isKeyPart hFirst (by decide)
  rw [lines?, hSkip]
  split
  · rename_i hNil
    cases hNil
  · rename_i hOpen
    exact absurd (List.cons.inj hOpen).1 hHeader
  · rename_i hCons
    cases hCons
    rw [if_neg hPlain, hRead]
    simp only [hAdd, hLoad]

theorem gap (hRest : Loads under root rest out) : Loads under root ('\n' :: rest) out := by
  intro bound hBound
  obtain ⟨fuel, rfl⟩ : ∃ fuel, bound = fuel + 1 := ⟨bound - 1, by omega⟩
  exact hRest fuel (by simp at hBound; omega)

theorem header {name : String} (hBare : isBare name = true)
    (hState : stateTable [] name root = some next) (hRest : Loads [name] next rest out) :
    Loads under root ('[' :: (name.toList ++ ']' :: '\n' :: rest)) out := by
  intro bound hBound
  obtain ⟨fuel, rfl⟩ : ∃ fuel, bound = fuel + 1 := ⟨bound - 1, by omega⟩
  have hLoad := hRest fuel (by simp at hBound; omega)
  have hKey : key? (name.toList ++ ']' :: '\n' :: rest) = some ([], name, ']' :: '\n' :: rest) := by
    rw [key?_bare hBare]
    · rfl
    · rintro d hHead
      cases hHead
      decide
    · exact fun hDot => by cases hDot
  have hHeader : header? ('[' :: (name.toList ++ ']' :: '\n' :: rest)) =
      some (false, [], name, rest) := by
    obtain ⟨c, more, hText, hFirst⟩ := exists_bare hBare
    rw [header?]
    · simp only [hKey]
      rfl
    · intro tail hTail
      rw [hText] at hTail
      exact ne_of_isKeyPart hFirst (by decide) (List.cons.inj hTail).1
  have hSkip : skipBlanks ('[' :: (name.toList ++ ']' :: '\n' :: rest)) =
      '[' :: (name.toList ++ ']' :: '\n' :: rest) :=
    List.dropWhile_cons_of_neg (by decide)
  rw [lines?, hSkip]
  simp only [hHeader, Bool.false_eq_true, if_false, hState, List.nil_append, hLoad]

/-- Lines are added to the table under the header, one after the other. `wrap` puts that table
where the header says. -/
theorem lines (wrap : Entries → Entries)
    (hAdd : ∀ key value inner, Value.get? key inner = none →
      addUnder under [] key value (wrap inner) =
        some (wrap (Value.insert key (.value value) inner)))
    (all : List Line) (hKeys : (all.map Line.key).Nodup) {inner : Entries}
    (hFresh : ∀ l ∈ all, Value.get? l.key inner = none)
    (hRest : Loads under (wrap (addAll all inner)) rest out) :
    Loads under (wrap inner) (all.flatMap Line.chars ++ rest) out := by
  induction all generalizing inner with
  | nil => exact hRest
  | cons l all ih =>
    rw [List.map_cons, List.nodup_cons] at hKeys
    rw [List.flatMap_cons, List.append_assoc]
    refine line l (hAdd l.key l.value inner (hFresh l (by simp))) (ih hKeys.2 ?_ hRest)
    intro other hMem
    have hNe : other.key ≠ l.key := fun hEq => hKeys.1 (hEq ▸ List.mem_map_of_mem hMem)
    rw [Value.get?_insert_of_ne hNe]
    exact hFresh other (by simp [hMem])

end Loads

/-! ## Documents -/

theorem addUnder_top {key : String} (value : Value) {root : Entries}
    (hFresh : Value.get? key root = none) :
    addUnder [] [] key value root = some (Value.insert key (.value value) root) := by
  simp [addUnder, modifyAt, addValue, hFresh]

theorem addUnder_table {name key : String} (value : Value) (root : Entries) {inner : Entries}
    (hFresh : Value.get? key inner = none) :
    addUnder [name] [] key value (Value.insert name (.table .stated inner) root) =
      some (Value.insert name (.table .stated (Value.insert key (.value value) inner)) root) := by
  simp [addUnder, modifyAt, addValue, Value.get?_insert_self, Value.insert_insert, hFresh]

theorem stateTable_top {name : String} {root : Entries} (hFresh : Value.get? name root = none) :
    stateTable [] name root = some (Value.insert name (.table .stated []) root) := by
  simp [stateTable, modifyAt, hFresh]

theorem valuesOf_addAll (all : List Line) (inner : Entries) :
    valuesOf (addAll all inner) =
      (all.map Line.pair).foldl (fun entries e => Value.insert e.1 e.2 entries)
        (valuesOf inner) := by
  induction all generalizing inner with
  | nil => rfl
  | cons l all ih =>
    rw [addAll, List.foldl_cons, ← addAll, ih, valuesOf_insert]
    rfl

theorem get?_addAll {name : String} {all : List Line} (hNew : ∀ l ∈ all, name ≠ l.key)
    (inner : Entries) : Value.get? name (addAll all inner) = Value.get? name inner := by
  induction all generalizing inner with
  | nil => rfl
  | cons l all ih =>
    rw [addAll, List.foldl_cons, ← addAll, ih fun m hm => hNew m (by simp [hm]),
      Value.get?_insert_of_ne (hNew l (by simp))]

/-- A document with one table behind its own lines. -/
def documentChars (top : List Line) (name : String) (inner : List Line) : List Char :=
  top.flatMap Line.chars ++ '\n' :: '[' :: (name.toList ++ ']' :: '\n' :: inner.flatMap Line.chars)

theorem dropMark_document (top : List Line) (name : String) (inner : List Line) :
    dropMark (documentChars top name inner) = documentChars top name inner := by
  have hKeep : ∀ c rest, c ≠ '\uFEFF' → dropMark (c :: rest) = c :: rest := by
    intro c rest hMark
    rw [dropMark]
    exact fun _ hEq => hMark (List.cons.inj hEq).1
  cases top with
  | nil => exact hKeep '\n' _ (by decide)
  | cons l top =>
    obtain ⟨c, more, hText, hFirst⟩ := exists_bare l.bare
    have hLead : ∃ rest, documentChars (l :: top) name inner = c :: rest := by
      rw [documentChars, List.flatMap_cons, List.append_assoc, l.chars_append, hText]
      exact ⟨_, rfl⟩
    obtain ⟨rest, hLead⟩ := hLead
    rw [hLead, hKeep c rest (ne_of_isKeyPart hFirst (by decide))]

/-- **A document is read back.** -/
theorem parse?_document {top inner : List Line} {name : String} (hBare : isBare name = true)
    (hKeys : (top.map Line.key ++ [name]).Nodup) (hInner : (inner.map Line.key).Nodup) :
    parse? (documentChars top name inner) =
      some (Value.ofList (top.map Line.pair ++
        [(name, .dict (Value.ofList (inner.map Line.pair)))])) := by
  obtain ⟨hTop, -, hApart⟩ := List.nodup_append.1 hKeys
  have hNew : ∀ l ∈ top, name ≠ l.key := fun l hMem =>
    (hApart l.key (List.mem_map_of_mem hMem) name (by simp)).symm
  have hFresh : Value.get? name (addAll top []) = none := get?_addAll hNew []
  have hInside : Loads [name] (Value.insert name (.table .stated []) (addAll top []))
      (inner.flatMap Line.chars ++ [])
      (Value.insert name (.table .stated (addAll inner [])) (addAll top [])) :=
    Loads.lines (fun table => Value.insert name (.table .stated table) (addAll top []))
      (fun key value table hFresh => addUnder_table value _ hFresh) inner hInner
      (fun _ _ => rfl) Loads.done
  rw [List.append_nil] at hInside
  have hLoads : Loads [] [] (documentChars top name inner)
      (Value.insert name (.table .stated (addAll inner [])) (addAll top [])) :=
    Loads.lines id (fun key value table hFresh => addUnder_top value hFresh) top hTop
      (fun _ _ => rfl) (.gap (.header hBare (stateTable_top hFresh) hInside))
  rw [parse?, dropMark_document, hLoads _ (Nat.lt_succ_self _), Option.map_some, valuesOf_insert,
    Item.toValue, valuesOf_addAll, valuesOf_addAll, Value.ofList, List.foldl_append]
  rfl

end Toml

end Homonym
