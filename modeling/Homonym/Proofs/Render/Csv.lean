import Mathlib.Tactic.SplitIfs
import Mathlib.Tactic.Tauto
import Homonym.Render.Csv

/-!
# Reports come back from comma-separated values

The format is given twice here, and both times without the writer. `TableText` is its grammar: a
table is a row of records that line feeds end, a record is a row of fields that commas divide, and a
field stands as it is or in quotes, where its own quotes are doubled. `read?` is a reader for it, an
automaton that takes one character at a time and knows of the text no more than the field, the
record and the table that it has read so far.

* `read?_eq_some_iff`: the reader finds a table exactly where the grammar derives it. So a text is
  read in one way only, and what is no text of the format is refused.
* `tableText_records`: what the writer puts out is a text of the format.
* `csv_reads_back`: a report is read as its header and one record per location.

A field may hold commas, quotes and line ends. The reader is in step again behind every field all
the same (`FieldText.run_start`): a bare field holds none of them, and in a quoted one only a quote
that stands alone can end it. Conversely, what the reader has taken in is at every moment a row of
ended records and fields and the front of a field (`Reader.step_cases`).
-/

namespace Homonym.Render.Csv

/-! ## The format -/

/-- The characters that a field without quotes does not hold. -/
def marks : List Char :=
  [',', '"', '\n', '\r']

/-- The text between the quotes of a field: every quote of the field is there twice. -/
inductive QuotedBody : List Char → List Char → Prop where
  | nil : QuotedBody [] []
  | quote {value body : List Char} (h : QuotedBody value body) :
      QuotedBody ('"' :: value) ('"' :: '"' :: body)
  | other {c : Char} {value body : List Char} (hc : c ≠ '"') (h : QuotedBody value body) :
      QuotedBody (c :: value) (c :: body)

/-- The text of a field. -/
inductive FieldText : List Char → List Char → Prop where
  | bare {value : List Char} (h : ∀ c ∈ value, c ∉ marks) : FieldText value value
  | quoted {value body : List Char} (h : QuotedBody value body) :
      FieldText value ('"' :: (body ++ ['"']))

/-- The text of a record, which has one field at least. -/
inductive RecordText : List String → List Char → Prop where
  | last {value : String} {text : List Char} (h : FieldText value.toList text) :
      RecordText [value] text
  | more {value : String} {text : List Char} {values : List String} {rest : List Char}
      (h : FieldText value.toList text) (hRest : RecordText values rest) :
      RecordText (value :: values) (text ++ ',' :: rest)

/-- The text of a table. A line feed ends every record; it may be missing behind the last one. -/
inductive TableText : List (List String) → List Char → Prop where
  | nil : TableText [] []
  | unended {record : List String} {text : List Char} (h : RecordText record text)
      (hText : text ≠ []) : TableText [record] text
  | cons {record : List String} {text : List Char} {records : List (List String)}
      {rest : List Char} (h : RecordText record text) (hRest : TableText records rest) :
      TableText (record :: records) (text ++ '\n' :: rest)

/-! ## The reader -/

/-- Where in a field the reader is. -/
inductive Mode where
  /-- In front of the field. -/
  | start
  /-- In a field without quotes. -/
  | bare
  /-- Between the quotes of a field. -/
  | quoted
  /-- Behind a quote that ends the field, unless another one follows. -/
  | closing
deriving DecidableEq

/-- What the reader has read. -/
structure Reader where
  mode : Mode := .start
  /-- The open field, as far as it has been read. -/
  field : List Char := []
  /-- The fields of the open record in front of the open field. -/
  fields : List String := []
  records : List (List String) := []

namespace Reader

/-- One character more of the open field. -/
def take (r : Reader) (mode : Mode) (c : Char) : Reader :=
  { r with mode, field := r.field ++ [c] }

/-- A comma: the field is over. -/
def endField (r : Reader) : Reader :=
  { r with mode := .start, field := [], fields := r.fields ++ [String.ofList r.field] }

/-- A line feed: the record is over, and its last field with it. -/
def endRecord (r : Reader) : Reader :=
  { records := r.records ++ [r.fields ++ [String.ofList r.field]] }

/-- A character in front of a field without quotes or in it. -/
def stepBare (r : Reader) (c : Char) : Option Reader :=
  if c = ',' then some r.endField
  else if c = '\n' then some r.endRecord
  else if c = '"' ∨ c = '\r' then none
  else some (r.take .bare c)

/-- One character more, if it may stand here. -/
def step (r : Reader) (c : Char) : Option Reader :=
  match r.mode with
  | .start => if c = '"' then some { r with mode := .quoted } else r.stepBare c
  | .bare => r.stepBare c
  | .quoted => some (if c = '"' then { r with mode := .closing } else r.take .quoted c)
  | .closing =>
    if c = '"' then some (r.take .quoted c)
    else if c = ',' then some r.endField
    else if c = '\n' then some r.endRecord
    else none

/-- Some more text. -/
def run (r : Reader) (text : List Char) : Option Reader :=
  text.foldlM step r

/-- The records at the end of the text. A record that has begun is over as well, but no text ends
between quotes. -/
def finish (r : Reader) : Option (List (List String)) :=
  match r.mode with
  | .quoted => none
  | .start => some (if r.fields = [] then r.records else r.endRecord.records)
  | .bare | .closing => some r.endRecord.records

end Reader

/-- The table that a text holds. -/
def read? (text : String) : Option (List (List String)) :=
  (Reader.run {} text.toList).bind Reader.finish

/-! ## The reader follows the grammar -/

namespace Reader

theorem run_cons {r next : Reader} {c : Char} (h : r.step c = some next) (text : List Char) :
    r.run (c :: text) = next.run text := by
  rw [run, List.foldlM_cons, h]
  rfl

theorem run_append {r next : Reader} {text : List Char} (h : r.run text = some next)
    (rest : List Char) : r.run (text ++ rest) = next.run rest := by
  rw [run] at h
  rw [run, List.foldlM_append, h]
  rfl

/-- Wherever a field may end, a comma ends it. -/
theorem step_comma {r : Reader} (h : r.mode ≠ .quoted) : r.step ',' = some r.endField := by
  obtain ⟨mode, field, fields, records⟩ := r
  cases mode with
  | quoted => exact absurd rfl h
  | _ => rfl

theorem step_lineFeed {r : Reader} (h : r.mode ≠ .quoted) : r.step '\n' = some r.endRecord := by
  obtain ⟨mode, field, fields, records⟩ := r
  cases mode with
  | quoted => exact absurd rfl h
  | _ => rfl

theorem stepBare_of_not_mem {c : Char} (hc : c ∉ marks) (r : Reader) :
    r.stepBare c = some (r.take .bare c) := by
  simp only [marks, List.mem_cons, List.not_mem_nil, or_false, not_or] at hc
  simp only [stepBare, hc, if_false, or_self]

variable (field : List Char) (fields : List String) (records : List (List String))

theorem run_bare {value : List Char} (h : ∀ c ∈ value, c ∉ marks) :
    run ⟨.bare, field, fields, records⟩ value =
      some ⟨.bare, field ++ value, fields, records⟩ := by
  induction value generalizing field with
  | nil =>
    rw [List.append_nil]
    rfl
  | cons c value ih =>
    obtain ⟨hc, hRest⟩ := List.forall_mem_cons.1 h
    have hStep : step ⟨.bare, field, fields, records⟩ c =
        some ⟨.bare, field ++ [c], fields, records⟩ := stepBare_of_not_mem hc _
    have hMore := ih (field ++ [c]) hRest
    rw [List.append_assoc] at hMore
    rw [run_cons hStep]
    exact hMore

end Reader

open Reader

theorem QuotedBody.run_quoted {value body : List Char} (h : QuotedBody value body)
    (field : List Char) (fields : List String) (records : List (List String)) :
    run ⟨.quoted, field, fields, records⟩ body =
      some ⟨.quoted, field ++ value, fields, records⟩ := by
  induction h generalizing field with
  | nil =>
    rw [List.append_nil]
    rfl
  | quote _ ih =>
    have hMore := ih (field ++ ['"'])
    rw [List.append_assoc] at hMore
    exact hMore
  | @other c value body hc _ ih =>
    have hStep : step ⟨.quoted, field, fields, records⟩ c =
        some ⟨.quoted, field ++ [c], fields, records⟩ := by
      simp only [step, hc, if_false, Reader.take]
    have hMore := ih (field ++ [c])
    rw [List.append_assoc] at hMore
    rw [run_cons hStep]
    exact hMore

/-- Behind the text of a field the reader has the field, and a comma or line feed may follow. -/
theorem FieldText.run_start {value text : List Char} (h : FieldText value text)
    (fields : List String) (records : List (List String)) :
    ∃ mode, run ⟨.start, [], fields, records⟩ text = some ⟨mode, value, fields, records⟩ ∧
      mode ≠ .quoted ∧ (mode = .start → text = []) := by
  cases h with
  | bare h =>
    cases value with
    | nil => exact ⟨.start, rfl, by decide, fun _ => rfl⟩
    | cons c value =>
      obtain ⟨hc, hRest⟩ := List.forall_mem_cons.1 h
      have hQuote : c ≠ '"' := by
        rintro rfl
        exact hc (by decide)
      have hStep : step ⟨.start, [], fields, records⟩ c =
          some ⟨.bare, [c], fields, records⟩ := by
        simp only [step, hQuote, if_false]
        exact stepBare_of_not_mem hc _
      refine ⟨.bare, ?_, by decide, fun hMode => by cases hMode⟩
      rw [run_cons hStep]
      exact run_bare [c] fields records hRest
  | quoted h =>
    refine ⟨.closing, ?_, by decide, fun hMode => by cases hMode⟩
    exact run_append (h.run_quoted [] fields records) ['"']

/-- Behind the text of a record the reader has its last field open and the others before it. -/
theorem RecordText.run_start {record : List String} {text : List Char} (h : RecordText record text)
    (fields : List String) (records : List (List String)) :
    ∃ mode last front, record = front ++ [String.ofList last] ∧
      run ⟨.start, [], fields, records⟩ text = some ⟨mode, last, fields ++ front, records⟩ ∧
      mode ≠ .quoted ∧ (mode = .start → front = [] → text = []) := by
  induction h generalizing fields with
  | @last value text h =>
    obtain ⟨mode, hRun, hMode, hEmpty⟩ := h.run_start fields records
    refine ⟨mode, value.toList, [], ?_, ?_, hMode, fun hStart _ => hEmpty hStart⟩
    · rw [String.ofList_toList, List.nil_append]
    · rw [hRun, List.append_nil]
  | @more value text values rest h _ ih =>
    obtain ⟨mode, hRun, hMode, -⟩ := h.run_start fields records
    obtain ⟨mode', last, front, rfl, hRest, hMode', -⟩ := ih (fields ++ [value])
    refine ⟨mode', last, value :: front, rfl, ?_, hMode', fun _ hFront => by cases hFront⟩
    rw [run_append hRun, run_cons (step_comma hMode), endField, String.ofList_toList, hRest,
      List.append_assoc]
    rfl

/-- **The reader finds the table of every text of the grammar.** -/
theorem TableText.run_finish {table : List (List String)} {text : List Char}
    (h : TableText table text) (records : List (List String)) :
    (run { records } text).bind finish = some (records ++ table) := by
  induction h generalizing records with
  | nil =>
    rw [List.append_nil]
    rfl
  | @unended record text h hText =>
    obtain ⟨mode, last, front, rfl, hRun, hMode, hEmpty⟩ := h.run_start [] records
    rw [hRun, Option.bind_some]
    cases mode with
    | quoted => exact absurd rfl hMode
    | start =>
      have hFront : [] ++ front ≠ [] := fun hNil => hText (hEmpty rfl hNil)
      simp only [finish, hFront, if_false]
      rfl
    | bare => rfl
    | closing => rfl
  | @cons record text table rest h _ ih =>
    obtain ⟨mode, last, front, rfl, hRun, hMode, -⟩ := h.run_start [] records
    have hRest := ih (records ++ [front ++ [String.ofList last]])
    rw [List.append_assoc] at hRest
    rw [run_append hRun, run_cons (step_lineFeed hMode)]
    exact hRest

/-! ## The reader accepts nothing else -/

theorem QuotedBody.append {value value' body body' : List Char} (h : QuotedBody value body)
    (h' : QuotedBody value' body') : QuotedBody (value ++ value') (body ++ body') := by
  induction h with
  | nil => exact h'
  | quote _ ih => exact .quote ih
  | other hc _ ih => exact .other hc ih

/-- The text of the open field so far, by the mode of the reader. -/
inductive OpenText : Mode → List Char → List Char → Prop where
  | start : OpenText .start [] []
  | bare {value : List Char} (h : ∀ c ∈ value, c ∉ marks) (hValue : value ≠ []) :
      OpenText .bare value value
  | quoted {value body : List Char} (h : QuotedBody value body) :
      OpenText .quoted value ('"' :: body)
  | closing {value body : List Char} (h : QuotedBody value body) :
      OpenText .closing value ('"' :: (body ++ ['"']))

/-- The text of the fields of the open record that are over, each with its comma. -/
inductive EndedText : List String → List Char → Prop where
  | nil : EndedText [] []
  | concat {values : List String} {text : List Char} {value : List Char} {more : List Char}
      (h : EndedText values text) (hMore : FieldText value more) :
      EndedText (values ++ [String.ofList value]) (text ++ (more ++ [',']))

theorem OpenText.fieldText {mode : Mode} {value text : List Char} (h : OpenText mode value text)
    (hMode : mode ≠ .quoted) : FieldText value text := by
  cases h with
  | start => exact .bare (List.forall_mem_nil _)
  | bare h _ => exact .bare h
  | quoted _ => exact absurd rfl hMode
  | closing h => exact .quoted h

theorem EndedText.append {values values' : List String} {text text' : List Char}
    (h : EndedText values text) (h' : RecordText values' text') :
    RecordText (values ++ values') (text ++ text') := by
  induction h generalizing values' text' with
  | nil => exact h'
  | @concat values text value more _ hMore ih =>
    have hField : FieldText (String.ofList value).toList more := by
      rwa [String.toList_ofList]
    have hRecord := ih (.more hField h')
    simpa only [List.append_assoc, List.singleton_append] using hRecord

theorem EndedText.recordText {values : List String} {text value more : List Char}
    (h : EndedText values text) (hMore : FieldText value more) :
    RecordText (values ++ [String.ofList value]) (text ++ more) := by
  refine h.append (.last ?_)
  rwa [String.toList_ofList]

theorem EndedText.ne_nil {values : List String} {text : List Char} (h : EndedText values text)
    (hValues : values ≠ []) : text ≠ [] := by
  cases h with
  | nil => exact absurd rfl hValues
  | concat _ _ => simp

namespace Reader

theorem stepBare_cases {r next : Reader} {c : Char} (h : r.stepBare c = some next) :
    (c = ',' ∧ next = r.endField) ∨ (c = '\n' ∧ next = r.endRecord) ∨
    (c ∉ marks ∧ next = r.take .bare c) := by
  rw [stepBare] at h
  split_ifs at h with hComma hFeed hMark <;> cases h
  · exact .inl ⟨hComma, rfl⟩
  · exact .inr (.inl ⟨hFeed, rfl⟩)
  · refine .inr (.inr ⟨?_, rfl⟩)
    simp only [marks, List.mem_cons, List.not_mem_nil, or_false]
    tauto

/-- What one step can do: it ends the field or the record, or it adds to the text of the field. -/
theorem step_cases {r next : Reader} {c : Char} (h : r.step c = some next) :
    (c = ',' ∧ r.mode ≠ .quoted ∧ next = r.endField) ∨
    (c = '\n' ∧ r.mode ≠ .quoted ∧ next = r.endRecord) ∨
    (next.fields = r.fields ∧ next.records = r.records ∧
      ∀ text, OpenText r.mode r.field text → OpenText next.mode next.field (text ++ [c])) := by
  obtain ⟨mode, field, fields, records⟩ := r
  cases mode with
  | start =>
    simp only [step] at h
    split_ifs at h with hQuote
    · cases h
      subst hQuote
      refine .inr (.inr ⟨rfl, rfl, fun text hText => ?_⟩)
      cases hText
      exact .quoted .nil
    · rcases stepBare_cases h with ⟨rfl, rfl⟩ | ⟨rfl, rfl⟩ | ⟨hc, rfl⟩
      · exact .inl ⟨rfl, nofun, rfl⟩
      · exact .inr (.inl ⟨rfl, nofun, rfl⟩)
      · refine .inr (.inr ⟨rfl, rfl, fun text hText => ?_⟩)
        cases hText
        exact .bare (List.forall_mem_singleton.2 hc) (List.cons_ne_nil _ _)
  | bare =>
    rcases stepBare_cases h with ⟨rfl, rfl⟩ | ⟨rfl, rfl⟩ | ⟨hc, rfl⟩
    · exact .inl ⟨rfl, nofun, rfl⟩
    · exact .inr (.inl ⟨rfl, nofun, rfl⟩)
    · refine .inr (.inr ⟨rfl, rfl, fun text hText => ?_⟩)
      cases hText with
      | bare hValue _ =>
        refine .bare (List.forall_mem_append.2 ⟨hValue, List.forall_mem_singleton.2 hc⟩) ?_
        exact List.append_ne_nil_of_right_ne_nil _ (List.cons_ne_nil _ _)
  | quoted =>
    simp only [step, Option.some.injEq] at h
    subst h
    refine .inr (.inr ?_)
    split_ifs with hQuote
    · subst hQuote
      refine ⟨rfl, rfl, fun text hText => ?_⟩
      cases hText with
      | quoted hBody => exact .closing hBody
    · refine ⟨rfl, rfl, fun text hText => ?_⟩
      cases hText with
      | quoted hBody => exact .quoted (hBody.append (.other hQuote .nil))
  | closing =>
    simp only [step] at h
    split_ifs at h with hQuote hComma hFeed <;> cases h
    · subst hQuote
      refine .inr (.inr ⟨rfl, rfl, fun text hText => ?_⟩)
      cases hText with
      | @closing _ body hBody =>
        have hDoubled := hBody.append (.quote .nil)
        show OpenText .quoted _ ('"' :: ((body ++ ['"']) ++ ['"']))
        rw [List.append_assoc]
        exact .quoted hDoubled
    · exact .inl ⟨hComma, nofun, rfl⟩
    · exact .inr (.inl ⟨hFeed, nofun, rfl⟩)

/-- At the end of a text, the open record is over too. -/
theorem tableText_of_finish {r : Reader} {table : List (List String)} {ended opened : List Char}
    (h : r.finish = some table) (hEnded : EndedText r.fields ended)
    (hOpened : OpenText r.mode r.field opened) :
    ∃ more, table = r.records ++ more ∧ TableText more (ended ++ opened) := by
  obtain ⟨mode, field, fields, records⟩ := r
  have hUnended : mode ≠ .quoted → ended ++ opened ≠ [] →
      TableText [fields ++ [String.ofList field]] (ended ++ opened) := fun hMode hText =>
    .unended (hEnded.recordText (hOpened.fieldText hMode)) hText
  cases mode with
  | quoted => cases h
  | start =>
    simp only [finish] at h
    split_ifs at h with hFields <;> cases h
    · subst hFields
      cases hOpened
      have hNil : ended = [] := by
        generalize hValues : ([] : List String) = values at hEnded
        cases hEnded with
        | nil => rfl
        | concat _ _ => simp at hValues
      subst hNil
      exact ⟨[], (List.append_nil _).symm, .nil⟩
    · refine ⟨_, rfl, hUnended (by decide) ?_⟩
      exact List.append_ne_nil_of_left_ne_nil (hEnded.ne_nil hFields) _
  | bare =>
    cases h
    refine ⟨_, rfl, hUnended (by decide) ?_⟩
    cases hOpened with
    | bare _ hValue => exact List.append_ne_nil_of_right_ne_nil _ hValue
  | closing =>
    cases h
    refine ⟨_, rfl, hUnended (by decide) ?_⟩
    cases hOpened with
    | closing _ => exact List.append_ne_nil_of_right_ne_nil _ (List.cons_ne_nil _ _)

theorem tableText_of_run {r : Reader} {rest : List Char} {table : List (List String)}
    {ended opened : List Char} (h : (r.run rest).bind finish = some table)
    (hEnded : EndedText r.fields ended) (hOpened : OpenText r.mode r.field opened) :
    ∃ more, table = r.records ++ more ∧ TableText more (ended ++ opened ++ rest) := by
  induction rest generalizing r ended opened with
  | nil =>
    rw [List.append_nil]
    exact tableText_of_finish h hEnded hOpened
  | cons c rest ih =>
    cases hStep : r.step c with
    | none =>
      rw [run, List.foldlM_cons, hStep] at h
      cases h
    | some next =>
      rw [run_cons hStep] at h
      rcases step_cases hStep with ⟨rfl, hMode, rfl⟩ | ⟨rfl, hMode, rfl⟩ | ⟨hFields, hRecords, hOn⟩
      · have hNext := EndedText.concat hEnded (hOpened.fieldText hMode)
        obtain ⟨more, hTable, hText⟩ := ih h hNext .start
        refine ⟨more, hTable, ?_⟩
        simpa only [List.append_assoc, List.nil_append, List.singleton_append] using hText
      · obtain ⟨more, hTable, hText⟩ := ih h .nil .start
        refine ⟨_ :: more, hTable.trans (List.append_assoc _ _ _), ?_⟩
        exact .cons (hEnded.recordText (hOpened.fieldText hMode)) hText
      · rw [← hFields] at hEnded
        obtain ⟨more, hTable, hText⟩ := ih h hEnded (hOn opened hOpened)
        rw [hRecords] at hTable
        refine ⟨more, hTable, ?_⟩
        simpa only [List.append_assoc, List.singleton_append] using hText

end Reader

/-- **The reader accepts exactly the texts of the format.** -/
theorem read?_eq_some_iff {text : String} {table : List (List String)} :
    read? text = some table ↔ TableText table text.toList := by
  constructor
  · intro h
    obtain ⟨more, rfl, hText⟩ := tableText_of_run h .nil .start
    exact hText
  · intro h
    exact h.run_finish []

/-! ## The writer follows the grammar -/

theorem quotedBody_doubled (value : List Char) : QuotedBody value (doubled value) := by
  induction value with
  | nil => exact .nil
  | cons c value ih =>
    by_cases hc : c = '"'
    · subst hc
      exact .quote ih
    · rw [doubled, if_neg hc]
      exact .other hc ih

theorem isSpecial_of_mem_marks {c : Char} (h : c ∈ marks) : isSpecial c = true := by
  simp only [marks, List.mem_cons, List.not_mem_nil, or_false] at h
  rcases h with rfl | rfl | rfl | rfl <;> rfl

theorem fieldText_field (value : List Char) : FieldText value (field value) := by
  rw [field]
  split
  · exact .quoted (quotedBody_doubled value)
  · rename_i hPlain
    refine .bare fun c hMem hMark => hPlain ?_
    exact List.any_eq_true.2 ⟨c, hMem, isSpecial_of_mem_marks hMark⟩

theorem recordText_fields {record : List String} (h : record ≠ []) :
    RecordText record (fields (record.map String.toList)) := by
  induction record with
  | nil => exact absurd rfl h
  | cons value values ih =>
    cases values with
    | nil => exact .last (fieldText_field _)
    | cons next values => exact .more (fieldText_field _) (ih (List.cons_ne_nil _ _))

theorem tableText_records {table : List (List String)} (h : ∀ record ∈ table, record ≠ []) :
    TableText table (table.flatMap record) := by
  induction table with
  | nil => exact .nil
  | cons values table ih =>
    obtain ⟨hValues, hTable⟩ := List.forall_mem_cons.1 h
    rw [List.flatMap_cons, record, List.append_assoc]
    exact .cons (recordText_fields hValues) (ih hTable)

theorem rows_eq (number : Nat) (duplicates : List Duplicate) :
    rows number duplicates =
      (duplicates.zipIdx number).flatMap fun (d, n) => d.locations.map (row n d) := by
  induction duplicates generalizing number with
  | nil => rfl
  | cons d rest ih => rw [rows, ih, List.zipIdx_cons, List.flatMap_cons]

/-- **Reports come back from comma-separated values.** The text of a report is read as its header
and one record of eight fields per location: the number of the duplicate, counted from one, its
name, kind and count, and the file, line, column and excerpt of the location. The format allows no
other reading. -/
theorem csv_reads_back (r : Report) :
    let table : List (List String) :=
      ["group_id", "name", "kind", "count", "file", "line", "column", "context"] ::
        (r.duplicates.zipIdx 1).flatMap fun (d, number) => d.locations.map fun l =>
          [toString number, d.name, d.kind.label, toString d.count, l.file, toString l.line,
            toString l.column, l.context.getD ""]
    read? (csv r) = some table ∧
      ∀ records, TableText records (csv r).toList ↔ records = table := by
  intro table
  have hTable : header :: rows 1 r.duplicates = table := by
    rw [rows_eq]
    rfl
  have hSome : ∀ record ∈ table, record ≠ [] := by
    refine List.forall_mem_cons.2 ⟨List.cons_ne_nil _ _, fun record hMem => ?_⟩
    obtain ⟨⟨d, number⟩, -, hRow⟩ := List.mem_flatMap.1 hMem
    obtain ⟨l, -, rfl⟩ := List.mem_map.1 hRow
    exact List.cons_ne_nil _ _
  have hText : TableText table (csv r).toList := by
    rw [csv, String.toList_ofList, hTable]
    exact tableText_records hSome
  have hRead : read? (csv r) = some table := read?_eq_some_iff.2 hText
  refine ⟨hRead, fun records => ?_⟩
  rw [← read?_eq_some_iff, hRead, Option.some_inj]
  exact eq_comm

end Homonym.Render.Csv
