import Homonym.Proofs.Json.Layout
import Homonym.Render.Format

/-!
# Reports read back from JSON

A report whose numbers are words of 64 bits is written as a JSON value that has a readable text
(`Report.writable_toJson`), and the value is read back as the report (`Report.ofJson?_toJson`). With
the layouts of `Proofs.Json.Layout` this gives the round trip through text: `Report.parse?_written`.
-/

namespace Homonym

/-! ## Reports of words -/

/-- The number is a word of 64 bits. -/
def IsWord (n : Nat) : Prop :=
  n < UInt64.size

instance (n : Nat) : Decidable (IsWord n) :=
  inferInstanceAs (Decidable (_ < _))

/-- The numbers of the location are words. -/
structure Location.InWords (l : Location) : Prop where
  line : IsWord l.line
  column : IsWord l.column

/-- The numbers of the duplicate are words. -/
structure Duplicate.InWords (d : Duplicate) : Prop where
  count : IsWord d.count
  locations : ∀ l ∈ d.locations, l.InWords

/-- The totals are words. -/
structure Summary.InWords (s : Summary) : Prop where
  totalFiles : IsWord s.totalFiles
  totalDeclarations : IsWord s.totalDeclarations
  duplicateGroups : IsWord s.duplicateGroups
  duplicateDeclarations : IsWord s.duplicateDeclarations

/-- All numbers of the report are words. They need not fit together. -/
structure Report.InWords (r : Report) : Prop where
  summary : r.summary.InWords
  duplicates : ∀ d ∈ r.duplicates, d.InWords

/-! ## Records as values -/

namespace Json

theorem nat?_nat (n : Nat) : nat? (.nat n) = some n := by
  have hNat : (0 : Int) ≤ n := Int.natCast_nonneg n
  simp only [nat, nat?, if_pos hNat, Int.toNat_natCast]

theorem optional?_optional (text : Option String) : optional? (.optional text) = some text := by
  cases text <;> rfl

theorem list?_map {α : Type} {read? : Json → Option α} {write : α → Json}
    (h : ∀ a, read? (write a) = some a) (list : List α) :
    list? read? (.arr (list.map write)) = some list := by
  rw [list?]
  induction list with
  | nil => rfl
  | cons a list ih =>
    rw [List.map_cons, List.mapM_cons, h, ih]
    rfl

theorem writable_nat (depth : Nat) {n : Nat} (h : IsWord n) : Writable depth (.nat n) := by
  rw [IsWord, UInt64.size] at h
  refine .int depth ?_ ?_
  · simp only [intMin]
    omega
  · simp only [intMax]
    omega

theorem writable_optional (depth : Nat) (text : Option String) :
    Writable depth (.optional text) := by
  cases text with
  | none => exact .null depth
  | some text => exact .str depth text

/-- An array of written records. -/
theorem writable_map {α : Type} {depth : Nat} {write : α → Json} {list : List α}
    (h : ∀ a ∈ list, Writable depth (write a)) : Writable (depth + 1) (.arr (list.map write)) := by
  refine .arr fun e he => ?_
  obtain ⟨a, ha, rfl⟩ := List.mem_map.1 he
  exact h a ha

end Json

theorem Kind.ofJson?_label (kind : Kind) : Kind.ofJson? (.str kind.label) = some kind :=
  Kind.ofLabel?_label kind

namespace Location

theorem ofJson?_toJson (l : Location) : ofJson? l.toJson = some l := by
  simp [ofJson?, toJson, Json.fields?, Json.Fields.get?, Json.Fields.getOr?, Json.valuesNamed,
    Json.string?, Json.nat?_nat, Json.optional?_optional]

theorem writable_toJson {l : Location} (h : l.InWords) (depth : Nat) :
    Json.Writable (depth + 1) l.toJson := by
  refine .obj fun m hm => ?_
  simp only [List.mem_cons, List.not_mem_nil, or_false] at hm
  rcases hm with rfl | rfl | rfl | rfl
  · exact .str depth l.file
  · exact Json.writable_nat depth h.line
  · exact Json.writable_nat depth h.column
  · exact Json.writable_optional depth l.context

end Location

namespace Duplicate

theorem ofJson?_toJson (d : Duplicate) : ofJson? d.toJson = some d := by
  simp [ofJson?, toJson, Json.fields?, Json.Fields.get?, Json.valuesNamed, Json.string?,
    Json.nat?_nat, Kind.ofJson?_label, Json.list?_map Location.ofJson?_toJson]

theorem writable_toJson {d : Duplicate} (h : d.InWords) (depth : Nat) :
    Json.Writable (depth + 3) d.toJson := by
  refine .obj fun m hm => ?_
  simp only [List.mem_cons, List.not_mem_nil, or_false] at hm
  rcases hm with rfl | rfl | rfl | rfl
  · exact .str _ d.name
  · exact .str _ d.kind.label
  · exact Json.writable_nat _ h.count
  · exact Json.writable_map fun l hl => Location.writable_toJson (h.locations l hl) depth

end Duplicate

namespace Summary

theorem ofJson?_toJson (s : Summary) : ofJson? s.toJson = some s := by
  simp [ofJson?, toJson, Json.fields?, Json.Fields.get?, Json.valuesNamed, Json.nat?_nat]

theorem writable_toJson {s : Summary} (h : s.InWords) (depth : Nat) :
    Json.Writable (depth + 1) s.toJson := by
  refine .obj fun m hm => ?_
  simp only [List.mem_cons, List.not_mem_nil, or_false] at hm
  rcases hm with rfl | rfl | rfl | rfl
  · exact Json.writable_nat depth h.totalFiles
  · exact Json.writable_nat depth h.totalDeclarations
  · exact Json.writable_nat depth h.duplicateGroups
  · exact Json.writable_nat depth h.duplicateDeclarations

end Summary

namespace Report

theorem ofJson?_toJson (r : Report) : ofJson? r.toJson = some r := by
  simp [ofJson?, toJson, Json.fields?, Json.Fields.get?, Json.valuesNamed, Summary.ofJson?_toJson,
    Json.list?_map Duplicate.ofJson?_toJson]

theorem writable_toJson {r : Report} (h : r.InWords) (depth : Nat) :
    Json.Writable (depth + 5) r.toJson := by
  refine .obj fun m hm => ?_
  simp only [List.mem_cons, List.not_mem_nil, or_false] at hm
  rcases hm with rfl | rfl
  · exact Summary.writable_toJson h.summary (depth + 3)
  · exact Json.writable_map fun d hd => Duplicate.writable_toJson (h.duplicates d hd) depth

/-! ## Through text and back -/

/-- A text that is a layout of the report's value, with blanks behind it, is read as the report. -/
theorem parse?_of_layout {r : Report} {text gap : List Char}
    (h : Json.Layout Json.nestingLimit (.value r.toJson) text) (hGap : Json.IsGap gap) :
    parse? (String.ofList (text ++ gap)) = some r := by
  rw [parse?, String.toList_ofList, Json.read?_of_layout h hGap]
  exact ofJson?_toJson r

/-- **Reports come back from JSON.** Whatever its texts, a report of words is what is read from its
compact text, from its indented text, and from the output in this format with its last line end. -/
theorem parse?_written {r : Report} (h : r.InWords) (colored : Bool) :
    parse? r.toJson.compact = some r ∧ parse? r.toJson.pretty = some r ∧
      parse? (r.render .json colored) = some r := by
  have hWritable : Json.Writable Json.nestingLimit r.toJson := writable_toJson h 122
  have hCompact := parse?_of_layout hWritable.compact Json.isGap_nil
  have hPretty := parse?_of_layout (hWritable.pretty 0) Json.isGap_nil
  rw [List.append_nil] at hCompact hPretty
  have hOutput := parse?_of_layout (hWritable.pretty 0) (Json.isGap_newLine 0)
  rw [String.ofList_append] at hOutput
  exact ⟨hCompact, hPretty, hOutput⟩

/-- A report with escapes of each kind, an absent excerpt, an empty list, counts that do not fit and
the greatest word. -/
theorem parse?_odd_report :
    let odd : Report :=
      { summary := ⟨0, 18446744073709551615, 7, 1⟩
        duplicates :=
          [⟨"a\"\\\n\t\x00\x1f/é😀", .binding, 9, [⟨"\x7f", 1, 18446744073709551615, none⟩,
            ⟨"", 0, 0, some "\r\x08\x0c"⟩]⟩, ⟨"", .classType, 0, []⟩] }
    odd.InWords ∧ parse? odd.toJson.compact = some odd ∧ parse? odd.toJson.pretty = some odd ∧
      parse? (odd.render .json true) = some odd := by
  intro odd
  have hSummary : odd.summary.InWords := ⟨by decide, by decide, by decide, by decide⟩
  have hDuplicates : ∀ d ∈ odd.duplicates, d.InWords := by
    intro d hd
    simp only [odd, List.mem_cons, List.not_mem_nil, or_false] at hd
    rcases hd with rfl | rfl
    · refine ⟨by decide, fun l hl => ?_⟩
      simp only [List.mem_cons, List.not_mem_nil, or_false] at hl
      rcases hl with rfl | rfl <;> exact ⟨by decide, by decide⟩
    · exact ⟨by decide, fun l hl => by cases hl⟩
  exact ⟨⟨hSummary, hDuplicates⟩, parse?_written ⟨hSummary, hDuplicates⟩ true⟩

end Report

end Homonym
