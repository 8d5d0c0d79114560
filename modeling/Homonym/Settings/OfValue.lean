import Homonym.Settings.Field

/-!
# Settings from a value

`Settings.ofValue` reads settings from a value. A value is never converted to another type. A
record is a dictionary, whose unknown keys are passed over, or an array of its fields in order; a
field that is not given keeps its default. A failure tells the way to the value that is wrong.
-/

namespace Homonym

/-- What is wrong with a value. -/
inductive MismatchCause where
  | invalidType
  | invalidValue
  | unknownVariant
  | duplicateField
deriving DecidableEq

/-- A value that does not fit, and the keys and places that lead to it. -/
structure Mismatch where
  cause : MismatchCause
  path : List String := []
deriving DecidableEq

/-- The mismatch as seen from one step further out. -/
def Mismatch.under (step : String) (m : Mismatch) : Mismatch :=
  { m with path := step :: m.path }

/-- A value that was read, or a mismatch. -/
abbrev Fit (α : Type) := Except Mismatch α

namespace Value

/-- A truth value. -/
def toBool : Value → Fit Bool
  | .bool b => .ok b
  | _ => .error ⟨.invalidType, []⟩

/-- A text. A single character is one too. -/
def toText : Value → Fit String
  | .str s => .ok s
  | .char c => .ok (String.singleton c)
  | _ => .error ⟨.invalidType, []⟩

/-- A signed word of 64 bits. -/
def toWord : Value → Fit Int64
  | .int n =>
    if Int64.minValue.toInt ≤ n ∧ n ≤ Int64.maxValue.toInt then .ok (.ofInt n)
    else .error ⟨.invalidValue, []⟩
  | _ => .error ⟨.invalidType, []⟩

/-- A kind by its label. -/
def toKindLabel (label : String) : Fit Kind :=
  match Kind.ofLabel? label with
  | some kind => .ok kind
  | none => .error ⟨.unknownVariant, []⟩

/-- A kind, given by its label or by a dictionary that has the label as its first key, without a
value. -/
def toKind : Value → Fit Kind
  | .str s => toKindLabel s
  | .dict ((label, content) :: _) =>
    match toKindLabel label with
    | .error m => .error (m.under label)
    | .ok kind =>
      match content with
      | .empty => .ok kind
      | _ => .error ⟨.invalidType, [label]⟩
  | _ => .error ⟨.invalidType, []⟩

/-- The elements of a list, of which the first has the given place. -/
def toElements {α : Type} (read : Value → Fit α) : Nat → List Value → Fit (List α)
  | _, [] => .ok []
  | place, value :: rest =>
    match read value with
    | .error m => .error (m.under (toString place))
    | .ok element => (toElements read (place + 1) rest).map (element :: ·)

/-- A list. -/
def toList {α : Type} (read : Value → Fit α) : Value → Fit (List α)
  | .arr elements => toElements read 0 elements
  | _ => .error ⟨.invalidType, []⟩

/-- Reads the entries of a dictionary into a record, of which some fields were read before. -/
def readEntries {F R : Type} [DecidableEq F] (ofKey? : String → Option F)
    (set : F → Value → R → Fit R) : List F → R → List (String × Value) → Fit R
  | _, record, [] => .ok record
  | seen, record, (key, value) :: rest =>
    match ofKey? key with
    | none => readEntries ofKey? set seen record rest
    | some field =>
      if field ∈ seen then .error ⟨.duplicateField, []⟩
      else
        match set field value record with
        | .error m => .error (m.under key)
        | .ok next => readEntries ofKey? set (field :: seen) next rest

/-- Reads the elements of an array into the fields of a record, of which the first has the given
place. -/
def readPlaces {F R : Type} (set : F → Value → R → Fit R) : Nat → List F → R → List Value → Fit R
  | place, field :: fields, record, value :: rest =>
    match set field value record with
    | .error m => .error (m.under (toString place))
    | .ok next => readPlaces set (place + 1) fields next rest
  | _, _, record, _ => .ok record

/-- Reads a record. -/
def readRecord {F R : Type} [DecidableEq F] (ofKey? : String → Option F) (fields : List F)
    (set : F → Value → R → Fit R) (default : R) : Value → Fit R
  | .dict entries => readEntries ofKey? set [] default entries
  | .arr elements => readPlaces set 0 fields default elements
  | _ => .error ⟨.invalidType, []⟩

end Value

/-- Sets one of the rules. -/
def RuleSet.setField (field : RuleField) (value : Value) (r : RuleSet) : Fit RuleSet :=
  match field with
  | .allowSameFileOverloads => value.toBool.map fun b => { r with allowSameFileOverloads := b }
  | .allowCrossModuleDuplicates =>
    value.toBool.map fun b => { r with allowCrossModuleDuplicates := b }
  | .maxDuplicatesPerName => value.toWord.map fun n => { r with maxDuplicatesPerName := n }

/-- Reads rules. -/
def RuleSet.ofValue : Value → Fit RuleSet :=
  Value.readRecord RuleField.ofKey? RuleField.all RuleSet.setField {}

namespace Settings

/-- Sets one of the settings. -/
def setField (field : SettingsField) (value : Value) (s : Settings) : Fit Settings :=
  match field with
  | .includeInternal => value.toBool.map fun b => { s with includeInternal := b }
  | .includes => (value.toList Value.toText).map fun l => { s with includes := l }
  | .excludes => (value.toList Value.toText).map fun l => { s with excludes := l }
  | .ignoredKinds => (value.toList Value.toKind).map fun l => { s with ignoredKinds := l }
  | .ignoredNames => (value.toList Value.toText).map fun l => { s with ignoredNames := l }
  | .followLinks => value.toBool.map fun b => { s with followLinks := b }
  | .skipHidden => value.toBool.map fun b => { s with skipHidden := b }
  | .respectIgnoreFile => value.toBool.map fun b => { s with respectIgnoreFile := b }
  | .rules => (RuleSet.ofValue value).map fun r => { s with rules := r }

/-- Reads settings. -/
def ofValue : Value → Fit Settings :=
  Value.readRecord SettingsField.ofKey? SettingsField.all setField {}

end Settings

end Homonym
