import Homonym.Proofs.Settings.Entries

/-!
# Records by their fields

Rules and settings are records that are read from a dictionary, field by field. `Fields` says what
the fields of such a record are called, what they hold and which values they take. If the entries
of a dictionary fit, the record is read from them: a field that has an entry holds what its value
says, and the others keep what they held (`Fields.readEntries_ok`).
-/

namespace Homonym

/-- The fields of a record. -/
structure Fields (F R : Type) where
  key : F → String
  /-- The field with a key, in whatever spelling. -/
  ofKey? : String → Option F
  Content : F → Type
  /-- What a value says for a field. -/
  read : (f : F) → Value → Fit (Content f)
  get : (f : F) → R → Content f
  put : (f : F) → Content f → R → R
  ofKey?_key : ∀ f, ofKey? (key f) = some f
  get_put : ∀ f x r, get f (put f x r) = x
  get_put_of_ne : ∀ {f g}, g ≠ f → ∀ x r, get g (put f x r) = get g r

namespace Fields

variable {F R : Type} (fields : Fields F R)

/-- Sets a field to what a value says. -/
def set (f : F) (value : Value) (r : R) : Fit R :=
  (fields.read f value).map fun x => fields.put f x r

/-- A field holds what a value says or, without a value, what it holds in another record. -/
def IsGiven (f : F) (value? : Option Value) (r other : R) : Prop :=
  match value? with
  | some value => fields.read f value = .ok (fields.get f r)
  | none => fields.get f r = fields.get f other

/-- The entries for fields have the keys of the fields and values that fit. -/
def Accepts (entries : List (String × Value)) : Prop :=
  ∀ e ∈ entries, ∀ f, fields.ofKey? e.1 = some f →
    e.1 = fields.key f ∧ ∃ x, fields.read f e.2 = .ok x

theorem key_injective : Function.Injective fields.key := by
  intro f g hKey
  have hFound := fields.ofKey?_key f
  rw [hKey, fields.ofKey?_key] at hFound
  exact (Option.some.inj hFound).symm

/-- **Entries that fit are read.** -/
theorem readEntries_ok [DecidableEq F] {entries : List (String × Value)}
    (hKeys : (entries.map Prod.fst).Nodup) (hAccepts : fields.Accepts entries) (seen : List F)
    (hSeen : ∀ f ∈ seen, fields.key f ∉ entries.map Prod.fst) (r : R) :
    ∃ r', Value.readEntries fields.ofKey? fields.set seen r entries = .ok r' ∧
      ∀ f, fields.IsGiven f (Value.get? (fields.key f) entries) r' r := by
  induction entries generalizing seen r with
  | nil => exact ⟨r, rfl, fun f => rfl⟩
  | cons e rest ih =>
    obtain ⟨key, value⟩ := e
    obtain ⟨hFirst, hRestKeys⟩ := List.nodup_cons.1 hKeys
    obtain ⟨hHere, hRest⟩ := List.forall_mem_cons.1 hAccepts
    have hSeenRest : ∀ f ∈ seen, fields.key f ∉ rest.map Prod.fst :=
      fun f hMem hKey => hSeen f hMem (List.mem_cons_of_mem _ hKey)
    cases hField : fields.ofKey? key with
    | none =>
      obtain ⟨r', hRead, hGiven⟩ := ih hRestKeys hRest seen hSeenRest r
      refine ⟨r', by simpa only [Value.readEntries, hField] using hRead, fun f => ?_⟩
      have hNe : key ≠ fields.key f := by
        rintro rfl
        rw [fields.ofKey?_key] at hField
        cases hField
      rw [Value.get?_cons, if_neg hNe]
      exact hGiven f
    -- The entries behind this one are read into a record that has its field already. They do not
    -- have its key again, so that they leave the field as it is.
    | some field =>
      obtain ⟨rfl, x, hValue⟩ := hHere field hField
      have hNew : field ∉ seen := fun hMem => hSeen field hMem List.mem_cons_self
      obtain ⟨r', hRead, hGiven⟩ := ih hRestKeys hRest (field :: seen)
        (List.forall_mem_cons.2 ⟨hFirst, hSeenRest⟩) (fields.put field x r)
      have hSet : fields.set field value r = .ok (fields.put field x r) := by
        rw [set, hValue]
        rfl
      refine ⟨r', ?_, fun f => ?_⟩
      · simp only [Value.readEntries, hField, if_neg hNew, hSet]
        exact hRead
      · have hLater := hGiven f
        rw [Value.get?_cons]
        by_cases hSame : f = field
        · subst hSame
          rw [Value.get?_eq_none hFirst, IsGiven, fields.get_put] at hLater
          rw [if_pos rfl, IsGiven, hLater]
          exact hValue
        · have hNe : fields.key field ≠ fields.key f :=
            fun hKey => hSame (fields.key_injective hKey).symm
          rw [if_neg hNe]
          unfold IsGiven at hLater ⊢
          split at hLater
          · exact hLater
          · rw [hLater, fields.get_put_of_ne hSame]

/-- What is read fits. -/
theorem read_of_readEntries [DecidableEq F] {entries : List (String × Value)} {seen : List F}
    {r r' : R} (hRead : Value.readEntries fields.ofKey? fields.set seen r entries = .ok r') :
    ∀ e ∈ entries, ∀ f, fields.ofKey? e.1 = some f → ∃ x, fields.read f e.2 = .ok x := by
  induction entries generalizing seen r with
  | nil => exact fun e hMem => nomatch hMem
  | cons e rest ih =>
    simp only [Value.readEntries] at hRead
    refine List.forall_mem_cons.2 ⟨fun f hField => ?_, ?_⟩
    · cases hValue : fields.read f e.2 with
      | ok x => exact ⟨x, rfl⟩
      | error m =>
        rw [hField] at hRead
        simp only [set, hValue] at hRead
        split at hRead <;> cases hRead
    · split at hRead
      · exact ih hRead
      · split at hRead
        · cases hRead
        · split at hRead
          · cases hRead
          · exact ih hRead

/-- Entries that are read fit, if they all have keys of fields. -/
theorem accepts_of_readEntries [DecidableEq F] {entries : List (String × Value)} {seen : List F}
    {r r' : R} (hKeys : ∀ key ∈ entries.map Prod.fst, ∃ f, fields.key f = key)
    (hRead : Value.readEntries fields.ofKey? fields.set seen r entries = .ok r') :
    fields.Accepts entries := by
  intro e hMem f hField
  refine ⟨?_, fields.read_of_readEntries hRead e hMem f hField⟩
  obtain ⟨field, hKey⟩ := hKeys e.1 (List.mem_map_of_mem hMem)
  rw [← hKey, fields.ofKey?_key] at hField
  rw [← hKey, Option.some.inj hField]

/-- A field is as given if it is so with a default that says what the other record holds. -/
theorem IsGiven.of_or {f : F} {value? default? : Option Value} {r other : R}
    (hGiven : fields.IsGiven f (value?.or default?) r other)
    (hDefault : fields.IsGiven f default? other other) : fields.IsGiven f value? r other := by
  cases value? with
  | some value => exact hGiven
  | none =>
    rw [Option.none_or] at hGiven
    cases default? with
    | none => exact hGiven
    | some value => exact Except.ok.inj (hGiven.symm.trans hDefault)

end Fields

/-! ## Rules -/

namespace RuleField

/-- What a rule holds. -/
def Content : RuleField → Type
  | .allowSameFileOverloads | .allowCrossModuleDuplicates => Bool
  | .maxDuplicatesPerName => Int64

/-- What a value says for a rule. -/
def read : (g : RuleField) → Value → Fit g.Content
  | .allowSameFileOverloads | .allowCrossModuleDuplicates => Value.toBool
  | .maxDuplicatesPerName => Value.toWord

/-- What some rules hold. -/
def get : (g : RuleField) → RuleSet → g.Content
  | .allowSameFileOverloads => RuleSet.allowSameFileOverloads
  | .allowCrossModuleDuplicates => RuleSet.allowCrossModuleDuplicates
  | .maxDuplicatesPerName => RuleSet.maxDuplicatesPerName

/-- Some rules with one of them changed. -/
def put : (g : RuleField) → g.Content → RuleSet → RuleSet
  | .allowSameFileOverloads, b, r => { r with allowSameFileOverloads := b }
  | .allowCrossModuleDuplicates, b, r => { r with allowCrossModuleDuplicates := b }
  | .maxDuplicatesPerName, n, r => { r with maxDuplicatesPerName := n }

end RuleField

/-- The fields of a rule set. -/
def RuleSet.fields : Fields RuleField RuleSet where
  key := RuleField.key
  ofKey? := RuleField.ofKey?
  Content := RuleField.Content
  read := RuleField.read
  get := RuleField.get
  put := RuleField.put
  ofKey?_key := by
    intro g
    cases g <;> decide
  get_put := by
    intro g x r
    cases g <;> rfl
  get_put_of_ne := by
    intro g h hNe x r
    cases g <;> cases h <;> trivial

theorem RuleSet.ofValue_dict (entries : List (String × Value)) :
    RuleSet.ofValue (.dict entries) =
      Value.readEntries fields.ofKey? fields.set [] {} entries := by
  have hSet : RuleSet.setField = fields.set := by
    funext g value r
    cases g <;> rfl
  rw [ofValue, hSet]
  rfl

/-! ## Settings -/

namespace SettingsField

/-- What a setting holds. -/
def Content : SettingsField → Type
  | .includeInternal | .followLinks | .skipHidden | .respectIgnoreFile => Bool
  | .includes | .excludes | .ignoredNames => List String
  | .ignoredKinds => List Kind
  | .rules => RuleSet

/-- What a value says for a setting. -/
def read : (f : SettingsField) → Value → Fit f.Content
  | .includeInternal | .followLinks | .skipHidden | .respectIgnoreFile => Value.toBool
  | .includes | .excludes | .ignoredNames => Value.toList Value.toText
  | .ignoredKinds => Value.toList Value.toKind
  | .rules => RuleSet.ofValue

/-- What some settings hold. -/
def get : (f : SettingsField) → Settings → f.Content
  | .includeInternal => Settings.includeInternal
  | .includes => Settings.includes
  | .excludes => Settings.excludes
  | .ignoredKinds => Settings.ignoredKinds
  | .ignoredNames => Settings.ignoredNames
  | .followLinks => Settings.followLinks
  | .skipHidden => Settings.skipHidden
  | .respectIgnoreFile => Settings.respectIgnoreFile
  | .rules => Settings.rules

/-- Some settings with one of them changed. -/
def put : (f : SettingsField) → f.Content → Settings → Settings
  | .includeInternal, b, s => { s with includeInternal := b }
  | .includes, l, s => { s with includes := l }
  | .excludes, l, s => { s with excludes := l }
  | .ignoredKinds, l, s => { s with ignoredKinds := l }
  | .ignoredNames, l, s => { s with ignoredNames := l }
  | .followLinks, b, s => { s with followLinks := b }
  | .skipHidden, b, s => { s with skipHidden := b }
  | .respectIgnoreFile, b, s => { s with respectIgnoreFile := b }
  | .rules, r, s => { s with rules := r }

end SettingsField

/-- The fields of settings. -/
def Settings.fields : Fields SettingsField Settings where
  key := SettingsField.key
  ofKey? := SettingsField.ofKey?
  Content := SettingsField.Content
  read := SettingsField.read
  get := SettingsField.get
  put := SettingsField.put
  ofKey?_key := by
    intro f
    cases f <;> decide
  get_put := by
    intro f x s
    cases f <;> rfl
  get_put_of_ne := by
    intro f g hNe x s
    cases f <;> cases g <;> trivial

theorem Settings.ofValue_dict (entries : List (String × Value)) :
    Settings.ofValue (.dict entries) =
      Value.readEntries fields.ofKey? fields.set [] {} entries := by
  have hSet : Settings.setField = fields.set := by
    funext f value s
    cases f <;> rfl
  rw [ofValue, hSet]
  rfl

end Homonym
