import Mathlib.Data.List.Induction
import Homonym.Proofs.Settings.Fields

/-!
# Layers of settings

Settings are read from layers of dictionaries, each over those before it and all over the defaults.
A `Layer` has values of the right types for its settings. A dictionary of rules is joined with the
one below it rule by rule, and every other value takes the place of the one below it. So a setting
or a rule comes from the uppermost layer that has it, and else it keeps its default
(`Settings.ofLayers_ok`).

`Merged` is the invariant: it says where each entry of the layers so far comes from, and one layer
more keeps it (`Merged.concat`).
-/

namespace Homonym

open Value

/-! ## Values that fit -/

theorem RuleField.isLeaf_of_read {g : RuleField} {value : Value} {x : g.Content}
    (hRead : g.read value = .ok x) : value.IsLeaf := by
  rintro entries rfl
  cases g <;> cases hRead

theorem SettingsField.isLeaf_of_read {f : SettingsField} (hRules : f ≠ .rules) {value : Value}
    {x : f.Content} (hRead : f.read value = .ok x) : value.IsLeaf := by
  rintro entries rfl
  cases f with
  | rules => exact hRules rfl
  | _ => cases hRead

/-! ## Layers -/

/-- The entries of a dictionary, if there is one. -/
def entriesOf : Option Value → List (String × Value)
  | some (.dict entries) => entries
  | _ => []

/-- The entries for rules among the entries of a layer. -/
def rulesOf (entries : List (String × Value)) : List (String × Value) :=
  entriesOf (get? SettingsField.rules.key entries)

/-- The entries of a layer of settings, with its keys in order and all its values of the right
types. -/
structure Layer (entries : List (String × Value)) : Prop where
  sorted : (Value.dict entries).Sorted
  own : ∀ key ∈ entries.map Prod.fst, ∀ f, SettingsField.ofKey? key = some f → key = f.key
  typed : ∀ f : SettingsField, f ≠ .rules → ∀ value, get? f.key entries = some value →
    ∃ x, f.read value = .ok x
  rules : ∀ value, get? SettingsField.rules.key entries = some value →
    ∃ inner, value = .dict inner ∧ RuleSet.fields.Accepts inner

namespace Layer

variable {upper lower : List (String × Value)}

theorem accepts (hLayer : Layer upper) : Settings.fields.Accepts upper := by
  intro e hMem f hField
  have hKey : e.1 = f.key := hLayer.own e.1 (List.mem_map_of_mem hMem) f hField
  have hGet : get? f.key upper = some e.2 := get?_of_mem hLayer.sorted.ordered.nodup (hKey ▸ hMem)
  refine ⟨hKey, ?_⟩
  by_cases hRules : f = .rules
  · subst hRules
    obtain ⟨inner, hInner, hAccepts⟩ := hLayer.rules _ hGet
    have hOrdered : Ordered inner := (hInner ▸ hLayer.sorted.inner e hMem : Sorted _).ordered
    obtain ⟨r, hRead, -⟩ := RuleSet.fields.readEntries_ok hOrdered.nodup hAccepts [] (by simp) {}
    exact ⟨r, by rw [hInner]; exact (RuleSet.ofValue_dict inner).trans hRead⟩
  · exact hLayer.typed f hRules _ hGet

/-- A setting other than the rules comes from the upper layer, or else from the lower one. -/
theorem get?_cover (hUpper : Layer upper) {f : SettingsField} (hRules : f ≠ .rules) :
    get? f.key (coverEntries upper lower) = (get? f.key upper).or (get? f.key lower) := by
  rw [get?_coverEntries hUpper.sorted.ordered.nodup]
  refine laidOver_leaf (fun value hValue => ?_) _
  obtain ⟨x, hRead⟩ := hUpper.typed f hRules value hValue
  exact SettingsField.isLeaf_of_read hRules hRead

theorem rules_eq (hLayer : Layer upper) :
    get? SettingsField.rules.key upper = none ∧ rulesOf upper = [] ∨
      get? SettingsField.rules.key upper = some (.dict (rulesOf upper)) ∧
        RuleSet.fields.Accepts (rulesOf upper) := by
  unfold rulesOf
  cases hGet : get? SettingsField.rules.key upper with
  | none => exact .inl ⟨rfl, rfl⟩
  | some value =>
    obtain ⟨inner, rfl, hAccepts⟩ := hLayer.rules value hGet
    exact .inr ⟨rfl, hAccepts⟩

theorem sorted_rulesOf (hLayer : Layer upper) : (Value.dict (rulesOf upper)).Sorted := by
  obtain ⟨-, hNone⟩ | ⟨hGet, -⟩ := hLayer.rules_eq
  · rw [hNone]
    exact .dict .nil (by simp)
  · exact hLayer.sorted.inner _ (mem_of_get? hGet)

theorem accepts_rulesOf (hLayer : Layer upper) : RuleSet.fields.Accepts (rulesOf upper) := by
  obtain ⟨-, hNone⟩ | ⟨-, hAccepts⟩ := hLayer.rules_eq
  · rw [hNone]
    exact fun e hMem => nomatch hMem
  · exact hAccepts

/-- A rule comes from the upper layer, or else from the lower one. -/
theorem get?_rule_cover (hUpper : Layer upper) (inner : List (String × Value)) (g : RuleField) :
    get? g.key (coverEntries (rulesOf upper) inner) =
      (get? g.key (rulesOf upper)).or (get? g.key inner) := by
  rw [get?_coverEntries hUpper.sorted_rulesOf.ordered.nodup]
  refine laidOver_leaf (fun value hValue => ?_) _
  obtain ⟨-, x, hRead⟩ := hUpper.accepts_rulesOf _ (mem_of_get? hValue) g
    (RuleSet.fields.ofKey?_key g)
  exact RuleField.isLeaf_of_read hRead

/-- The rules of both layers are joined. -/
theorem rules_cover (hUpper : Layer upper)
    (hLower : get? SettingsField.rules.key lower = some (.dict (rulesOf lower))) :
    get? SettingsField.rules.key (coverEntries upper lower) =
      some (.dict (coverEntries (rulesOf upper) (rulesOf lower))) := by
  rw [get?_coverEntries hUpper.sorted.ordered.nodup, hLower]
  obtain ⟨hGet, hNone⟩ | ⟨hGet, -⟩ := hUpper.rules_eq
  · rw [hGet, hNone, coverEntries]
    rfl
  · rw [hGet, laidOver, Value.cover]

theorem accepts_rules_cover (hUpper : Layer upper) (hLower : Layer lower) :
    RuleSet.fields.Accepts (coverEntries (rulesOf upper) (rulesOf lower)) := by
  have hSorted := hUpper.sorted_rulesOf.cover hLower.sorted_rulesOf
  rw [Value.cover] at hSorted
  intro e hMem g hField
  have hKey : e.1 = g.key := by
    rcases mem_coverEntries_key (List.mem_map_of_mem hMem) with hOwn | hOwn
    · obtain ⟨e', hMem', hSame⟩ := List.mem_map.1 hOwn
      exact hSame ▸ (hUpper.accepts_rulesOf e' hMem' g (hSame ▸ hField)).1
    · obtain ⟨e', hMem', hSame⟩ := List.mem_map.1 hOwn
      exact hSame ▸ (hLower.accepts_rulesOf e' hMem' g (hSame ▸ hField)).1
  refine ⟨hKey, ?_⟩
  have hGet : get? g.key (coverEntries (rulesOf upper) (rulesOf lower)) = some e.2 :=
    get?_of_mem hSorted.ordered.nodup (hKey ▸ hMem)
  rw [hUpper.get?_rule_cover, Option.or_eq_some_iff] at hGet
  rcases hGet with hGet | ⟨-, hGet⟩
  · exact (hUpper.accepts_rulesOf _ (mem_of_get? hGet) g (RuleSet.fields.ofKey?_key g)).2
  · exact (hLower.accepts_rulesOf _ (mem_of_get? hGet) g (RuleSet.fields.ofKey?_key g)).2

/-- **A layer over another one is a layer.** -/
theorem cover (hUpper : Layer upper) (hLower : Layer lower)
    (hRules : get? SettingsField.rules.key lower = some (.dict (rulesOf lower))) :
    Layer (coverEntries upper lower) where
  sorted := by
    have hSorted := hUpper.sorted.cover hLower.sorted
    rwa [Value.cover] at hSorted
  own := by
    intro key hMem f hField
    rcases mem_coverEntries_key hMem with hOwn | hOwn
    · exact hUpper.own key hOwn f hField
    · exact hLower.own key hOwn f hField
  typed := by
    intro f hOther value hGet
    rw [hUpper.get?_cover hOther, Option.or_eq_some_iff] at hGet
    rcases hGet with hGet | ⟨-, hGet⟩
    · exact hUpper.typed f hOther value hGet
    · exact hLower.typed f hOther value hGet
  rules := by
    intro value hGet
    rw [hUpper.rules_cover hRules] at hGet
    exact ⟨_, (Option.some.inj hGet).symm, hUpper.accepts_rules_cover hLower⟩

theorem rulesOf_cover (hUpper : Layer upper)
    (hRules : get? SettingsField.rules.key lower = some (.dict (rulesOf lower))) :
    rulesOf (coverEntries upper lower) = coverEntries (rulesOf upper) (rulesOf lower) := by
  nth_rewrite 1 [rulesOf]
  rw [hUpper.rules_cover hRules]
  rfl

end Layer

/-! ## The defaults -/

theorem RuleSet.sorted_toValue (r : RuleSet) : r.toValue.Sorted := by
  refine sorted_ofList ?_
  simp only [List.forall_mem_cons]
  exact ⟨.leaf nofun, .leaf nofun, .leaf nofun, nofun⟩

theorem Settings.sorted_toValue (s : Settings) : s.toValue.Sorted := by
  refine sorted_ofList ?_
  simp only [List.forall_mem_cons]
  exact ⟨.leaf nofun, .leaf nofun, .leaf nofun, .leaf nofun, .leaf nofun, .leaf nofun, .leaf nofun,
    .leaf nofun, s.rules.sorted_toValue, nofun⟩

theorem RuleSet.accepts_entries (r : RuleSet) : fields.Accepts r.entries := by
  have hKeys : ∀ key ∈ ({} : RuleSet).entries.map Prod.fst,
      key ∈ RuleField.all.map RuleField.key := by
    decide
  refine fields.accepts_of_readEntries (fun key hMem => ?_)
    ((ofValue_dict _).symm.trans r.ofValue_toValue)
  obtain ⟨g, -, hKey⟩ := List.mem_map.1 (hKeys key (r.map_fst_entries ▸ hMem))
  exact ⟨g, hKey⟩

theorem Settings.accepts_entries (s : Settings) : fields.Accepts s.entries := by
  have hKeys : ∀ key ∈ ({} : Settings).entries.map Prod.fst,
      key ∈ SettingsField.all.map SettingsField.key := by
    decide
  refine fields.accepts_of_readEntries (fun key hMem => ?_)
    ((ofValue_dict _).symm.trans s.ofValue_toValue)
  obtain ⟨f, -, hKey⟩ := List.mem_map.1 (hKeys key (s.map_fst_entries ▸ hMem))
  exact ⟨f, hKey⟩

theorem Settings.get?_rules_entries (s : Settings) :
    get? SettingsField.rules.key s.entries = some (.dict s.rules.entries) := rfl

/-- The entries of settings are a layer. -/
theorem Settings.layer_entries (s : Settings) : Layer s.entries where
  sorted := s.sorted_toValue
  own := by
    intro key hMem f hField
    obtain ⟨e, hEntry, rfl⟩ := List.mem_map.1 hMem
    exact (s.accepts_entries e hEntry f hField).1
  typed := by
    intro f _ value hGet
    exact (s.accepts_entries _ (mem_of_get? hGet) f (fields.ofKey?_key f)).2
  rules := by
    intro value hGet
    rw [s.get?_rules_entries] at hGet
    exact ⟨_, (Option.some.inj hGet).symm, s.rules.accepts_entries⟩

/-! ## Layers over the defaults -/

/-- The entries of the defaults. -/
def defaultEntries : List (String × Value) :=
  ({} : Settings).entries

/-- The first value for a key in some layers, of which the last is the uppermost. -/
def uppermost? (key : String) (layers : List (List (String × Value))) : Option Value :=
  layers.reverse.findSome? (get? key)

theorem uppermost?_concat (key : String) (layers : List (List (String × Value)))
    (layer : List (String × Value)) :
    uppermost? key (layers ++ [layer]) = (get? key layer).or (uppermost? key layers) := by
  simp only [uppermost?, List.reverse_concat, List.findSome?_cons]
  cases get? key layer <;> rfl

/-- The entries are what some layers and the defaults make together: every setting and every rule
comes from the uppermost layer that has it. -/
structure Merged (layers : List (List (String × Value))) (merged : List (String × Value)) :
    Prop where
  layer : Layer merged
  rules : get? SettingsField.rules.key merged = some (.dict (rulesOf merged))
  setting : ∀ f : SettingsField, f ≠ .rules →
    get? f.key merged = (uppermost? f.key layers).or (get? f.key defaultEntries)
  rule : ∀ g : RuleField, get? g.key (rulesOf merged) =
    (uppermost? g.key (layers.map rulesOf)).or (get? g.key (rulesOf defaultEntries))

namespace Merged

theorem nil : Merged [] defaultEntries where
  layer := Settings.layer_entries {}
  rules := by
    rw [defaultEntries, rulesOf, Settings.get?_rules_entries]
    rfl
  setting := fun _ _ => Option.none_or.symm
  rule := fun _ => Option.none_or.symm

/-- One layer more. -/
theorem concat {layers : List (List (String × Value))} {merged layer : List (String × Value)}
    (hMerged : Merged layers merged) (hLayer : Layer layer) :
    Merged (layers ++ [layer]) (coverEntries layer merged) where
  layer := hLayer.cover hMerged.layer hMerged.rules
  rules := by
    rw [hLayer.rulesOf_cover hMerged.rules]
    exact hLayer.rules_cover hMerged.rules
  setting := by
    intro f hRules
    rw [hLayer.get?_cover hRules, hMerged.setting f hRules, ← Option.or_assoc, uppermost?_concat]
  rule := by
    intro g
    rw [hLayer.rulesOf_cover hMerged.rules, hLayer.get?_rule_cover, hMerged.rule,
      ← Option.or_assoc, List.map_append, List.map_singleton, uppermost?_concat]

end Merged

theorem merged_foldl {layers : List (List (String × Value))}
    (hLayers : ∀ layer ∈ layers, Layer layer) :
    Merged layers (layers.foldl (fun below layer => coverEntries layer below) defaultEntries) := by
  induction layers using List.reverseRecOn with
  | nil => exact .nil
  | append_singleton layers layer ih =>
    obtain ⟨hBelow, hLayer⟩ := List.forall_mem_append.1 hLayers
    rw [List.foldl_concat]
    exact (ih hBelow).concat (List.forall_mem_singleton.1 hLayer)

theorem foldl_cover (layers : List (List (String × Value))) (lowest : List (String × Value)) :
    (layers.map Value.dict).foldl (fun below layer => layer.cover below) (.dict lowest) =
      .dict (layers.foldl (fun below layer => coverEntries layer below) lowest) := by
  induction layers generalizing lowest with
  | nil => rfl
  | cons layer layers ih =>
    rw [List.map_cons, List.foldl_cons, Value.cover, ih]
    rfl

/-- The entries of the defaults are read as the defaults. -/
theorem RuleSet.given_default (g : RuleField) :
    fields.IsGiven g (get? g.key (rulesOf defaultEntries)) {} {} := by
  have hKeys := (RuleSet.ordered_entries {}).nodup
  obtain ⟨r, hRead, hGiven⟩ := fields.readEntries_ok hKeys (accepts_entries {}) [] (by simp) {}
  rw [← ofValue_dict] at hRead
  obtain rfl := Except.ok.inj (hRead.symm.trans (RuleSet.ofValue_toValue {}))
  exact hGiven g

theorem Settings.given_default (f : SettingsField) :
    fields.IsGiven f (get? f.key defaultEntries) {} {} := by
  have hKeys := (Settings.ordered_entries {}).nodup
  obtain ⟨s, hRead, hGiven⟩ := fields.readEntries_ok hKeys (accepts_entries {}) [] (by simp) {}
  rw [← ofValue_dict] at hRead
  obtain rfl := Except.ok.inj (hRead.symm.trans (Settings.ofValue_toValue {}))
  exact hGiven f

/-- **Every setting comes from the uppermost layer that has it.** -/
theorem Settings.ofLayers_ok {layers : List (List (String × Value))}
    (hLayers : ∀ layer ∈ layers, Layer layer) :
    ∃ s, ofLayers (layers.map Value.dict) = .ok s ∧
      (∀ f : SettingsField, f ≠ .rules → fields.IsGiven f (uppermost? f.key layers) s {}) ∧
      ∀ g : RuleField,
        RuleSet.fields.IsGiven g (uppermost? g.key (layers.map rulesOf)) s.rules {} := by
  have hMerged := merged_foldl hLayers
  have hFold := foldl_cover layers defaultEntries
  generalize layers.foldl _ defaultEntries = merged at hMerged hFold
  have hKeys := hMerged.layer.sorted.ordered.nodup
  obtain ⟨s, hRead, hGiven⟩ := fields.readEntries_ok hKeys hMerged.layer.accepts [] (by simp) {}
  -- The rules of the result are read from the rules of all layers.
  have hRules : RuleSet.ofValue (.dict (rulesOf merged)) = .ok s.rules := by
    have hAll := hGiven .rules
    have hGet : get? (fields.key .rules) merged = some (.dict (rulesOf merged)) := hMerged.rules
    rw [hGet] at hAll
    exact hAll
  obtain ⟨r, hReadRules, hGivenRules⟩ := RuleSet.fields.readEntries_ok
    hMerged.layer.sorted_rulesOf.ordered.nodup hMerged.layer.accepts_rulesOf [] (by simp) {}
  rw [← RuleSet.ofValue_dict, hRules] at hReadRules
  obtain rfl := Except.ok.inj hReadRules
  refine ⟨s, ?_, fun f hOther => ?_, fun g => ?_⟩
  · have hOfValue : ofValue (.dict merged) = .ok s := (ofValue_dict merged).trans hRead
    simp only [ofLayers, toValue_eq]
    exact congrArg (Except.mapError LoadFailure.mismatch) ((congrArg ofValue hFold).trans hOfValue)
  · have hSetting := hGiven f
    have hGet : get? (fields.key f) merged = _ := hMerged.setting f hOther
    rw [hGet] at hSetting
    exact Fields.IsGiven.of_or _ hSetting (given_default f)
  · have hRule := hGivenRules g
    have hGet : get? (RuleSet.fields.key g) (rulesOf merged) = _ := hMerged.rule g
    rw [hGet] at hRule
    exact Fields.IsGiven.of_or _ hRule (RuleSet.given_default g)

end Homonym
