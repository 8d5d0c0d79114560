import Homonym.Proofs.Settings.Environment
import Homonym.Proofs.Settings.Layers
import Homonym.Settings.Overrides

/-!
# Which source a setting comes from

The user, the project and the environment may each give some of the settings. Loading takes every
setting, and every rule on its own, from the environment if it is given there, else from the
project, else from the user, and else it is the default; the command line then changes what it has
options for (`Settings.load_by_precedence`).

The keys of a file may be spelled with capitals. They are respelled before anything else, which
leaves no capital, and so no other spelling of a setting (`SettingsField.eq_key_of_noCapital`). The
keys of the environment are taken as they are.
-/

namespace Homonym

open Text Value

/-! ## What a source says -/

/-- A key of a settings file in the spelling of the settings. -/
def spelled (key : String) : String :=
  String.ofList (snakeCase true key.toList)

/-- The value that some entries have for a key, with their own keys spelled as given. Of several the
last counts. -/
def assigned? (spell : String → String) (key : String) (entries : List (String × Value)) :
    Option Value :=
  (entries.reverse.find? fun e => spell e.1 == key).map Prod.snd

/-- The entries that some entries have for the rules. -/
def rulesIn (spell : String → String) (entries : List (String × Value)) :
    List (String × Value) :=
  entriesOf (assigned? spell SettingsField.rules.key entries)

/-- What the environment says for a key, else the project, else the user. -/
def chosen? (key : String) (user project environment : List (String × Value)) : Option Value :=
  (assigned? id key environment).or
    ((assigned? spelled key project).or (assigned? spelled key user))

/-- The values for rules are of the right types. -/
def RuleSet.WellTyped (spell : String → String) (entries : List (String × Value)) : Prop :=
  ∀ e ∈ entries, ∀ g : RuleField, spell e.1 = g.key → ∃ x, g.read e.2 = .ok x

/-- The values for settings are of the right types. For the rules this is a dictionary. -/
structure Settings.WellTyped (spell : String → String) (entries : List (String × Value)) :
    Prop where
  own : ∀ e ∈ entries, ∀ f : SettingsField, f ≠ .rules → spell e.1 = f.key →
    ∃ x, f.read e.2 = .ok x
  rules : ∀ e ∈ entries, spell e.1 = SettingsField.rules.key →
    ∃ inner, e.2 = .dict inner ∧ RuleSet.WellTyped spell inner

theorem RuleSet.WellTyped.nil {spell : String → String} : RuleSet.WellTyped spell [] :=
  fun _ hMem => nomatch hMem

theorem RuleSet.WellTyped.cons {spell : String → String} {key : String} {value : Value}
    {rest : List (String × Value)} {g : RuleField} {x : g.Content} (hKey : spell key = g.key)
    (hRead : g.read value = .ok x) (hRest : RuleSet.WellTyped spell rest) :
    RuleSet.WellTyped spell ((key, value) :: rest) := by
  refine List.forall_mem_cons.2 ⟨fun g' hKey' => ?_, hRest⟩
  obtain rfl : g = g' := RuleSet.fields.key_injective (hKey.symm.trans hKey')
  exact ⟨x, hRead⟩

theorem Settings.WellTyped.nil {spell : String → String} : Settings.WellTyped spell [] where
  own := fun _ hMem => nomatch hMem
  rules := fun _ hMem => nomatch hMem

theorem Settings.WellTyped.cons {spell : String → String} {key : String} {value : Value}
    {rest : List (String × Value)} {f : SettingsField} {x : f.Content} (hOther : f ≠ .rules)
    (hKey : spell key = f.key) (hRead : f.read value = .ok x)
    (hRest : Settings.WellTyped spell rest) : Settings.WellTyped spell ((key, value) :: rest) where
  own := by
    refine List.forall_mem_cons.2 ⟨fun f' _ hKey' => ?_, hRest.own⟩
    obtain rfl : f = f' := Settings.fields.key_injective (hKey.symm.trans hKey')
    exact ⟨x, hRead⟩
  rules := by
    refine List.forall_mem_cons.2 ⟨fun hRules => absurd ?_ hOther, hRest.rules⟩
    exact Settings.fields.key_injective (hKey.symm.trans hRules)

theorem Settings.WellTyped.consRules {spell : String → String} {key : String}
    {inner rest : List (String × Value)} (hKey : spell key = SettingsField.rules.key)
    (hInner : RuleSet.WellTyped spell inner) (hRest : Settings.WellTyped spell rest) :
    Settings.WellTyped spell ((key, .dict inner) :: rest) where
  own := by
    refine List.forall_mem_cons.2 ⟨fun f hOther hKey' => absurd ?_ hOther, hRest.own⟩
    exact Settings.fields.key_injective (hKey'.symm.trans hKey)
  rules := List.forall_mem_cons.2 ⟨fun _ => ⟨inner, rfl, hInner⟩, hRest.rules⟩

theorem exists_of_assigned? {spell : String → String} {key : String}
    {entries : List (String × Value)} {value : Value}
    (hAssigned : assigned? spell key entries = some value) :
    ∃ e ∈ entries, spell e.1 = key ∧ e.2 = value := by
  obtain ⟨e, hFind, rfl⟩ := Option.map_eq_some_iff.1 hAssigned
  exact ⟨e, List.mem_reverse.1 (List.mem_of_find?_eq_some hFind),
    by simpa using List.find?_some hFind, rfl⟩

/-! ## Keys without capitals -/

theorem noCapital_snakeCase (atFront : Bool) (text : List Char) :
    NoCapital (snakeCase atFront text) := by
  induction text generalizing atFront with
  | nil => simp [NoCapital, snakeCase]
  | cons c rest ih =>
    have hLower := isUpper_toLower c
    rw [snakeCase]
    split
    · cases atFront <;> simp_all [NoCapital]
    · simp_all [NoCapital]

theorem noCapital_spelled (key : String) : NoCapital (spelled key).toList := by
  rw [spelled, String.toList_ofList]
  exact noCapital_snakeCase true key.toList

theorem RuleField.eq_key_of_noCapital {key : String} {g : RuleField}
    (hKey : NoCapital key.toList) (hField : ofKey? key = some g) : key = g.key := by
  have hSpelling := List.find?_some hField
  simp only [Bool.or_eq_true, beq_iff_eq] at hSpelling
  rcases hSpelling with rfl | rfl
  · rfl
  · exact absurd hKey (by cases g <;> simp [NoCapital, otherKey])

theorem SettingsField.eq_key_of_noCapital {key : String} {f : SettingsField}
    (hKey : NoCapital key.toList) (hField : ofKey? key = some f) : key = f.key := by
  have hSpelling := List.find?_some hField
  simp only [Bool.or_eq_true, beq_iff_eq] at hSpelling
  rcases hSpelling with rfl | rfl
  · rfl
  · cases f with
    | rules => rfl
    | _ => exact absurd hKey (by simp [NoCapital, otherKey])

/-! ## Files -/

theorem normalizeEntries_eq (entries : List (String × Value)) :
    normalizeEntries entries = entries.map fun e => (spelled e.1, e.2.normalize) := by
  induction entries with
  | nil => rfl
  | cons e rest ih => rw [normalizeEntries, ih]; rfl

/-- The entries of a file in the spelling of the settings. -/
def respelled (entries : List (String × Value)) : List (String × Value) :=
  ofList (normalizeEntries entries)

theorem normalize_dict_eq (entries : List (String × Value)) :
    (Value.dict entries).normalize = .dict (respelled entries) := by
  rw [Value.normalize]
  rfl

theorem get?_respelled (key : String) (entries : List (String × Value)) :
    get? key (respelled entries) = (assigned? spelled key entries).map normalize := by
  rw [respelled, get?_ofList, normalizeEntries_eq, ← List.map_reverse, List.find?_map, assigned?,
    Option.map_map, Option.map_map]
  rfl

theorem exists_of_mem_respelled {entries : List (String × Value)} {e : String × Value}
    (hMem : e ∈ respelled entries) :
    ∃ e' ∈ entries, e.1 = spelled e'.1 ∧ e.2 = e'.2.normalize := by
  have hNormal := mem_ofList hMem
  rw [normalizeEntries_eq] at hNormal
  obtain ⟨e', hEntry, rfl⟩ := List.mem_map.1 hNormal
  exact ⟨e', hEntry, rfl, rfl⟩

/-- Rules that are well typed fit in their own spelling. -/
theorem RuleSet.WellTyped.accepts {entries : List (String × Value)}
    (hTyped : RuleSet.WellTyped spelled entries) : RuleSet.fields.Accepts (respelled entries) := by
  intro e hMem g hField
  obtain ⟨e', hEntry, hKey, hValue⟩ := exists_of_mem_respelled hMem
  have hOwn : e.1 = g.key :=
    RuleField.eq_key_of_noCapital (hKey ▸ noCapital_spelled e'.1) hField
  obtain ⟨x, hRead⟩ := hTyped e' hEntry g (hKey.symm.trans hOwn)
  refine ⟨hOwn, x, ?_⟩
  rw [hValue, (RuleField.isLeaf_of_read hRead).normalize]
  exact hRead

/-- **The entries of a file that are well typed make a layer.** -/
theorem Settings.WellTyped.layer {entries : List (String × Value)}
    (hTyped : Settings.WellTyped spelled entries) : Layer (respelled entries) where
  sorted := sorted_normalize (.dict entries)
  own := by
    intro key hMem f hField
    obtain ⟨e, hEntry, rfl⟩ := List.mem_map.1 hMem
    obtain ⟨e', -, hKey, -⟩ := exists_of_mem_respelled hEntry
    exact SettingsField.eq_key_of_noCapital (hKey ▸ noCapital_spelled e'.1) hField
  typed := by
    intro f hRules value hGet
    rw [get?_respelled] at hGet
    obtain ⟨written, hAssigned, rfl⟩ := Option.map_eq_some_iff.1 hGet
    obtain ⟨e, hMem, hKey, rfl⟩ := exists_of_assigned? hAssigned
    obtain ⟨x, hRead⟩ := hTyped.own e hMem f hRules hKey
    rw [(SettingsField.isLeaf_of_read hRules hRead).normalize]
    exact ⟨x, hRead⟩
  rules := by
    intro value hGet
    rw [get?_respelled] at hGet
    obtain ⟨written, hAssigned, rfl⟩ := Option.map_eq_some_iff.1 hGet
    obtain ⟨e, hMem, hKey, rfl⟩ := exists_of_assigned? hAssigned
    obtain ⟨inner, hInner, hRules⟩ := hTyped.rules e hMem hKey
    exact ⟨respelled inner, by rw [hInner, normalize_dict_eq], hRules.accepts⟩

theorem rulesOf_respelled (entries : List (String × Value)) :
    rulesOf (respelled entries) = respelled (rulesIn spelled entries) := by
  rw [rulesOf, rulesIn, get?_respelled]
  cases assigned? spelled SettingsField.rules.key entries with
  | none => rfl
  | some value =>
    cases value with
    | dict inner =>
      rw [Option.map_some, normalize_dict_eq]
      rfl
    | _ => rfl

theorem Settings.WellTyped.rulesIn {spell : String → String} {entries : List (String × Value)}
    (hTyped : Settings.WellTyped spell entries) :
    RuleSet.WellTyped spell (rulesIn spell entries) := by
  unfold Homonym.rulesIn
  cases hAssigned : assigned? spell SettingsField.rules.key entries with
  | none => exact fun e hMem => nomatch hMem
  | some value =>
    obtain ⟨e, hMem, hKey, rfl⟩ := exists_of_assigned? hAssigned
    obtain ⟨inner, hInner, hRules⟩ := hTyped.rules e hMem hKey
    rw [hInner]
    exact hRules

theorem Settings.WellTyped.get?_eq {entries : List (String × Value)}
    (hTyped : Settings.WellTyped spelled entries) {f : SettingsField} (hRules : f ≠ .rules) :
    get? f.key (respelled entries) = assigned? spelled f.key entries := by
  rw [get?_respelled]
  cases hAssigned : assigned? spelled f.key entries with
  | none => rfl
  | some value =>
    obtain ⟨e, hMem, hKey, rfl⟩ := exists_of_assigned? hAssigned
    obtain ⟨x, hRead⟩ := hTyped.own e hMem f hRules hKey
    exact congrArg some (SettingsField.isLeaf_of_read hRules hRead).normalize

theorem RuleSet.WellTyped.get?_eq {entries : List (String × Value)}
    (hTyped : RuleSet.WellTyped spelled entries) (g : RuleField) :
    get? g.key (respelled entries) = assigned? spelled g.key entries := by
  rw [get?_respelled]
  cases hAssigned : assigned? spelled g.key entries with
  | none => rfl
  | some value =>
    obtain ⟨e, hMem, hKey, rfl⟩ := exists_of_assigned? hAssigned
    obtain ⟨x, hRead⟩ := hTyped e hMem g hKey
    exact congrArg some (RuleField.isLeaf_of_read hRead).normalize

/-! ## The environment -/

theorem assigned?_id {entries : List (String × Value)} (hOrdered : Ordered entries)
    (key : String) : assigned? id key entries = get? key entries := by
  have hList := get?_ofList key entries
  rw [ofList_of_ordered hOrdered] at hList
  exact hList.symm

theorem rulesIn_id {entries : List (String × Value)} (hOrdered : Ordered entries) :
    rulesIn id entries = rulesOf entries := by
  rw [rulesIn, rulesOf, assigned?_id hOrdered]

/-- **The settings of an environment that are well typed make a layer**, if no rule among them has
the other spelling of its key. -/
theorem layer_environment {environment : List (String × String)} {entries : List (String × Value)}
    (hEntries : Variables.settings environment = .dict entries)
    (hTyped : Settings.WellTyped id entries)
    (hSpelling : ∀ e ∈ rulesIn id entries, ∀ g : RuleField, e.1 ≠ g.otherKey) :
    Layer entries where
  sorted := hEntries ▸ Variables.sorted_settings environment
  own := by
    intro key hMem f hField
    obtain ⟨others, hOthers, hKeys⟩ := Variables.exists_settings environment
    obtain rfl := Value.dict.inj (hOthers.symm.trans hEntries)
    exact SettingsField.eq_key_of_noCapital (hKeys key hMem) hField
  typed := by
    intro f hRules value hGet
    exact hTyped.own _ (mem_of_get? hGet) f hRules rfl
  rules := by
    intro value hGet
    obtain ⟨inner, rfl, hRules⟩ := hTyped.rules _ (mem_of_get? hGet) rfl
    refine ⟨inner, rfl, fun e hMem g hField => ?_⟩
    have hSorted : (Value.dict entries).Sorted := hEntries ▸ Variables.sorted_settings environment
    have hInner : rulesIn id entries = inner := by
      rw [rulesIn_id hSorted.ordered, rulesOf, hGet]
      rfl
    -- The rule would be found under its other spelling too.
    have hFound := List.find?_some hField
    simp only [Bool.or_eq_true, beq_iff_eq] at hFound
    have hKey : e.1 = g.key :=
      (hFound.resolve_right fun hOther => hSpelling e (hInner ▸ hMem) g hOther.symm).symm
    exact ⟨hKey, hRules e hMem g hKey⟩

/-! ## The command line -/

/-- The command line has an option for a rule. -/
def CommandLine.ScanArguments.AsksForRule (a : ScanArguments) : RuleField → Prop
  | .allowSameFileOverloads => a.separateOverloads = true
  | .allowCrossModuleDuplicates => a.allowCrossModule = true
  | .maxDuplicatesPerName => a.maxDuplicates ≠ none

/-- The command line has an option for a setting. There is none for hidden files. -/
def CommandLine.ScanArguments.AsksFor (a : ScanArguments) : SettingsField → Prop
  | .includeInternal => a.includeInternal = true
  | .includes => a.includes ≠ []
  | .excludes => a.excludes ≠ []
  | .ignoredKinds => a.ignoredKinds ≠ []
  | .ignoredNames => a.ignoredNames ≠ []
  | .followLinks => a.followLinks = true
  | .skipHidden => False
  | .respectIgnoreFile => a.noIgnoreFile = true
  | .rules => ∃ g, a.AsksForRule g

/-- The settings `t` are `s` as the command line changes them. -/
structure Settings.Overridden (a : CommandLine.ScanArguments) (s t : Settings) : Prop where
  unasked : ∀ f : SettingsField, ¬a.AsksFor f → f.get t = f.get s
  unaskedRule : ∀ g : RuleField, ¬a.AsksForRule g → g.get t.rules = g.get s.rules
  includes : a.includes ≠ [] → t.includes = a.includes
  excludes : t.excludes = s.excludes ++ a.excludes
  ignoredKinds : t.ignoredKinds =
    s.ignoredKinds ++ (firstPer id a.ignoredKinds).filter fun k => k ∉ s.ignoredKinds
  ignoredNames : t.ignoredNames =
    s.ignoredNames ++ (firstPer id a.ignoredNames).filter fun n => n ∉ s.ignoredNames
  includeInternal : a.includeInternal = true → t.includeInternal = true
  followLinks : a.followLinks = true → t.followLinks = true
  respectIgnoreFile : a.noIgnoreFile = true → t.respectIgnoreFile = false
  overloads : a.separateOverloads = true → t.rules.allowSameFileOverloads = false
  crossModule : a.allowCrossModule = true → t.rules.allowCrossModuleDuplicates = true
  cap : ∀ n, a.maxDuplicates = some n → t.rules.maxDuplicatesPerName = n

/-- What is united to a list comes behind it, without what it has and each element once. -/
theorem unite_eq {α : Type} [DecidableEq α] (own others : List α) :
    unite own others = own ++ (firstPer id others).filter fun x => x ∉ own := by
  induction others generalizing own with
  | nil => simp [unite, firstPer]
  | cons x others ih =>
    have hStep : unite own (x :: others) = unite (if x ∈ own then own else own ++ [x]) others := rfl
    rw [hStep, ih, firstPer]
    by_cases hMem : x ∈ own
    · have hSame : ((firstPer id others).filter fun y => id y ≠ id x).filter (fun y => y ∉ own) =
          (firstPer id others).filter fun y => y ∉ own := by
        rw [List.filter_filter]
        refine List.filter_congr fun y _ => ?_
        by_cases hEq : y = x
        · simp [hEq, hMem]
        · simp [hEq]
      rw [if_pos hMem, List.filter_cons_of_neg (by simpa using hMem), hSame]
    · have hSame : ((firstPer id others).filter fun y => id y ≠ id x).filter (fun y => y ∉ own) =
          (firstPer id others).filter fun y => y ∉ own ++ [x] := by
        rw [List.filter_filter]
        refine List.filter_congr fun y _ => ?_
        simp
      rw [if_neg hMem, List.filter_cons_of_pos (by simpa using hMem), hSame, List.append_assoc]
      rfl

theorem RuleSet.eq_of_get {r q : RuleSet} (hSame : ∀ g : RuleField, g.get r = g.get q) : r = q := by
  cases r
  cases q
  have hOverloads := hSame .allowSameFileOverloads
  have hCross := hSame .allowCrossModuleDuplicates
  have hCap := hSame .maxDuplicatesPerName
  simp only [RuleField.get] at hOverloads hCross hCap
  rw [hOverloads, hCross, hCap]

theorem Settings.get_rules_withArguments (s : Settings) {a : CommandLine.ScanArguments}
    {g : RuleField} (hUnasked : ¬a.AsksForRule g) :
    g.get (s.withArguments a).rules = g.get s.rules := by
  cases g with
  | allowSameFileOverloads =>
    have hFlag : a.separateOverloads = false := eq_false_of_ne_true hUnasked
    show (s.rules.allowSameFileOverloads && !a.separateOverloads) = _
    rw [hFlag, Bool.not_false, Bool.and_true]
    rfl
  | allowCrossModuleDuplicates =>
    have hFlag : a.allowCrossModule = false := eq_false_of_ne_true hUnasked
    show (s.rules.allowCrossModuleDuplicates || a.allowCrossModule) = _
    rw [hFlag, Bool.or_false]
    rfl
  | maxDuplicatesPerName =>
    have hNone : a.maxDuplicates = none := not_not.1 hUnasked
    show a.maxDuplicates.getD s.rules.maxDuplicatesPerName = _
    rw [hNone]
    rfl

theorem Settings.get_withArguments (s : Settings) {a : CommandLine.ScanArguments}
    {f : SettingsField} (hUnasked : ¬a.AsksFor f) : f.get (s.withArguments a) = f.get s := by
  cases f with
  | includeInternal =>
    have hFlag : a.includeInternal = false := eq_false_of_ne_true hUnasked
    show (s.includeInternal || a.includeInternal) = _
    rw [hFlag, Bool.or_false]
    rfl
  | includes =>
    have hNone : a.includes = [] := not_not.1 hUnasked
    show (if a.includes.isEmpty then s.includes else a.includes) = _
    rw [hNone]
    rfl
  | excludes =>
    have hNone : a.excludes = [] := not_not.1 hUnasked
    show s.excludes ++ a.excludes = _
    rw [hNone, List.append_nil]
    rfl
  | ignoredKinds =>
    have hNone : a.ignoredKinds = [] := not_not.1 hUnasked
    show unite s.ignoredKinds a.ignoredKinds = _
    rw [hNone]
    rfl
  | ignoredNames =>
    have hNone : a.ignoredNames = [] := not_not.1 hUnasked
    show unite s.ignoredNames a.ignoredNames = _
    rw [hNone]
    rfl
  | followLinks =>
    have hFlag : a.followLinks = false := eq_false_of_ne_true hUnasked
    show (s.followLinks || a.followLinks) = _
    rw [hFlag, Bool.or_false]
    rfl
  | skipHidden => rfl
  | respectIgnoreFile =>
    have hFlag : a.noIgnoreFile = false := eq_false_of_ne_true hUnasked
    show (s.respectIgnoreFile && !a.noIgnoreFile) = _
    rw [hFlag, Bool.not_false, Bool.and_true]
    rfl
  | rules =>
    refine RuleSet.eq_of_get fun g => s.get_rules_withArguments fun hAsked => ?_
    exact hUnasked ⟨g, hAsked⟩

/-- **The command line changes what it has options for.** -/
theorem Settings.overridden_withArguments (s : Settings) (a : CommandLine.ScanArguments) :
    Settings.Overridden a s (s.withArguments a) where
  unasked := fun _ hUnasked => s.get_withArguments hUnasked
  unaskedRule := fun _ hUnasked => s.get_rules_withArguments hUnasked
  includes := by
    intro hAsked
    simp [withArguments, hAsked]
  excludes := rfl
  ignoredKinds := unite_eq _ _
  ignoredNames := unite_eq _ _
  includeInternal := fun hAsked => by simp [withArguments, hAsked]
  followLinks := fun hAsked => by simp [withArguments, hAsked]
  respectIgnoreFile := fun hAsked => by simp [withArguments, hAsked]
  overloads := fun hAsked => by simp [withArguments, hAsked]
  crossModule := fun hAsked => by simp [withArguments, hAsked]
  cap := fun n hAsked => by simp [withArguments, hAsked]

/-! ## Loading -/

theorem uppermost?_eq (key : String) (user project environment : List (String × Value)) :
    uppermost? key [user, project, environment] =
      (get? key environment).or ((get? key project).or (get? key user)) := by
  have hNone : uppermost? key [] = none := rfl
  show uppermost? key ([] ++ [user] ++ [project] ++ [environment]) = _
  rw [uppermost?_concat, uppermost?_concat, uppermost?_concat, hNone, Option.or_none]

/-- A settings file alone in a directory is found and is a layer. -/
theorem fileLayer_only (name : String) {text : String} {value : Value}
    (hName : Node.isEntryName name = true)
    (hParse : (if isJsonPath name then jsonDict? text else tomlDict? text) = some value) :
    FileTree.pathExists (.dir [(name, .file (.text text))]) name = true ∧
      fileLayer (.dir [(name, .file (.text text))]) name = .ok value.normalize := by
  have hLookup : FileTree.lookup (.dir [(name, .file (.text text))]) name =
      .ok (.file (.text text)) :=
    FileTree.lookup_entry hName (FileTree.entry?_single _) rfl
  have hText : FileTree.readText (.dir [(name, .file (.text text))]) name = .ok text := by
    simp only [FileTree.readText, FileTree.read, hLookup]
  constructor
  · simp only [FileTree.pathExists, hLookup]
  · rw [fileLayer, FileTree.isFile_of_readText hText, hText]
    simp only [Bool.not_true, Bool.false_eq_true, if_false, hParse]

/-- **Every setting is loaded from the uppermost source that gives it**, and every rule is on its
own in this. What none of the three gives is the default. The command line changes of the result
only what it asks for, and that as `Overridden` says.

Values of wrong types fail to load, and so does a rule that the environment gives in the spelling
that is for files only. Keys that are no settings are let through. -/
theorem Settings.load_by_precedence {tree : FileTree} {sources : SettingsSources}
    {user project environment : List (String × Value)}
    (hUser : userLayer sources = .ok (Value.dict user).normalize)
    (hProject : (projectLayer tree sources).1 = .ok (Value.dict project).normalize)
    (hEnvironment : Variables.settings sources.environment = .dict environment)
    (hUserTyped : WellTyped spelled user) (hProjectTyped : WellTyped spelled project)
    (hEnvironmentTyped : WellTyped id environment)
    (hSpelling : ∀ e ∈ rulesIn id environment, ∀ g : RuleField, e.1 ≠ g.otherKey) :
    ∃ s, (load tree sources).1 = .ok s ∧
      (∀ f : SettingsField, f ≠ .rules →
        fields.IsGiven f (chosen? f.key user project environment) s {}) ∧
      (∀ g : RuleField,
        RuleSet.fields.IsGiven g
          (chosen? g.key (rulesIn spelled user) (rulesIn spelled project) (rulesIn id environment))
          s.rules {}) ∧
      ∀ a, Overridden a s (s.withArguments a) := by
  have hLayer := layer_environment hEnvironment hEnvironmentTyped hSpelling
  have hLayers : ∀ layer ∈ [respelled user, respelled project, environment], Layer layer := by
    simp only [List.forall_mem_cons]
    exact ⟨hUserTyped.layer, hProjectTyped.layer, hLayer, nofun⟩
  obtain ⟨s, hOfLayers, hSettings, hRules⟩ := ofLayers_ok hLayers
  refine ⟨s, ?_, fun f hOther => ?_, fun g => ?_, s.overridden_withArguments⟩
  · rw [normalize_dict_eq] at hUser hProject
    obtain ⟨log, hLog⟩ :
        ∃ log, projectLayer tree sources = (.ok (.dict (respelled project)), log) :=
      ⟨_, Prod.ext hProject rfl⟩
    simp only [load, hUser, hLog, hEnvironment]
    exact hOfLayers
  · have hGiven := hSettings f hOther
    rw [uppermost?_eq, hUserTyped.get?_eq hOther, hProjectTyped.get?_eq hOther,
      ← assigned?_id hLayer.sorted.ordered] at hGiven
    exact hGiven
  · have hGiven := hRules g
    simp only [List.map_cons, List.map_nil, uppermost?_eq, rulesOf_respelled] at hGiven
    rw [hUserTyped.rulesIn.get?_eq, hProjectTyped.rulesIn.get?_eq,
      ← assigned?_id hLayer.sorted_rulesOf.ordered, ← rulesIn_id hLayer.sorted.ordered] at hGiven
    exact hGiven

/-- A setting that the user and the project give in different spellings, and rules that the user and
the environment give. -/
theorem Settings.load_three_sources :
    let userText := "followSymlinks = true\n[rules]\nmaxDuplicatesPerName = 7\n"
    let projectText := "\x7b\"follow_symlinks\": false, \"ignoreNames\": [\"main\"]\x7d"
    let user : List (String × Value) :=
      [("followSymlinks", .bool true), ("rules", .dict [("maxDuplicatesPerName", .int 7)])]
    let project : List (String × Value) :=
      [("follow_symlinks", .bool false), ("ignoreNames", .arr [.str "main"])]
    let environment : List (String × Value) :=
      [("rules", .dict [("allow_cross_module_duplicates", .bool true)])]
    let tree : FileTree := .dir [("team.json", .file (.text projectText))]
    let sources : SettingsSources :=
      { root := "."
        asked := some "team.json"
        user := some ⟨.dir [("config.toml", .file (.text userText))], "config.toml"⟩
        environment := [("NAMEDUPE_RULES__ALLOW_CROSS_MODULE_DUPLICATES", "true")] }
    userLayer sources = .ok (Value.dict user).normalize ∧
      (projectLayer tree sources).1 = .ok (Value.dict project).normalize ∧
      Variables.settings sources.environment = .dict environment ∧
      WellTyped spelled user ∧ WellTyped spelled project ∧ WellTyped id environment ∧
      (∀ e ∈ rulesIn id environment, ∀ g : RuleField, e.1 ≠ g.otherKey) ∧
      ∃ s, (load tree sources).1 = .ok s ∧ s.followLinks = false ∧ s.ignoredNames = ["main"] ∧
        s.skipHidden = true ∧ s.rules.allowCrossModuleDuplicates = true ∧
        s.rules.maxDuplicatesPerName = 7 ∧ s.rules.allowSameFileOverloads = true := by
  have hToml : tomlDict? "followSymlinks = true\n[rules]\nmaxDuplicatesPerName = 7\n" =
      some (.dict [("followSymlinks", .bool true),
        ("rules", .dict [("maxDuplicatesPerName", .int 7)])]) := by
    decide +kernel
  have hJson : jsonDict? "\x7b\"follow_symlinks\": false, \"ignoreNames\": [\"main\"]\x7d" =
      some (.dict [("follow_symlinks", .bool false), ("ignoreNames", .arr [.str "main"])]) := by
    decide +kernel
  have hVariables : Variables.settings [("NAMEDUPE_RULES__ALLOW_CROSS_MODULE_DUPLICATES", "true")] =
      .dict [("rules", .dict [("allow_cross_module_duplicates", .bool true)])] := by
    decide +kernel
  intro userText projectText user project environment tree sources
  have hUser : userLayer sources = .ok (Value.dict user).normalize := by
    obtain ⟨hExists, hLayer⟩ :=
      fileLayer_only "config.toml" (by decide) ((if_neg (by decide)).trans hToml)
    simp only [userLayer, sources, userText, hExists, if_true]
    exact hLayer
  have hProject : (projectLayer tree sources).1 = .ok (Value.dict project).normalize := by
    obtain ⟨hExists, hLayer⟩ :=
      fileLayer_only "team.json" (by decide) ((if_pos (by decide)).trans hJson)
    simp only [projectLayer, projectFile?, sources, tree, projectText, hExists, if_true]
    exact hLayer
  have hEnvironment : Variables.settings sources.environment = .dict environment := hVariables
  have hUserTyped : WellTyped spelled user := by
    refine .cons (f := .followLinks) (by decide) (by decide) rfl (.consRules (by decide) ?_ .nil)
    exact .cons (g := .maxDuplicatesPerName) (by decide) rfl .nil
  have hProjectTyped : WellTyped spelled project :=
    .cons (f := .followLinks) (by decide) (by decide) rfl
      (.cons (f := .ignoredNames) (by decide) (by decide) rfl .nil)
  have hEnvironmentTyped : WellTyped id environment :=
    .consRules (by decide)
      (.cons (g := .allowCrossModuleDuplicates) (by decide) rfl .nil) .nil
  have hSpelling : ∀ e ∈ rulesIn id environment, ∀ g : RuleField, e.1 ≠ g.otherKey := by
    intro e hMem g
    have hRule : e = ("allow_cross_module_duplicates", .bool true) := List.mem_singleton.1 hMem
    rw [hRule]
    cases g <;> decide
  obtain ⟨s, hLoad, hSettings, hRules, -⟩ := load_by_precedence hUser hProject hEnvironment
    hUserTyped hProjectTyped hEnvironmentTyped hSpelling
  refine ⟨hUser, hProject, hEnvironment, hUserTyped, hProjectTyped, hEnvironmentTyped, hSpelling, s,
    hLoad, ?_, ?_, ?_, ?_, ?_, ?_⟩
  · exact (Except.ok.inj (hSettings .followLinks (by decide))).symm
  · exact (Except.ok.inj (hSettings .ignoredNames (by decide))).symm
  · exact hSettings .skipHidden (by decide)
  · exact (Except.ok.inj (hRules .allowCrossModuleDuplicates)).symm
  · exact (Except.ok.inj (hRules .maxDuplicatesPerName)).symm
  · exact hRules .allowSameFileOverloads

end Homonym
