import Homonym.Proofs.Toml.Document
import Homonym.Proofs.FileTree.Plain
import Homonym.Settings.Load
import Homonym.Settings.Write

/-!
# Settings that were written are loaded again

The text of some settings, as the only settings file, is loaded as these settings
(`Settings.load_toToml`). On the way the text is read as the value of the settings
(`tomlDict?_toToml`), and that value passes through all layers unchanged: it has no envelopes and no
keys with capitals, it covers the defaults as a whole, and it is read as the settings.
-/

namespace Homonym

/-! ## Entries in order -/

namespace Value

/-- The keys increase. -/
def Ordered {α : Type} (entries : List (String × α)) : Prop :=
  (entries.map Prod.fst).Pairwise (· < ·)

/-- An entry goes behind all that have lesser keys. -/
theorem insert_append {α : Type} {key : String} {front : List (String × α)}
    (hFront : ∀ e ∈ front, e.1 < key) (value : α) (rest : List (String × α)) :
    insert key value (front ++ rest) = front ++ insert key value rest := by
  induction front with
  | nil => rfl
  | cons e front ih =>
    obtain ⟨k, v⟩ := e
    obtain ⟨hLess, hFront⟩ := List.forall_mem_cons.1 hFront
    have hNe : k ≠ key := fun hEq => String.lt_irrefl key (hEq ▸ hLess)
    rw [List.cons_append, insert, if_neg hNe, if_neg (String.lt_asymm hLess), ih hFront,
      List.cons_append]

theorem Ordered.lt {α : Type} {front rest : List (String × α)} {e : String × α}
    (hOrdered : Ordered (front ++ e :: rest)) : ∀ before ∈ front, before.1 < e.1 := by
  intro before hMem
  rw [Ordered, List.map_append, List.map_cons] at hOrdered
  exact (List.pairwise_append.1 hOrdered).2.2 _ (List.mem_map_of_mem hMem) _ (by simp)

theorem ofList_of_ordered {α : Type} {entries : List (String × α)} (hOrdered : Ordered entries) :
    ofList entries = entries := by
  -- The entries so far are a front of the list, and the next key is greater than theirs.
  have hFold : ∀ front rest : List (String × α), Ordered (front ++ rest) →
      rest.foldl (fun entries e => insert e.1 e.2 entries) front = front ++ rest := by
    intro front rest hOrdered
    induction rest generalizing front with
    | nil => simp
    | cons e rest ih =>
      have hInsert : insert e.1 e.2 front = front ++ [e] := by
        simpa [insert] using insert_append hOrdered.lt e.2 []
      rw [List.foldl_cons, hInsert, ih (front ++ [e]) (by simpa using hOrdered)]
      simp
  exact hFold [] entries hOrdered

/-- A dictionary with its keys in snake case stays as it is. -/
theorem normalize_dict {entries : List (String × Value)} (hOrdered : Ordered entries)
    (hKeys : ∀ key ∈ entries.map Prod.fst, snakeCase true key.toList = key.toList)
    (hValues : ∀ e ∈ entries, e.2.normalize = e.2) :
    (Value.dict entries).normalize = .dict entries := by
  have hSame : normalizeEntries entries = entries := by
    clear hOrdered
    induction entries with
    | nil => rfl
    | cons e entries ih =>
      obtain ⟨key, value⟩ := e
      obtain ⟨hKey, hKeys⟩ := List.forall_mem_cons.1 hKeys
      obtain ⟨hValue, hValues⟩ := List.forall_mem_cons.1 hValues
      rw [normalizeEntries, hKey, hValue, ih hKeys hValues, String.ofList_toList]
  rw [normalize, hSame, ofList_of_ordered hOrdered]

/-- Entries that are laid over others with the same keys take their place. -/
theorem coverEntries_append {front upper lower : List (String × Value)}
    (hOrdered : Ordered (front ++ upper))
    (hLaid : List.Forall₂ (fun u l => u.1 = l.1 ∧ u.2.cover l.2 = u.2) upper lower) :
    coverEntries upper (front ++ lower) = front ++ upper := by
  induction hLaid generalizing front with
  | nil => rw [coverEntries]
  | @cons u l upper lower hFirst hRest ih =>
    obtain ⟨key, value⟩ := u
    obtain ⟨_, below⟩ := l
    obtain ⟨rfl, hValue⟩ := hFirst
    have hGet : get? key (front ++ (key, below) :: lower) = some below := by
      have hNone : front.find? (fun e => e.1 == key) = none := by
        refine List.find?_eq_none.2 fun e he hEq => ?_
        exact String.lt_irrefl key (eq_of_beq hEq ▸ hOrdered.lt e he)
      simp [get?, List.find?_append, hNone]
    have hInsert : insert key value (front ++ (key, below) :: lower) =
        (front ++ [(key, value)]) ++ lower := by
      rw [insert_append hOrdered.lt, insert, if_pos rfl, List.append_assoc]
      rfl
    simp only [coverEntries, hGet, hValue, hInsert]
    rw [ih (by simpa using hOrdered), List.append_assoc]
    rfl

theorem cover_dict {upper lower : List (String × Value)} (hOrdered : Ordered upper)
    (hLaid : List.Forall₂ (fun u l => u.1 = l.1 ∧ u.2.cover l.2 = u.2) upper lower) :
    (Value.dict upper).cover (.dict lower) = .dict upper := by
  have hOver : coverEntries upper ([] ++ lower) = [] ++ upper := coverEntries_append hOrdered hLaid
  rw [cover, ← List.nil_append lower, hOver, List.nil_append]

end Value

/-! ## The value of some settings -/

/-- The entries of some rules, in the order of their keys. -/
def RuleSet.entries (r : RuleSet) : List (String × Value) := [
  ("allow_cross_module_duplicates", .bool r.allowCrossModuleDuplicates),
  ("allow_same_file_overloads", .bool r.allowSameFileOverloads),
  ("max_duplicates_per_name", .int r.maxDuplicatesPerName.toInt)]

/-- The entries of some settings, in the order of their keys. -/
def Settings.entries (s : Settings) : List (String × Value) := [
  ("exclude_patterns", .arr (s.excludes.map .str)),
  ("follow_symlinks", .bool s.followLinks),
  ("ignore_names", .arr (s.ignoredNames.map .str)),
  ("ignore_types", .arr (s.ignoredKinds.map fun k => .str k.label)),
  ("include_internal", .bool s.includeInternal),
  ("include_patterns", .arr (s.includes.map .str)),
  ("respect_gitignore", .bool s.respectIgnoreFile),
  ("rules", s.rules.toValue),
  ("skip_hidden", .bool s.skipHidden)]

theorem RuleSet.toValue_eq (r : RuleSet) : r.toValue = .dict r.entries := rfl

theorem Settings.toValue_eq (s : Settings) : s.toValue = .dict s.entries := rfl

/-- The keys are the same for all rules, so they are checked for the default ones. -/
theorem RuleSet.map_fst_entries (r : RuleSet) :
    r.entries.map Prod.fst = ({} : RuleSet).entries.map Prod.fst := rfl

theorem Settings.map_fst_entries (s : Settings) :
    s.entries.map Prod.fst = ({} : Settings).entries.map Prod.fst := rfl

theorem RuleSet.ordered_entries (r : RuleSet) : Value.Ordered r.entries := by
  rw [Value.Ordered, map_fst_entries]
  decide

theorem Settings.ordered_entries (s : Settings) : Value.Ordered s.entries := by
  rw [Value.Ordered, map_fst_entries]
  decide

theorem RuleSet.normalize_toValue (r : RuleSet) : r.toValue.normalize = r.toValue := by
  have hKeys : ∀ key ∈ ({} : RuleSet).entries.map Prod.fst,
      snakeCase true key.toList = key.toList := by decide
  rw [toValue_eq]
  refine Value.normalize_dict r.ordered_entries (r.map_fst_entries ▸ hKeys) ?_
  simp [entries, Value.normalize]

/-- The keys are in snake case already. -/
theorem Settings.normalize_toValue (s : Settings) : s.toValue.normalize = s.toValue := by
  have hKeys : ∀ key ∈ ({} : Settings).entries.map Prod.fst,
      snakeCase true key.toList = key.toList := by decide
  rw [toValue_eq]
  refine Value.normalize_dict s.ordered_entries (s.map_fst_entries ▸ hKeys) ?_
  simp [entries, Value.normalize, RuleSet.normalize_toValue]

theorem RuleSet.cover_toValue (r q : RuleSet) : r.toValue.cover q.toValue = r.toValue := by
  rw [toValue_eq, toValue_eq]
  refine Value.cover_dict r.ordered_entries ?_
  simp [entries, Value.cover]

/-- Settings cover others as a whole. -/
theorem Settings.cover_toValue (s t : Settings) : s.toValue.cover t.toValue = s.toValue := by
  rw [toValue_eq, toValue_eq]
  refine Value.cover_dict s.ordered_entries ?_
  simp [entries, Value.cover, RuleSet.cover_toValue]

/-! ## Envelopes -/

theorem openElements?_map {α : Type} {isMark : Value → Bool} {write : α → Value}
    (hOpen : ∀ x, (write x).open? isMark = some (write x)) (all : List α) :
    (Value.arr (all.map write)).open? isMark = some (.arr (all.map write)) := by
  have hAll : openElements? isMark (all.map write) = some (all.map write) := by
    induction all with
    | nil => rfl
    | cons x all ih => simp [openElements?, hOpen, ih]
  rw [Value.open?, hAll]
  rfl

theorem openEntries?_self {isMark : Value → Bool} {entries : List (String × Value)}
    (hOpen : ∀ e ∈ entries, e.2.open? isMark = some e.2) :
    openEntries? isMark entries = some entries := by
  induction entries with
  | nil => rfl
  | cons e entries ih =>
    obtain ⟨key, value⟩ := e
    simp [openEntries?, hOpen (key, value) (by simp), ih fun e he => hOpen e (by simp [he])]

/-- A dictionary without reserved keys is no envelope. -/
theorem Value.open?_dict {isMark : Value → Bool} {entries : List (String × Value)}
    (hOpen : ∀ e ∈ entries, e.2.open? isMark = some e.2)
    (hMark : markKey ∉ entries.map Prod.fst) (hEnvelope : envelopeKey ∉ entries.map Prod.fst) :
    (Value.dict entries).open? isMark = some (.dict entries) := by
  have hNone : ∀ key ∉ entries.map Prod.fst, get? key entries = none := by
    intro key hKey
    have hFind : entries.find? (fun e => e.1 == key) = none := by
      refine List.find?_eq_none.2 fun e he hEq => hKey ?_
      exact List.mem_map.2 ⟨e, he, by simpa using hEq⟩
    rw [get?, hFind]
    rfl
  have hFilter : entries.filter (fun e => e.1 != markKey) = entries := by
    refine List.filter_eq_self.2 fun e he => ?_
    have hNe : e.1 ≠ markKey := fun hEq => hMark (hEq ▸ List.mem_map_of_mem he)
    simpa using hNe
  simp only [Value.open?, openEntries?_self hOpen, hNone markKey hMark, ofEntries,
    hNone envelopeKey hEnvelope, hFilter]

theorem RuleSet.open?_toValue (isMark : Value → Bool) (r : RuleSet) :
    r.toValue.open? isMark = some r.toValue := by
  have hMark : markKey ∉ ({} : RuleSet).entries.map Prod.fst := by decide
  have hEnvelope : envelopeKey ∉ ({} : RuleSet).entries.map Prod.fst := by decide
  rw [toValue_eq]
  refine Value.open?_dict ?_ hMark hEnvelope
  simp [entries, Value.open?]

/-- No setting is in an envelope. -/
theorem Settings.openEntries?_entries (isMark : Value → Bool) (s : Settings) :
    openEntries? isMark s.entries = some s.entries := by
  have hText : ∀ text, (Value.str text).open? isMark = some (.str text) := fun _ => rfl
  have hTexts : ∀ all : List String,
      (Value.arr (all.map .str)).open? isMark = some (.arr (all.map .str)) :=
    openElements?_map hText
  refine openEntries?_self ?_
  simp only [entries, List.forall_mem_cons, hTexts, RuleSet.open?_toValue,
    openElements?_map fun k : Kind => hText k.label]
  simp [Value.open?]

/-! ## Reading the value -/

theorem Value.toElements_map {α : Type} {read : Value → Fit α} {write : α → Value}
    (hRead : ∀ x, read (write x) = .ok x) (place : Nat) (all : List α) :
    toElements read place (all.map write) = .ok all := by
  induction all generalizing place with
  | nil => rfl
  | cons x all ih =>
    rw [List.map_cons, toElements, hRead]
    simp only [ih]
    rfl

theorem Value.toWord_int (n : Int64) : Value.toWord (.int n.toInt) = .ok n := by
  rw [toWord, if_pos ⟨n.minValue_le_toInt, n.toInt_le⟩, Int64.ofInt_toInt]

theorem RuleSet.ofValue_toValue (r : RuleSet) : RuleSet.ofValue r.toValue = .ok r := by
  simp [toValue_eq, entries, ofValue, Value.readRecord, Value.readEntries, RuleField.ofKey?,
    RuleField.all, RuleField.key, RuleField.otherKey, setField, Value.toBool, Value.toWord_int,
    Except.map]

/-- The value is read as the settings. -/
theorem Settings.ofValue_toValue (s : Settings) : ofValue s.toValue = .ok s := by
  have hTexts : ∀ all : List String, Value.toList Value.toText (.arr (all.map .str)) = .ok all := by
    intro all
    have hText : ∀ text, Value.toText (.str text) = .ok text := fun _ => rfl
    exact Value.toElements_map hText 0 all
  have hKinds : ∀ all : List Kind,
      Value.toList Value.toKind (.arr (all.map fun k => .str k.label)) = .ok all := by
    intro all
    refine Value.toElements_map (fun k => ?_) 0 all
    rw [Value.toKind, Value.toKindLabel, Kind.ofLabel?_label]
  simp [toValue_eq, entries, ofValue, Value.readRecord, Value.readEntries, SettingsField.ofKey?,
    SettingsField.all, SettingsField.key, SettingsField.otherKey, setField, Value.toBool, hTexts,
    hKinds, RuleSet.ofValue_toValue, Except.map]

/-! ## The text of some settings -/

namespace Settings

open Toml

/-- The lines of the settings. -/
def ownLines (s : Settings) : List Line := [
  ⟨SettingsField.includeInternal.key, _, _, by decide, written_bool s.includeInternal⟩,
  ⟨SettingsField.includes.key, _, _, by decide, written_texts s.includes⟩,
  ⟨SettingsField.excludes.key, _, _, by decide, written_texts s.excludes⟩,
  ⟨SettingsField.ignoredKinds.key, _, _, by decide, written_texts (s.ignoredKinds.map Kind.label)⟩,
  ⟨SettingsField.ignoredNames.key, _, _, by decide, written_texts s.ignoredNames⟩,
  ⟨SettingsField.followLinks.key, _, _, by decide, written_bool s.followLinks⟩,
  ⟨SettingsField.skipHidden.key, _, _, by decide, written_bool s.skipHidden⟩,
  ⟨SettingsField.respectIgnoreFile.key, _, _, by decide, written_bool s.respectIgnoreFile⟩]

/-- The lines of the rules. -/
def ruleLines (s : Settings) : List Line := [
  ⟨RuleField.allowSameFileOverloads.key, _, _, by decide,
    written_bool s.rules.allowSameFileOverloads⟩,
  ⟨RuleField.allowCrossModuleDuplicates.key, _, _, by decide,
    written_bool s.rules.allowCrossModuleDuplicates⟩,
  ⟨RuleField.maxDuplicatesPerName.key, _, _, by decide, written_int s.rules.maxDuplicatesPerName⟩]

theorem toList_toToml (s : Settings) :
    s.toToml.toList = documentChars s.ownLines SettingsField.rules.key s.ruleLines := by
  simp [toToml, documentChars, ownLines, ruleLines, Line.chars, SettingsField.key, RuleField.key]

end Settings

/-- **The text of some settings is read as their value.** -/
theorem tomlDict?_toToml (s : Settings) : tomlDict? s.toToml = some s.toValue := by
  -- The lines have the keys of all settings, each once.
  have hOwn : (s.ownLines.map Toml.Line.key ++ [SettingsField.rules.key]).Nodup := by
    have hKeys : (SettingsField.all.map SettingsField.key).Nodup := by decide
    exact hKeys
  have hRules : (s.ruleLines.map Toml.Line.key).Nodup := by
    have hKeys : (RuleField.all.map RuleField.key).Nodup := by decide
    exact hKeys
  have hEntries : Value.ofList (s.ownLines.map Toml.Line.pair ++ [(SettingsField.rules.key,
      .dict (Value.ofList (s.ruleLines.map Toml.Line.pair)))]) = s.entries := by
    have hKinds : (s.ignoredKinds.map Kind.label).map Value.str =
        s.ignoredKinds.map fun k => .str k.label := List.map_map
    simp only [Settings.ownLines, Settings.ruleLines, Toml.Line.pair, List.map_cons, List.map_nil,
      hKinds]
    rfl
  have hParse : Toml.parse? s.toToml.toList = some s.entries := by
    rw [Settings.toList_toToml, Toml.parse?_document (by decide) hOwn hRules, hEntries]
  rw [tomlDict?, hParse]
  simp only [Option.bind_eq_bind, Option.bind_some, s.openEntries?_entries, Option.pure_def,
    Settings.toValue_eq]

/-! ## Loading -/

theorem Variables.settings_eq_empty {environment : List (String × String)}
    (hNone : ∀ entry ∈ environment, ¬lower nameLead <+: lower entry.1.toList) :
    settings environment = .dict [] := by
  have hKeys : ∀ entry ∈ environment, keys? entry.1 = none := by
    intro entry hMem
    have hAfter : Text.after? (lower nameLead) (lower entry.1.toList) = none := by
      rw [Option.eq_none_iff_forall_ne_some]
      intro rest hSome
      exact hNone entry hMem ⟨rest, (Text.after?_eq_some_iff.1 hSome).symm⟩
    rw [keys?, hAfter]
  rw [settings]
  induction environment with
  | nil => rfl
  | cons entry environment ih =>
    obtain ⟨name, text⟩ := entry
    have hFirst : keys? name = none := hKeys (name, text) (by simp)
    simp only [List.foldl_cons, hFirst]
    exact ih (fun e he => hNone e (by simp [he])) fun e he => hKeys e (by simp [he])

theorem FileTree.isFile_of_readText {tree : FileTree} {path text : String}
    (hText : tree.readText path = .ok text) : tree.isFile path = true := by
  unfold FileTree.readText FileTree.read at hText
  unfold FileTree.isFile
  cases hLookup : tree.lookup path with
  | error e => simp [hLookup] at hText
  | ok node =>
    cases node with
    | file content => rfl
    | dir entries => simp [hLookup] at hText
    | link target => simp [hLookup] at hText

theorem fileLayer_toToml {tree : FileTree} {path : String} {s : Settings}
    (hText : tree.readText path = .ok s.toToml) (hFormat : isJsonPath path = false) :
    fileLayer tree path = .ok s.toValue := by
  rw [fileLayer, FileTree.isFile_of_readText hText, hText]
  simp [hFormat, tomlDict?_toToml, Settings.normalize_toValue]

theorem Settings.ofLayers_toValue (s : Settings) :
    ofLayers [.dict [], s.toValue, .dict []] = .ok s := by
  have hEmpty : ∀ t : Settings, (Value.dict []).cover t.toValue = t.toValue := fun t => by
    rw [toValue_eq, Value.cover, Value.coverEntries]
  simp only [ofLayers, List.foldl_cons, List.foldl_nil, hEmpty, cover_toValue, ofValue_toValue]
  rfl

/-- **Settings that were written are loaded again.** The text of any settings, as the only settings
file and without variables for settings, is loaded as these settings and without a warning. -/
theorem Settings.load_toToml {tree : FileTree} {sources : SettingsSources} {path : String}
    {s : Settings} (hFile : projectFile? tree sources.root sources.asked = some path)
    (hText : tree.readText path = .ok s.toToml) (hFormat : isJsonPath path = false)
    (hUser : ∀ file ∈ sources.user, file.tree.pathExists file.path = false)
    (hVariables : ∀ entry ∈ sources.environment,
      ¬Variables.lower Variables.nameLead <+: Variables.lower entry.1.toList) :
    load tree sources = (.ok s, []) := by
  have hUserLayer : userLayer sources = .ok (.dict []) := by
    rw [userLayer]
    cases hFound : sources.user with
    | none => rfl
    | some file => simp [hUser file hFound]
  have hProject : projectLayer tree sources = (.ok s.toValue, []) := by
    rw [projectLayer, hFile]
    exact congrArg (·, []) (fileLayer_toToml hText hFormat)
  rw [load, hUserLayer, hProject, Variables.settings_eq_empty hVariables]
  simp only [ofLayers_toValue]

/-- Settings with marks, line ends and controls in their texts, and with the least word. -/
theorem Settings.load_odd_settings :
    let s : Settings :=
      { includes := ["it's a \"\\d\"", "\"\"\"\"\n\t'''\x7f\r\n", "", "''\\\n'"]
        excludes := []
        ignoredKinds := [.enumeration, .function]
        ignoredNames := ["#\x07\uFEFF"]
        rules := { maxDuplicatesPerName := -9223372036854775808 } }
    let tree : FileTree := .dir [("namedupe.toml", .file (.text s.toToml))]
    let sources : SettingsSources :=
      { root := ".", asked := some "namedupe.toml", environment := [("NAMEDUPE", "1")] }
    projectFile? tree sources.root sources.asked = some "namedupe.toml" ∧
      tree.readText "namedupe.toml" = .ok s.toToml ∧ isJsonPath "namedupe.toml" = false ∧
      sources.user = none ∧
      ¬Variables.lower Variables.nameLead <+: Variables.lower "NAMEDUPE".toList ∧
      load tree sources = (.ok s, []) := by
  intro s tree sources
  have hLookup : tree.lookup "namedupe.toml" = .ok (.file (.text s.toToml)) :=
    FileTree.lookup_entry (by decide) (FileTree.entry?_single _) rfl
  have hFile : projectFile? tree sources.root sources.asked = some "namedupe.toml" := by
    simp only [projectFile?, sources, FileTree.pathExists, hLookup, if_true]
  have hText : tree.readText "namedupe.toml" = .ok s.toToml := by
    simp only [FileTree.readText, FileTree.read, hLookup]
  have hFormat : isJsonPath "namedupe.toml" = false := by decide
  have hName : ¬Variables.lower Variables.nameLead <+: Variables.lower "NAMEDUPE".toList := by
    decide
  refine ⟨hFile, hText, hFormat, rfl, hName, load_toToml hFile hText hFormat ?_ ?_⟩
  · intro file hMem
    cases hMem
  · exact List.forall_mem_singleton.2 hName

end Homonym
