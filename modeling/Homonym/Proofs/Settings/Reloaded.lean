import Homonym.Proofs.Settings.Saved
import Homonym.Proofs.Settings.Saving

/-!
# Saved settings are loaded again unless the path names a JSON file

What is saved is TOML, whatever the path. A path that names a JSON file is read as JSON, and no text
of settings is that: it begins with a letter that no JSON value begins with (`jsonDict?_toToml`). So
`Settings.load_save` has two cases, and `namedupe.json`, which is one of the names that a project's
settings file may have, is in the wrong one.
-/

namespace Homonym

namespace Json

/-- No value begins with this letter. -/
theorem parse?_i_cons (rest : List Char) : parse? ('i' :: rest) = none := by
  have hNumber : number? ('i' :: rest) = none := rfl
  have hValue : ∀ value after,
      value? (rest.length + 2) nestingLimit ('i' :: rest) = some (value, after) →
        value.holdsRaw = true := by
    intro value after hFound
    have hRaw : raw? ('i' :: rest) = some (value, after) := hFound
    rw [raw?] at hRaw
    split at hRaw <;> cases hRaw
    rfl
  rw [parse?, read?, List.length_cons]
  split
  · rename_i value hRead
    split at hRead
    · rename_i found after hFound
      split at hRead <;> cases hRead
      rw [if_pos (hValue value after hFound)]
    · cases hRead
  · rfl

end Json

namespace Settings

open FileTree

theorem head?_toToml (s : Settings) : s.toToml.toList.head? = some 'i' := by
  simp only [toToml, Toml.entry, String.toList_append, List.append_assoc]
  rfl

/-- The text of settings is never JSON. -/
theorem jsonDict?_toToml (s : Settings) : jsonDict? s.toToml = none := by
  obtain ⟨rest, hText⟩ := List.head?_eq_some_iff.1 s.head?_toToml
  rw [jsonDict?, hText, Json.parse?_i_cons]

/-- A settings file is read by the name that it has. -/
theorem fileLayer_of_readText {tree : FileTree} {path : String} {s : Settings}
    (hText : tree.readText path = .ok s.toToml) :
    fileLayer tree path = if isJsonPath path then .error .unreadable else .ok s.toValue := by
  cases hFormat : isJsonPath path with
  | false => exact fileLayer_toToml hText hFormat
  | true =>
    rw [fileLayer, isFile_of_readText hText, hText]
    simp [hFormat, jsonDict?_toToml]

/-- The text of settings, asked for by its path, is all that is loaded. -/
theorem load_of_readText {s : Settings} {tree : FileTree} {path root : String}
    {environment : List (String × String)} (hText : tree.readText path = .ok s.toToml)
    (hVariables : ∀ entry ∈ environment,
      ¬Variables.lower Variables.nameLead <+: Variables.lower entry.1.toList) :
    load tree { root, asked := some path, environment } =
      (if isJsonPath path then .error .unreadable else .ok s, []) := by
  have hExists : tree.pathExists path = true := pathExists_of_read (readText_eq_ok_iff.1 hText)
  have hFile : projectFile? tree root (some path) = some path := by simp [projectFile?, hExists]
  rw [load, userLayer]
  simp only [projectLayer, hFile, fileLayer_of_readText hText,
    Variables.settings_eq_empty hVariables]
  cases isJsonPath path with
  | true => rfl
  | false => exact congrArg (·, []) (ofLayers_toValue s)

/-- **Settings that were saved are loaded again, unless the path names a JSON file.** Then they are
never loaded. -/
theorem load_save {s : Settings} {tree after : FileTree} {path root : String} {force : Bool}
    {environment : List (String × String)} (hSave : s.save tree path force = (.ok (), after))
    (hVariables : ∀ entry ∈ environment,
      ¬Variables.lower Variables.nameLead <+: Variables.lower entry.1.toList) :
    load after { root, asked := some path, environment } =
      (if isJsonPath path then .error .unreadable else .ok s, []) :=
  load_of_readText (readText_of_save hSave) hVariables

/-- Settings are saved under a plain name in an empty directory. -/
theorem save_name (s : Settings) {name : String} (hRefusal : pathRefusal? name = none)
    (hRelative : Path.isAbsolute name = false) (hMoves : moves name = [.down name])
    (hParent : Path.parent? name = some "") (hSize : name.utf8ByteSize ≤ nameLimit) :
    s.save (.dir []) name false = (.ok (), .dir [(name, .file (.text s.toToml))]) := by
  have hResolve : ∀ purpose, resolve (.dir []) purpose name = .ok (.vacant [] name) := by
    intro purpose
    rw [resolve_eq_ok_iff, hMoves]
    exact ⟨hRefusal, hRelative, .vacant rfl hSize rfl⟩
  have hRoom : makeRoom (.dir []) name = (.ok (), .dir []) := by
    rw [makeRoom, hParent]
    rfl
  simp only [save, mayWrite, pathExists, lookup, hResolve, hRoom, write]
  rfl

/-- Settings saved under a name for TOML. -/
theorem load_save_toml :
    let s : Settings := { includeInternal := true, ignoredNames := ["\"\"\"", "'\n'"] }
    let saved := s.save (.dir []) ".namedupe.toml" false
    let sources : SettingsSources :=
      { root := ".", asked := some ".namedupe.toml", environment := [("NAMEDUPE", "1")] }
    saved.1 = .ok () ∧
      ¬Variables.lower Variables.nameLead <+: Variables.lower "NAMEDUPE".toList ∧
      load saved.2 sources = (.ok s, []) := by
  intro s saved sources
  have hSave : saved = (.ok (), .dir [(".namedupe.toml", .file (.text s.toToml))]) :=
    save_name s (by decide) (by decide) (by decide) (by decide) (by decide)
  have hName : ¬Variables.lower Variables.nameLead <+: Variables.lower "NAMEDUPE".toList := by
    decide
  have hFormat : isJsonPath ".namedupe.toml" = false := by decide
  have hVariables : ∀ entry ∈ [("NAMEDUPE", "1")],
      ¬Variables.lower Variables.nameLead <+: Variables.lower entry.1.toList :=
    List.forall_mem_singleton.2 hName
  rw [hSave]
  refine ⟨rfl, hName, (load_save hSave hVariables).trans ?_⟩
  rw [hFormat]
  rfl

/-- The default settings, saved under a name for JSON, are not loaded. A project's settings file may
have this name. -/
theorem load_fails_after_save_json :
    let s : Settings := {}
    let saved := s.save (.dir []) "namedupe.json" false
    "namedupe.json" ∈ projectFileNames ∧ saved.1 = .ok () ∧
      load saved.2 { root := ".", asked := some "namedupe.json" } = (.error .unreadable, []) := by
  intro s saved
  have hSave : saved = (.ok (), .dir [("namedupe.json", .file (.text s.toToml))]) :=
    save_name s (by decide) (by decide) (by decide) (by decide) (by decide)
  have hFormat : isJsonPath "namedupe.json" = true := by decide
  rw [hSave]
  refine ⟨by decide, rfl, (load_of_readText (readText_of_save hSave) (by simp)).trans ?_⟩
  rw [hFormat]
  rfl

end Settings

end Homonym
