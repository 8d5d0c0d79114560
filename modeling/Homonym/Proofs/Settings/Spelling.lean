import Mathlib.Data.List.Nodup
import Homonym.Proofs.FileTree.Growth
import Homonym.Proofs.Settings.Precedence

/-!
# Keys in camel case

A key of words that are joined by underscores may be spelled in camel case in a file, and so may the
keys of the dictionaries inside. `snakeCase` takes every such spelling back (`spelled_camelCase`).
No two keys become one, so that a dictionary of respelled keys is normalized to the old one
(`Respelling.normalize`), and a file with it is loaded in the same way (`Settings.load_respelled`).

Lists are left alone. A key of a dictionary in a list is not spelled back, which shows in the path
of a mismatch (`Settings.load_spelling_in_list`).
-/

namespace Homonym

open Text Value

/-! ## Words -/

namespace Text

/-- The pieces of a text make it up again, with the mark between them. -/
theorem exists_splitAt (mark : Char) (text : List Char) :
    ∃ first rest, splitAt mark text = first :: rest ∧ text = first ++ rest.flatMap (mark :: ·) := by
  induction text with
  | nil => exact ⟨[], [], rfl, rfl⟩
  | cons c text ih =>
    obtain ⟨first, rest, hSplit, hText⟩ := ih
    rw [splitAt, hSplit]
    split
    · rename_i hMark
      refine ⟨[], first :: rest, rfl, ?_⟩
      rw [hText, hMark]
      rfl
    · refine ⟨c :: first, rest, rfl, ?_⟩
      rw [hText]
      rfl

end Text

/-- A letter in lower case, and then such letters and digits. -/
def isWord : List Char → Bool
  | [] => false
  | c :: rest => c.isLower && rest.all fun d => d.isLower || d.isDigit

/-- The key is in snake case: words, with single underscores between them. -/
def isSnakeKey (key : String) : Bool :=
  (splitAt '_' key.toList).all isWord

/-- A word with a capital in front. -/
def capitalized : List Char → List Char
  | [] => []
  | c :: rest => c.toUpper :: rest

/-- A key in camel case: the words without underscores, with capitals from the second on. -/
def camelCase (key : String) : String :=
  match splitAt '_' key.toList with
  | [] => key
  | first :: rest => String.ofList (first ++ rest.flatMap capitalized)

theorem snakeCase_append {text : List Char} (hText : NoCapital text) (hSome : text ≠ [])
    (atFront : Bool) (more : List Char) :
    snakeCase atFront (text ++ more) = text ++ snakeCase false more := by
  induction text generalizing atFront with
  | nil => exact absurd rfl hSome
  | cons c rest ih =>
    obtain ⟨hFirst, hRest⟩ := List.forall_mem_cons.1 hText
    rw [List.cons_append, snakeCase, hFirst, if_neg Bool.false_ne_true]
    cases rest with
    | nil => rfl
    | cons d rest => exact congrArg (c :: ·) (ih hRest (List.cons_ne_nil _ _) false)

/-- The characters of a word are no capitals, and the first is a letter. -/
theorem exists_of_isWord {word : List Char} (hWord : isWord word = true) :
    ∃ c rest, word = c :: rest ∧ c.isLower = true ∧ NoCapital word := by
  cases word with
  | nil => cases hWord
  | cons c rest =>
    have hNoCapital : ∀ d : Char, d.isLower = true ∨ d.isDigit = true → d.isUpper = false :=
      fun d hWordly => hWordly.elim isUpper_of_isLower isUpper_of_isDigit
    simp only [isWord, Bool.and_eq_true, List.all_eq_true, Bool.or_eq_true] at hWord
    refine ⟨c, rest, rfl, hWord.1, List.forall_mem_cons.2 ⟨hNoCapital c (.inl hWord.1), ?_⟩⟩
    exact fun d hMem => hNoCapital d (hWord.2 d hMem)

theorem snakeCase_word {word : List Char} (hWord : isWord word = true) (atFront : Bool)
    (more : List Char) : snakeCase atFront (word ++ more) = word ++ snakeCase false more := by
  obtain ⟨c, rest, rfl, -, hNoCapital⟩ := exists_of_isWord hWord
  exact snakeCase_append hNoCapital (List.cons_ne_nil _ _) atFront more

theorem snakeCase_capitalized {word : List Char} (hWord : isWord word = true) (more : List Char) :
    snakeCase false (capitalized word ++ more) = '_' :: word ++ snakeCase false more := by
  obtain ⟨c, rest, rfl, hLower, hNoCapital⟩ := exists_of_isWord hWord
  rw [capitalized, List.cons_append, snakeCase, if_pos (isUpper_toUpper hLower),
    if_neg Bool.false_ne_true, toLower_toUpper hLower]
  cases rest with
  | nil => rfl
  | cons d rest =>
    rw [snakeCase_append (List.forall_mem_cons.1 hNoCapital).2 (List.cons_ne_nil _ _)]
    rfl

theorem snakeCase_flatMap_capitalized {words : List (List Char)}
    (hWords : ∀ word ∈ words, isWord word = true) :
    snakeCase false (words.flatMap capitalized) = words.flatMap ('_' :: ·) := by
  induction words with
  | nil => rfl
  | cons word words ih =>
    obtain ⟨hWord, hWords⟩ := List.forall_mem_cons.1 hWords
    rw [List.flatMap_cons, snakeCase_capitalized hWord, ih hWords, List.flatMap_cons]

theorem snakeCase_flatMap_underscore {words : List (List Char)}
    (hWords : ∀ word ∈ words, isWord word = true) :
    snakeCase false (words.flatMap ('_' :: ·)) = words.flatMap ('_' :: ·) := by
  induction words with
  | nil => rfl
  | cons word words ih =>
    obtain ⟨hWord, hWords⟩ := List.forall_mem_cons.1 hWords
    rw [List.flatMap_cons, List.cons_append, snakeCase, if_neg (by decide), snakeCase_word hWord,
      ih hWords]

/-- A key in snake case is one word, and then words behind underscores. -/
theorem exists_words {key : String} (hKey : isSnakeKey key = true) :
    ∃ first rest, splitAt '_' key.toList = first :: rest ∧
      key.toList = first ++ rest.flatMap ('_' :: ·) ∧ isWord first = true ∧
      ∀ word ∈ rest, isWord word = true := by
  obtain ⟨first, rest, hSplit, hText⟩ := exists_splitAt '_' key.toList
  rw [isSnakeKey, hSplit, List.all_cons, Bool.and_eq_true, List.all_eq_true] at hKey
  exact ⟨first, rest, hSplit, hText, hKey.1, hKey.2⟩

/-- **Camel case is taken back.** -/
theorem spelled_camelCase {key : String} (hKey : isSnakeKey key = true) :
    spelled (camelCase key) = key := by
  obtain ⟨first, rest, hSplit, hText, hFirst, hRest⟩ := exists_words hKey
  simp only [spelled, camelCase, hSplit]
  rw [String.toList_ofList, snakeCase_word hFirst, snakeCase_flatMap_capitalized hRest, ← hText,
    String.ofList_toList]

/-- Snake case stays as it is. -/
theorem spelled_of_isSnakeKey {key : String} (hKey : isSnakeKey key = true) :
    spelled key = key := by
  obtain ⟨first, rest, hSplit, hText, hFirst, hRest⟩ := exists_words hKey
  rw [spelled, hText, snakeCase_word hFirst, snakeCase_flatMap_underscore hRest, ← hText,
    String.ofList_toList]

/-! ## Dictionaries with other spellings -/

namespace Value

variable {α : Type}

theorem perm_insert {key : String} {entries : List (String × α)}
    (hKey : key ∉ entries.map Prod.fst) (value : α) :
    (insert key value entries).Perm ((key, value) :: entries) := by
  induction entries with
  | nil => exact .refl _
  | cons e rest ih =>
    obtain ⟨k, v⟩ := e
    obtain ⟨hNe, hRest⟩ : key ≠ k ∧ key ∉ rest.map Prod.fst := by simpa using hKey
    rw [insert, if_neg (Ne.symm hNe)]
    split
    · exact .refl _
    · exact ((ih hRest).cons _).trans (.swap _ _ _)

/-- Entries with keys of their own are put in order, and none is lost. -/
theorem perm_ofList {list : List (String × α)} (hKeys : (list.map Prod.fst).Nodup) :
    (ofList list).Perm list := by
  have hFold : ∀ list entries : List (String × α), ((list ++ entries).map Prod.fst).Nodup →
      (list.foldl (fun entries e => insert e.1 e.2 entries) entries).Perm (list ++ entries) := by
    intro list entries hNodup
    induction list generalizing entries with
    | nil => exact .refl _
    | cons e list ih =>
      have hNodup : ((e :: (list ++ entries)).map Prod.fst).Nodup := hNodup
      have hFirst : e.1 ∉ entries.map Prod.fst := by
        intro hMem
        obtain ⟨later, hLater, hSame⟩ := List.mem_map.1 hMem
        refine (List.nodup_cons.1 hNodup).1 (List.mem_map.2 ⟨later, ?_, hSame⟩)
        exact List.mem_append_right _ hLater
      have hPerm : (list ++ insert e.1 e.2 entries).Perm (e :: (list ++ entries)) :=
        ((perm_insert hFirst e.2).append_left list).trans List.perm_middle
      exact (ih _ ((hPerm.map _).nodup_iff.2 hNodup)).trans hPerm
  have hAll := hFold list []
  rw [List.append_nil] at hAll
  exact hAll hKeys

/-- Entries in another order make up the same dictionary. -/
theorem ofList_of_perm {list entries : List (String × α)} (hOrdered : Ordered entries)
    (hPerm : list.Perm entries) : ofList list = entries := by
  have hLess : ∀ list : List (String × α), Ordered list → list.Pairwise fun a b => a.1 < b.1 :=
    fun list hList => List.pairwise_map.1 hList
  have hKeys : (list.map Prod.fst).Nodup := (hPerm.map _).nodup_iff.2 hOrdered.nodup
  refine List.Perm.eq_of_pairwise ?_ (hLess _ (ordered_ofList list)) (hLess _ hOrdered)
    ((perm_ofList hKeys).trans hPerm)
  intro a b _ _ hAB hBA
  exact absurd hBA (String.lt_asymm hAB)

theorem isLeaf_int (n : Int) : (Value.int n).IsLeaf :=
  nofun

theorem isLeaf_bool (b : Bool) : (Value.bool b).IsLeaf :=
  nofun

/-- The keys are in order and in snake case, and so they are in the dictionaries inside. Lists are
left alone. -/
inductive SnakeKeyed : Value → Prop where
  | leaf {value : Value} (hLeaf : value.IsLeaf) : SnakeKeyed value
  | dict {entries : List (String × Value)} (hOrdered : Ordered entries)
      (hKeys : ∀ e ∈ entries, isSnakeKey e.1 = true) (hInner : ∀ e ∈ entries, SnakeKeyed e.2) :
      SnakeKeyed (.dict entries)

/-- The second value is the first with any of its keys in camel case, and any of those of the
dictionaries inside. Lists are left alone. -/
inductive Respelling : Value → Value → Prop where
  | leaf {value : Value} (hLeaf : value.IsLeaf) : Respelling value value
  | dict {pairs : List ((String × Value) × (String × Value))}
      (hKeys : ∀ p ∈ pairs, p.2.1 = p.1.1 ∨ p.2.1 = camelCase p.1.1)
      (hInner : ∀ p ∈ pairs, Respelling p.1.2 p.2.2) :
      Respelling (.dict (pairs.map Prod.fst)) (.dict (ofList (pairs.map Prod.snd)))

theorem SnakeKeyed.normalize {value : Value} (hSnake : value.SnakeKeyed) :
    value.normalize = value := by
  induction hSnake with
  | leaf hLeaf => exact hLeaf.normalize
  | dict hOrdered hKeys _ ih =>
    refine normalize_dict hOrdered (fun key hMem => ?_) ih
    obtain ⟨e, hEntry, rfl⟩ := List.mem_map.1 hMem
    have hSpelled := congrArg String.toList (spelled_of_isSnakeKey (hKeys e hEntry))
    rwa [spelled, String.toList_ofList] at hSpelled

/-- A dictionary is got back from entries that are respelled one by one. -/
theorem normalize_ofList {list entries : List (String × Value)} (hOrdered : Ordered entries)
    (hBack : normalizeEntries list = entries) :
    (Value.dict (ofList list)).normalize = .dict entries := by
  have hNodup : (list.map Prod.fst).Nodup := by
    -- Keys that were equal would still be so when they are spelled.
    have hKeys : (list.map Prod.fst).map spelled = entries.map Prod.fst := by
      rw [← hBack, normalizeEntries_eq]
      simp only [List.map_map]
      rfl
    exact List.Nodup.of_map spelled (hKeys ▸ hOrdered.nodup)
  have hPerm : (normalizeEntries (ofList list)).Perm entries := by
    rw [← hBack, normalizeEntries_eq, normalizeEntries_eq]
    exact (perm_ofList hNodup).map _
  rw [normalize_dict_eq, respelled, ofList_of_perm hOrdered hPerm]

/-- **Keys in camel case are normalized to those in snake case.** -/
theorem Respelling.normalize {value other : Value} (hSpelling : Respelling value other)
    (hSnake : value.SnakeKeyed) : other.normalize = value := by
  induction hSpelling with
  | leaf hLeaf => exact hLeaf.normalize
  | @dict pairs hKeys _ ih =>
    cases hSnake with
    | leaf hLeaf => exact absurd rfl (hLeaf _)
    | dict hOrdered hSnakeKeys hSnakeInner =>
      refine normalize_ofList hOrdered ?_
      rw [normalizeEntries_eq, List.map_map]
      refine List.map_congr_left fun p hMem => ?_
      have hOwn : p.1 ∈ pairs.map Prod.fst := List.mem_map_of_mem hMem
      have hKey : spelled p.2.1 = p.1.1 := by
        rcases hKeys p hMem with hSame | hCamel
        · rw [hSame, spelled_of_isSnakeKey (hSnakeKeys p.1 hOwn)]
        · rw [hCamel, spelled_camelCase (hSnakeKeys p.1 hOwn)]
      exact Prod.ext hKey (ih p hMem (hSnakeInner p.1 hOwn))

end Value

/-! ## Files -/

/-- The file at a path holds a dictionary, in the format that its name asks for. -/
def FileTree.Holds (tree : FileTree) (path : String) (value : Value) : Prop :=
  ∃ text, tree.readText path = .ok text ∧
    (if isJsonPath path then jsonDict? text else tomlDict? text) = some value

section Files

variable {tree : FileTree} {path : String} {value : Value}

theorem FileTree.Holds.pathExists (hHolds : tree.Holds path value) :
    tree.pathExists path = true := by
  obtain ⟨text, hText, -⟩ := hHolds
  exact pathExists_of_read (readText_eq_ok_iff.1 hText)

theorem FileTree.Holds.fileLayer (hHolds : tree.Holds path value) :
    fileLayer tree path = .ok value.normalize := by
  obtain ⟨text, hText, hParse⟩ := hHolds
  rw [Homonym.fileLayer, isFile_of_readText hText, hText]
  simp only [Bool.not_true, Bool.false_eq_true, if_false, hParse]

theorem userLayer_of_holds {file : Located} (hHolds : file.tree.Holds file.path value)
    {sources : SettingsSources} (hUser : sources.user = some file) :
    userLayer sources = .ok value.normalize := by
  simp only [userLayer, hUser, hHolds.pathExists, if_true, hHolds.fileLayer]

theorem projectLayer_of_holds {sources : SettingsSources}
    (hFile : projectFile? tree sources.root sources.asked = some path)
    (hHolds : tree.Holds path value) : projectLayer tree sources = (.ok value.normalize, []) := by
  simp only [projectLayer, hFile, hHolds.fileLayer]

/-- A dictionary as the only file in a directory. -/
theorem FileTree.holds_only {name text : String} (hName : Node.isEntryName name = true)
    (hParse : (if isJsonPath name then jsonDict? text else tomlDict? text) = some value) :
    FileTree.Holds (.dir [(name, .file (.text text))]) name value := by
  have hLookup : FileTree.lookup (.dir [(name, .file (.text text))]) name =
      .ok (.file (.text text)) := lookup_entry hName (entry?_single _) rfl
  exact ⟨text, by simp only [readText, read, hLookup], hParse⟩

end Files

/-- What is loaded depends on a tree and its sources through the layers only. -/
theorem Settings.load_congr {tree tree' : FileTree} {sources sources' : SettingsSources}
    (hUser : userLayer sources = userLayer sources')
    (hProject : projectLayer tree sources = projectLayer tree' sources')
    (hEnvironment : sources.environment = sources'.environment) :
    load tree sources = load tree' sources' := by
  rw [load, load, hUser, hProject, hEnvironment]

/-- **The spelling of keys does not matter in files.** Any keys of a dictionary in snake case, and
of the dictionaries directly inside, may be spelled in camel case. The dictionary is normalized to
the old one, and as the file of the user or of the project it is loaded as the same settings, or
fails in the same way. -/
theorem Settings.load_respelled {value other : Value} (hSnake : value.SnakeKeyed)
    (hSpelling : value.Respelling other) :
    other.normalize = value ∧
      (∀ (tree : FileTree) (sources : SettingsSources) (file file' : Located),
        file.tree.Holds file.path value → file'.tree.Holds file'.path other →
          load tree { sources with user := some file' } =
            load tree { sources with user := some file }) ∧
      ∀ (tree tree' : FileTree) (sources : SettingsSources) (root' : String)
        (asked' : Option String) (path path' : String),
        projectFile? tree sources.root sources.asked = some path → tree.Holds path value →
          projectFile? tree' root' asked' = some path' → tree'.Holds path' other →
            load tree' { sources with root := root', asked := asked' } = load tree sources := by
  have hSame : other.normalize = value.normalize :=
    (hSpelling.normalize hSnake).trans hSnake.normalize.symm
  refine ⟨hSpelling.normalize hSnake, ?_, ?_⟩
  · intro tree sources file file' hHolds hHolds'
    refine load_congr ?_ rfl rfl
    rw [userLayer_of_holds hHolds' rfl, userLayer_of_holds hHolds rfl, hSame]
  · intro tree tree' sources root' asked' path path' hFile hHolds hFile' hHolds'
    refine load_congr rfl ?_ rfl
    rw [projectLayer_of_holds hFile' hHolds', projectLayer_of_holds hFile hHolds, hSame]

/-- A file of the user, with rules, in snake case and partly in camel case. -/
theorem Settings.load_respelled_rules :
    let snakeText := "skip_hidden = false\n[rules]\nmax_duplicates_per_name = 4\n"
    let camelText :=
      "\x7b\"skip_hidden\": false, \"rules\": \x7b\"maxDuplicatesPerName\": 4\x7d\x7d"
    let snake : Value :=
      .dict [("rules", .dict [("max_duplicates_per_name", .int 4)]), ("skip_hidden", .bool false)]
    let camel : Value :=
      .dict [("rules", .dict [("maxDuplicatesPerName", .int 4)]), ("skip_hidden", .bool false)]
    let file : Located := ⟨.dir [("user.toml", .file (.text snakeText))], "user.toml"⟩
    let file' : Located := ⟨.dir [("user.json", .file (.text camelText))], "user.json"⟩
    snake.SnakeKeyed ∧ snake.Respelling camel ∧ camel.normalize = snake ∧
      file.tree.Holds file.path snake ∧ file'.tree.Holds file'.path camel ∧
      load (.dir []) { root := ".", user := some file' } =
        load (.dir []) { root := ".", user := some file } := by
  have hSnakeText : tomlDict? "skip_hidden = false\n[rules]\nmax_duplicates_per_name = 4\n" =
      some (.dict [("rules", .dict [("max_duplicates_per_name", .int 4)]),
        ("skip_hidden", .bool false)]) := by
    decide +kernel
  have hCamelText : jsonDict?
      "\x7b\"skip_hidden\": false, \"rules\": \x7b\"maxDuplicatesPerName\": 4\x7d\x7d" =
      some (.dict [("rules", .dict [("maxDuplicatesPerName", .int 4)]),
        ("skip_hidden", .bool false)]) := by
    decide +kernel
  intro snakeText camelText snake camel file file'
  have hSnake : snake.SnakeKeyed := by
    refine .dict (by unfold Ordered; decide) (by decide) ?_
    refine List.forall_mem_cons.2 ⟨?_, List.forall_mem_singleton.2 (.leaf (isLeaf_bool _))⟩
    exact .dict (by unfold Ordered; decide) (by decide)
      (List.forall_mem_singleton.2 (.leaf (isLeaf_int _)))
  have hRules : Respelling (.dict [("max_duplicates_per_name", .int 4)])
      (.dict [("maxDuplicatesPerName", .int 4)]) := by
    refine @Respelling.dict
      [(("max_duplicates_per_name", .int 4), ("maxDuplicatesPerName", .int 4))] ?_ ?_
    · exact List.forall_mem_singleton.2 (.inr (by decide))
    · exact List.forall_mem_singleton.2 (.leaf (isLeaf_int _))
  have hSpelling : snake.Respelling camel := by
    refine @Respelling.dict [(("rules", _), ("rules", _)),
      (("skip_hidden", .bool false), ("skip_hidden", .bool false))] ?_ ?_
    · exact List.forall_mem_cons.2 ⟨.inl rfl, List.forall_mem_singleton.2 (.inl rfl)⟩
    · exact List.forall_mem_cons.2 ⟨hRules, List.forall_mem_singleton.2 (.leaf (isLeaf_bool _))⟩
  have hHolds : file.tree.Holds file.path snake :=
    FileTree.holds_only (by decide) ((if_neg (by decide)).trans hSnakeText)
  have hHolds' : file'.tree.Holds file'.path camel :=
    FileTree.holds_only (by decide) ((if_pos (by decide)).trans hCamelText)
  obtain ⟨hNormal, hUser, -⟩ := load_respelled hSnake hSpelling
  exact ⟨hSnake, hSpelling, hNormal, hHolds, hHolds',
    hUser (.dir []) { root := "." } file file' hHolds hHolds'⟩

/-- In a list, the spelling of a key shows in the path of a mismatch. -/
theorem Settings.load_spelling_in_list :
    let snakeText := "\x7b\"ignore_types\": [\x7b\"foo_bar\": null\x7d]\x7d"
    let camelText := "\x7b\"ignore_types\": [\x7b\"fooBar\": null\x7d]\x7d"
    let value (key : String) : Value := .dict [("ignore_types", .arr [.dict [(key, .empty)]])]
    let loaded (text : String) :=
      load (.dir [("a.json", .file (.text text))]) { root := ".", asked := some "a.json" }
    isSnakeKey "ignore_types" = true ∧ isSnakeKey "foo_bar" = true ∧
      jsonDict? snakeText = some (value "foo_bar") ∧
      jsonDict? camelText = some (value (camelCase "foo_bar")) ∧
      (value (camelCase "foo_bar")).normalize ≠ value "foo_bar" ∧
      loaded camelText ≠ loaded snakeText := by
  have hSnakeText : jsonDict? "\x7b\"ignore_types\": [\x7b\"foo_bar\": null\x7d]\x7d" =
      some (.dict [("ignore_types", .arr [.dict [("foo_bar", .empty)]])]) := by
    decide +kernel
  have hCamelText : jsonDict? "\x7b\"ignore_types\": [\x7b\"fooBar\": null\x7d]\x7d" =
      some (.dict [("ignore_types", .arr [.dict [("fooBar", .empty)]])]) := by
    decide +kernel
  have hCamelCase : camelCase "foo_bar" = "fooBar" := by decide
  intro snakeText camelText value loaded
  have hLoaded : ∀ text found, jsonDict? text = some found →
      loaded text = (ofLayers [.dict [], found.normalize, .dict []], []) := by
    intro text found hText
    have hHolds : FileTree.Holds (.dir [("a.json", .file (.text text))]) "a.json" found :=
      FileTree.holds_only (by decide) ((if_pos (by decide)).trans hText)
    have hProject : projectLayer (.dir [("a.json", .file (.text text))])
        { root := ".", asked := some "a.json" } = (.ok found.normalize, []) :=
      projectLayer_of_holds (by simp [projectFile?, hHolds.pathExists]) hHolds
    simp only [loaded, load, hProject]
    rfl
  have hSnake : ofLayers [.dict [], (value "foo_bar").normalize, .dict []] =
      .error (.mismatch ⟨.unknownVariant, ["ignore_types", "0", "foo_bar"]⟩) := rfl
  have hCamel : ofLayers [.dict [], (value "fooBar").normalize, .dict []] =
      .error (.mismatch ⟨.unknownVariant, ["ignore_types", "0", "fooBar"]⟩) := rfl
  refine ⟨by decide, by decide, hSnakeText, hCamelCase ▸ hCamelText, fun hNormal => ?_, ?_⟩
  · rw [hCamelCase] at hNormal
    have hSame : value "fooBar" = value "foo_bar" := hNormal
    simp [value] at hSame
  · rw [hLoaded _ _ hSnakeText, hLoaded _ _ hCamelText, hSnake, hCamel]
    decide

end Homonym
