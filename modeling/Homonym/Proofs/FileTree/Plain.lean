import Homonym.FileTree.Resolve
import Homonym.Proofs.Path.Below
import Homonym.Proofs.Text.ByteOrder

/-!
# Trees without links

A plain tree has directories and files only, and the entries of every directory have proper names in
strictly increasing order. In such a tree nothing but the names of a path decides where it leads.

* `Node.places` lists the files of a node by their places, depth first. Of a plain node it holds
  exactly the places of its files (`Node.mem_places`), in the order of the bytes of the names
  (`Node.pairwise_places`).
* `FileTree.named_of_lookup`: what a path leads to is also what it names.
* `FileTree.lookup_named` and `FileTree.lookup_child`: what is found in a directory does not depend
  on its name, nor on a dot in its place (`FileTree.lookup_here`, `FileTree.lookup_here_child`).
-/

namespace Homonym

namespace Node

/-- The text can be the name of an entry of a directory. -/
def isEntryName (name : String) : Bool :=
  Path.isName name && !name.toList.contains '\x00' && decide (name.utf8ByteSize ≤ nameLimit)

mutual

/-- There are only directories and files, and the names in every directory are proper and
increasing. -/
def isPlain : Node → Bool
  | .file _ => true
  | .dir entries => arePlain entries
  | .link _ => false

/-- The entries of a directory without links. -/
def arePlain : List (String × Node) → Bool
  | [] => true
  | (name, node) :: rest =>
    isEntryName name && node.isPlain && rest.all (fun e => decide (name < e.1)) && arePlain rest

end

mutual

/-- The places of the files of a node, depth first. -/
def places : Node → List Place
  | .file _ => [[]]
  | .dir entries => placesOf entries
  | .link _ => []

/-- The places of the files below some entries. -/
def placesOf : List (String × Node) → List Place
  | [] => []
  | (name, node) :: rest => node.places.map (name :: ·) ++ placesOf rest

end

/-! ## Entries -/

theorem isEntryName_iff {name : String} :
    isEntryName name = true ↔
      Path.isName name = true ∧ '\x00' ∉ name.toList ∧ name.utf8ByteSize ≤ nameLimit := by
  simp [isEntryName, and_assoc]

theorem arePlain_iff {entries : List (String × Node)} :
    arePlain entries = true ↔
      (∀ e ∈ entries, isEntryName e.1 = true ∧ e.2.isPlain = true) ∧
        entries.Pairwise fun a b => a.1 < b.1 := by
  induction entries with
  | nil => simp [arePlain]
  | cons e rest ih =>
    obtain ⟨name, node⟩ := e
    simp only [arePlain, Bool.and_eq_true, List.all_eq_true, decide_eq_true_eq, ih,
      List.forall_mem_cons, List.pairwise_cons]
    tauto

theorem entry?_eq_some_iff {entries : List (String × Node)} (hPlain : arePlain entries = true)
    {name : String} {node : Node} : entry? name entries = some node ↔ (name, node) ∈ entries := by
  have hSorted := (arePlain_iff.1 hPlain).2
  clear hPlain
  induction entries with
  | nil => simp [ entry?]
  | cons e rest ih =>
    obtain ⟨hFirst, hRest⟩ := List.pairwise_cons.1 hSorted
    by_cases hName : e.1 = name
    · have hOther : (name, node) ∉ rest := fun hMem =>
        absurd (hFirst _ hMem) (by rw [hName]; exact String.lt_irrefl name)
      simp [ entry?, hName, hOther, Prod.ext_iff, eq_comm]
    · have hSkip : entry? name (e :: rest) = entry? name rest := by
        simp [ entry?, hName]
      have hOther : (name, node) ≠ e := by
        rintro rfl
        exact hName rfl
      rw [hSkip, List.mem_cons, or_iff_right hOther]
      exact ih hRest

theorem isPlain_of_mem {entries : List (String × Node)} (hPlain : arePlain entries = true)
    {e : String × Node} (hMem : e ∈ entries) : e.2.isPlain = true :=
  ((arePlain_iff.1 hPlain).1 e hMem).2

theorem isPlain_at? {node found : Node} {place : Place} (hPlain : node.isPlain = true)
    (hAt : node.at? place = some found) : found.isPlain = true := by
  induction place generalizing node with
  | nil =>
    simp only [at?, Option.some.injEq] at hAt
    exact hAt ▸ hPlain
  | cons name rest ih =>
    cases node with
    | file content => simp [at?] at hAt
    | link target => simp [at?] at hAt
    | dir entries =>
      simp only [at?] at hAt
      split at hAt
      · rename_i child hEntry
        exact ih (isPlain_of_mem hPlain ((entry?_eq_some_iff hPlain).1 hEntry)) hAt
      · cases hAt

theorem at?_concat {node : Node} {place : Place} {entries : List (String × Node)}
    (hAt : node.at? place = some (.dir entries)) (name : String) :
    node.at? (place ++ [name]) = entry? name entries := by
  induction place generalizing node with
  | nil =>
    simp only [at?, Option.some.injEq] at hAt
    subst hAt
    rw [List.nil_append, at?]
    cases hEntry : entry? name entries <;> simp [at?]
  | cons first rest ih =>
    cases node with
    | file content => simp [at?] at hAt
    | link target => simp [at?] at hAt
    | dir inner =>
      rw [List.cons_append]
      simp only [at?] at hAt ⊢
      split at hAt
      · exact ih hAt
      · cases hAt

theorem size_le_of_mem {entries : List (String × Node)} {e : String × Node} (hMem : e ∈ entries) :
    e.2.size ≤ sizeEntries entries := by
  induction entries with
  | nil => cases hMem
  | cons first rest ih =>
    rw [sizeEntries]
    rcases List.mem_cons.1 hMem with rfl | hMem
    · omega
    · have := ih hMem
      omega

theorem size_at?_le {node found : Node} {place : Place} (hAt : node.at? place = some found) :
    found.size ≤ node.size := by
  induction place generalizing node with
  | nil =>
    simp only [at?, Option.some.injEq] at hAt
    exact hAt ▸ Nat.le_refl _
  | cons name rest ih =>
    cases node with
    | file content => simp [at?] at hAt
    | link target => simp [at?] at hAt
    | dir entries =>
      simp only [at?] at hAt
      split at hAt
      · rename_i child hEntry
        simp only [ entry?, Option.map_eq_some_iff] at hEntry
        obtain ⟨e, hFind, rfl⟩ := hEntry
        have hChild := size_le_of_mem (List.mem_of_find?_eq_some hFind)
        have hFound := ih hAt
        rw [size]
        omega
      · cases hAt

/-! ## Places of files -/

theorem mem_placesOf {entries : List (String × Node)} {place : Place} :
    place ∈ placesOf entries ↔ ∃ e ∈ entries, ∃ rest ∈ e.2.places, place = e.1 :: rest := by
  induction entries with
  | nil => simp [placesOf]
  | cons e rest ih =>
    rw [placesOf, List.mem_append, ih, List.exists_mem_cons_iff]
    simp only [List.mem_map, eq_comm]

/-- The listed places of a plain node are those of its files. -/
theorem mem_places {node : Node} (hPlain : node.isPlain = true) {place : Place} :
    place ∈ node.places ↔ ∃ content, node.at? place = some (.file content) := by
  induction place generalizing node with
  | nil =>
    cases node with
    | file content => simp [places, at?]
    | link target => simp [places, at?]
    | dir entries => simp [places, at?, mem_placesOf]
  | cons name rest ih =>
    cases node with
    | file content => simp [places, at?]
    | link target => simp [places, at?]
    | dir entries =>
      have hEntries : arePlain entries = true := hPlain
      rw [places, mem_placesOf]
      constructor
      · rintro ⟨⟨n, child⟩, hMem, more, hMore, hPlace⟩
        obtain ⟨rfl, rfl⟩ := List.cons.inj hPlace
        simp only [at?, (entry?_eq_some_iff hEntries).2 hMem]
        exact (ih (isPlain_of_mem hEntries hMem)).1 hMore
      · rintro ⟨content, hAt⟩
        simp only [at?] at hAt
        split at hAt
        · rename_i child hEntry
          have hMem := (entry?_eq_some_iff hEntries).1 hEntry
          exact ⟨_, hMem, rest, (ih (isPlain_of_mem hEntries hMem)).2 ⟨content, hAt⟩, rfl⟩
        · cases hAt

theorem isEntryName_of_mem_places {node : Node} (hPlain : node.isPlain = true) {place : Place}
    (hMem : place ∈ node.places) : ∀ name ∈ place, isEntryName name = true := by
  induction place generalizing node with
  | nil => simp
  | cons name rest ih =>
    cases node with
    | file content => simp [places] at hMem
    | link target => simp [places] at hMem
    | dir entries =>
      rw [places] at hMem
      obtain ⟨e, hEntry, more, hMore, hPlace⟩ := mem_placesOf.1 hMem
      obtain ⟨rfl, rfl⟩ := List.cons.inj hPlace
      rw [List.forall_mem_cons]
      exact ⟨((arePlain_iff.1 hPlain).1 e hEntry).1, ih (isPlain_of_mem hPlain hEntry) hMore⟩

theorem isName_of_mem_places {node : Node} (hPlain : node.isPlain = true) {place : Place}
    (hMem : place ∈ node.places) : ∀ name ∈ place, Path.isName name = true :=
  fun name hName => (isEntryName_iff.1 (isEntryName_of_mem_places hPlain hMem name hName)).1

/-- One place comes before another in a walk that goes depth first and through every directory in
the order of the bytes of the names. -/
def Precedes (a b : Place) : Prop :=
  List.Lex (fun m n => Pattern.bytes m.toList < Pattern.bytes n.toList) a b

mutual

theorem pairwise_places {node : Node} (hPlain : node.isPlain = true) :
    node.places.Pairwise Precedes := by
  match node with
  | .file content => simp [places]
  | .link target => simp [places]
  | .dir entries =>
    rw [places]
    exact pairwise_placesOf hPlain

theorem pairwise_placesOf {entries : List (String × Node)} (hPlain : arePlain entries = true) :
    (placesOf entries).Pairwise Precedes := by
  match entries with
  | [] => simp [placesOf]
  | (name, node) :: rest =>
    simp only [arePlain, Bool.and_eq_true, List.all_eq_true, decide_eq_true_eq] at hPlain
    obtain ⟨⟨⟨-, hNode⟩, hLess⟩, hRest⟩ := hPlain
    rw [placesOf, List.pairwise_append, List.pairwise_map]
    refine ⟨(pairwise_places hNode).imp .cons, pairwise_placesOf hRest, ?_⟩
    intro a ha b hb
    obtain ⟨a, -, rfl⟩ := List.mem_map.1 ha
    obtain ⟨e, hMem, more, -, rfl⟩ := mem_placesOf.1 hb
    exact .rel (Pattern.bytes_lt (hLess e hMem))

end

end Node

namespace FileTree

/-! ## Following paths -/

theorem not_isBarred_look (rest : List Move) : Purpose.look.isBarred rest = false := rfl

/-- A step down to an entry that is no link. -/
theorem follow_down {tree : FileTree} {links : Nat} {place : Place} {name : String}
    {rest : List Move} {entries : List (String × Node)} {child : Node}
    (hAt : tree.at? place = some (.dir entries)) (hSize : name.utf8ByteSize ≤ nameLimit)
    (hEntry : Node.entry? name entries = some child) (hPlain : child.isPlain = true) :
    follow tree .look links place (.down name :: rest) =
      follow tree .look links (place ++ [name]) rest := by
  rw [follow]
  simp only [hAt, not_isBarred_look, Nat.not_lt.2 hSize, if_false, hEntry, Bool.false_eq_true]
  cases child with
  | file content => rfl
  | dir inner => rfl
  | link target => cases hPlain

/-- In a plain tree a way that leads somewhere can be gone in two parts. -/
theorem exists_found_of_append {tree : FileTree} (hPlain : tree.isPlain = true) {links : Nat}
    {place target : Place} {front back : List Move}
    (hFollow : follow tree .look links place (front ++ back) = .ok (.found target)) :
    ∃ middle, follow tree .look links place front = .ok (.found middle) ∧
      follow tree .look links middle back = .ok (.found target) := by
  induction front generalizing place with
  | nil => exact ⟨place, by rw [follow], hFollow⟩
  | cons move rest ih =>
    rw [List.cons_append, follow] at hFollow
    split at hFollow
    · rename_i entries hAt
      rw [follow]
      simp only [hAt]
      cases move with
      | gap => exact ih hFollow
      | stay => exact ih hFollow
      | up => exact ih hFollow
      | down name =>
        simp only [not_isBarred_look, Bool.false_eq_true, if_false] at hFollow ⊢
        split at hFollow
        · cases hFollow
        · rename_i hSize
          rw [if_neg hSize]
          have hEntries : Node.arePlain entries = true := Node.isPlain_at? hPlain hAt
          cases hEntry : Node.entry? name entries with
          | none =>
            simp only [hEntry] at hFollow
            split at hFollow <;> cases hFollow
          | some child =>
            -- A link would put its target in front of both parts.
            have hChild : child.isPlain = true :=
              Node.isPlain_of_mem hEntries ((Node.entry?_eq_some_iff hEntries).1 hEntry)
            cases child with
            | link target => cases hChild
            | file content =>
              simp only [hEntry] at hFollow
              exact ih hFollow
            | dir inner =>
              simp only [hEntry] at hFollow
              exact ih hFollow
    · cases hFollow

/-- The last step of a way in a plain tree is taken in a directory, and down to the name in it. -/
theorem follow_last {tree : FileTree} (hPlain : tree.isPlain = true) {links : Nat}
    {place target : Place} {move : Move}
    (hFollow : follow tree .look links place [move] = .ok (.found target)) :
    (∃ entries, tree.at? place = some (.dir entries)) ∧
      ∀ name, move = .down name → name.utf8ByteSize ≤ nameLimit ∧ target = place ++ [name] := by
  rw [follow] at hFollow
  split at hFollow
  · rename_i entries hAt
    refine ⟨⟨entries, hAt⟩, ?_⟩
    rintro name rfl
    simp only [not_isBarred_look, Bool.false_eq_true, if_false] at hFollow
    split at hFollow
    · cases hFollow
    · rename_i hSize
      have hEntries : Node.arePlain entries = true := Node.isPlain_at? hPlain hAt
      refine ⟨Nat.not_lt.1 hSize, ?_⟩
      split at hFollow
      · cases hFollow
      · rename_i hEntry
        cases Node.isPlain_of_mem hEntries ((Node.entry?_eq_some_iff hEntries).1 hEntry)
      · rw [follow] at hFollow
        cases hFollow
        rfl
  · cases hFollow

theorem lookup_eq_ok {tree : FileTree} {path : String} {node : Node}
    (hLookup : tree.lookup path = .ok node) :
    pathRefusal? path = none ∧ Path.isAbsolute path = false ∧
      ∃ place, follow tree .look linkLimit [] (moves path) = .ok (.found place) ∧
        tree.at? place = some node := by
  rw [lookup] at hLookup
  split at hLookup
  · cases hLookup
  · cases hLookup
  · rename_i place hResolve
    rw [resolve] at hResolve
    split at hResolve
    · cases hResolve
    · rename_i hRefusal
      split at hResolve
      · cases hResolve
      · rename_i hAbsolute
        refine ⟨hRefusal, Bool.eq_false_iff.2 hAbsolute, place, hResolve, ?_⟩
        split at hLookup
        · rename_i hAt
          rw [hAt, Except.ok.inj hLookup]
        · cases hLookup

/-- In a plain tree, what a path leads to is also what it names. -/
theorem named_of_lookup {tree : FileTree} (hPlain : tree.isPlain = true) {path : String}
    {node : Node} (hLookup : tree.lookup path = .ok node) : tree.named path = .ok node := by
  obtain ⟨hRefusal, hAbsolute, target, hFollow, hTarget⟩ := lookup_eq_ok hLookup
  have hMoves : moves path ≠ [] := by simp [moves, Path.split_ne_nil]
  obtain ⟨front, last, hSplit⟩ := (List.eq_nil_or_concat' (moves path)).resolve_left hMoves
  rw [hSplit] at hFollow
  obtain ⟨middle, hFront, hLast⟩ := exists_found_of_append hPlain hFollow
  obtain ⟨⟨entries, hAt⟩, hDown⟩ := follow_last hPlain hLast
  rw [named, resolveParent]
  simp only [hRefusal, hAbsolute, Bool.false_eq_true, if_false, hSplit, List.dropLast_concat,
    hFront, hAt, List.getLast?_append_of_ne_nil _ (List.cons_ne_nil last []),
    List.getLast?_singleton, Option.getD_some]
  cases last with
  | down name =>
    obtain ⟨hSize, rfl⟩ := hDown name rfl
    simp only [Nat.not_lt.2 hSize, if_false, hTarget]
  | gap => exact hLookup
  | stay => exact hLookup
  | up => exact hLookup

/-- The last name of a path is looked up in the directory that the rest leads to. -/
theorem lookup_last {tree : FileTree} {path child : String} {dir : Place}
    {entries : List (String × Node)} (hRefusal : pathRefusal? path = none)
    (hRelative : Path.isAbsolute path = false)
    (hMoves : follow tree .look linkLimit [] (moves path) =
      follow tree .look linkLimit dir [.down child])
    (hAt : tree.at? dir = some (.dir entries)) (hSize : child.utf8ByteSize ≤ nameLimit)
    (hPlain : (Node.dir entries).isPlain = true) :
    tree.lookup path =
      match Node.entry? child entries with
      | some node => .ok node
      | none => .error .notFound := by
  rw [lookup, resolve, hRefusal]
  simp only [hRelative, Bool.false_eq_true, if_false, hMoves]
  cases hFound : Node.entry? child entries with
  | none =>
    rw [follow]
    simp only [hAt, not_isBarred_look, Bool.false_eq_true, if_false, Nat.not_lt.2 hSize, hFound,
      List.isEmpty_nil, if_true]
  | some node =>
    have hNode : node.isPlain = true :=
      Node.isPlain_of_mem hPlain ((Node.entry?_eq_some_iff hPlain).1 hFound)
    have hChild : tree.at? (dir ++ [child]) = some node := by
      rw [Node.at?_concat hAt, hFound]
    rw [follow_down hAt hSize hFound hNode, follow]
    simp only [hChild]

/-! ## A directory under a name -/

section Named

variable {name : String} {entries : List (String × Node)}

theorem isPlain_named (hName : Node.isEntryName name = true)
    (hPlain : (Node.dir entries).isPlain = true) :
    Node.isPlain (.dir [(name, .dir entries)]) = true := by
  refine Node.arePlain_iff.2 ⟨?_, List.pairwise_singleton _ _⟩
  simpa using ⟨hName, hPlain⟩

theorem ofPiece_name (hName : Path.isName name = true) :
    Move.ofPiece name.toList = .down name := by
  obtain ⟨hVoid, hUp, -⟩ := Path.isName_iff.1 hName
  simp only [Path.isVoid, Bool.or_eq_false_iff, beq_eq_false_iff_ne] at hVoid
  rw [Move.ofPiece, if_neg hVoid.1, if_neg hVoid.2, if_neg hUp, String.ofList_toList]

theorem moves_name (hName : Path.isName name = true) : moves name = [.down name] := by
  rw [moves, Path.split_of_noSlash (Path.isName_iff.1 hName).2.2, List.map_singleton,
    ofPiece_name hName]

theorem pathRefusal?_name (hName : Node.isEntryName name = true) : pathRefusal? name = none := by
  obtain ⟨hProper, hNull, hSize⟩ := Node.isEntryName_iff.1 hName
  have hLimit : ¬pathLimit < name.utf8ByteSize := by
    simp only [nameLimit, pathLimit] at hSize ⊢
    omega
  simp [pathRefusal?, hNull, hLimit, Path.ne_empty_of_isName hProper]

theorem pathRefusal?_join {child : String} (hName : Node.isEntryName name = true)
    (hChild : Node.isEntryName child = true) : pathRefusal? (Path.join name child) = none := by
  obtain ⟨hProper, hNull, hSize⟩ := Node.isEntryName_iff.1 hName
  obtain ⟨hProper', hNull', hSize'⟩ := Node.isEntryName_iff.1 hChild
  have hText := Path.toList_join_name hProper hProper'
  have hJoin : Path.join name child = name ++ "/" ++ child := by
    rw [← String.toList_inj, hText]
    simp
  have hBytes :
      (Path.join name child).utf8ByteSize = name.utf8ByteSize + 1 + child.utf8ByteSize := by
    rw [hJoin, String.utf8ByteSize_append, String.utf8ByteSize_append]
    rfl
  have hLimit : ¬pathLimit < (Path.join name child).utf8ByteSize := by
    simp only [nameLimit, pathLimit, hBytes] at hSize hSize' ⊢
    omega
  have hSome : (Path.join name child).isEmpty = false := by
    simpa using Path.join_ne_empty (Path.ne_empty_of_isName hProper) hProper'
  simp [pathRefusal?, hText, hNull, hNull', hLimit, hSome]

theorem isAbsolute_join {child : String} (hName : Path.isName name = true)
    (hChild : Path.isName child = true) : Path.isAbsolute (Path.join name child) = false := by
  have hFirst := Path.isAbsolute_name hName
  rw [Path.isAbsolute] at hFirst ⊢
  rw [Path.toList_join_name hName hChild]
  cases hChars : name.toList with
  | nil => exact absurd (String.toList_eq_nil_iff.1 hChars) (Path.ne_empty_of_isName hName)
  | cons c rest => simpa [hChars] using hFirst

theorem moves_join {child : String} (hName : Path.isName name = true)
    (hChild : Path.isName child = true) :
    moves (Path.join name child) = [.down name, .down child] := by
  rw [moves, Path.toList_join_name hName hChild, Path.split_append_slash, List.map_append]
  exact congrArg₂ _ (moves_name hName) (moves_name hChild)

/-- A dot leads to the top of a tree. -/
theorem lookup_here (entries : List (String × Node)) :
    FileTree.lookup (.dir entries) "." = .ok (.dir entries) := by
  have hRefusal : pathRefusal? "." = none := by decide
  have hRelative : Path.isAbsolute "." = false := by decide
  have hMoves : moves "." = [.stay] := by decide
  have hFollow : follow (.dir entries) .look linkLimit [] [.stay] = .ok (.found []) := by
    simp only [follow, Node.at?]
  rw [lookup, resolve, hRefusal]
  simp only [hRelative, Bool.false_eq_true, if_false, hMoves, hFollow, Node.at?]

/-- An entry of the top directory is found by its name. -/
theorem lookup_entry (hName : Node.isEntryName name = true) {node : Node}
    (hEntry : Node.entry? name entries = some node) (hPlain : node.isPlain = true) :
    FileTree.lookup (.dir entries) name = .ok node := by
  obtain ⟨hProper, -, hSize⟩ := Node.isEntryName_iff.1 hName
  have hFollow : follow (.dir entries) .look linkLimit [] [.down name] = .ok (.found [name]) := by
    rw [follow_down rfl hSize hEntry hPlain, follow]
    rfl
  rw [lookup, resolve, pathRefusal?_name hName]
  simp only [Path.isAbsolute_name hProper, Bool.false_eq_true, if_false, moves_name hProper,
    hFollow, Node.at?, hEntry]

theorem entry?_single (node : Node) : Node.entry? name [(name, node)] = some node := by
  simp [ Node.entry?]

theorem lookup_named (hName : Node.isEntryName name = true)
    (hPlain : (Node.dir entries).isPlain = true) :
    FileTree.lookup (.dir [(name, .dir entries)]) name = .ok (.dir entries) :=
  lookup_entry hName (entry?_single _) hPlain

/-- What is found below a directory under a name does not depend on that name. -/
theorem lookup_child {child : String} (hName : Node.isEntryName name = true)
    (hPlain : (Node.dir entries).isPlain = true) (hChild : Node.isEntryName child = true) :
    FileTree.lookup (.dir [(name, .dir entries)]) (Path.join name child) =
      match Node.entry? child entries with
      | some node => .ok node
      | none => .error .notFound := by
  obtain ⟨hProper, -, hSize⟩ := Node.isEntryName_iff.1 hName
  obtain ⟨hProper', -, hSize'⟩ := Node.isEntryName_iff.1 hChild
  have hEntry : Node.entry? name [(name, .dir entries)] = some (.dir entries) := entry?_single _
  have hAt : Node.at? (.dir [(name, .dir entries)]) [name] = some (.dir entries) := by
    simp only [Node.at?, hEntry]
  refine lookup_last (pathRefusal?_join hName hChild) (isAbsolute_join hProper hProper') ?_ hAt
    hSize' hPlain
  rw [moves_join hProper hProper']
  exact follow_down rfl hSize hEntry hPlain

/-- A dot in front of an entry of the top directory changes nothing. -/
theorem lookup_here_child {child : String} (hPlain : (Node.dir entries).isPlain = true)
    (hChild : Node.isEntryName child = true) :
    FileTree.lookup (.dir entries) (Path.join "." child) =
      match Node.entry? child entries with
      | some node => .ok node
      | none => .error .notFound := by
  obtain ⟨hProper, hNull, hSize⟩ := Node.isEntryName_iff.1 hChild
  have hText : (Path.join "." child).toList = '.' :: '/' :: child.toList :=
    Path.toList_join (by decide) hProper
  have hJoin : Path.join "." child = "./" ++ child := by
    rw [← String.toList_inj, hText, String.toList_append]
    rfl
  have hLimit : ¬pathLimit < (Path.join "." child).utf8ByteSize := by
    have hBytes : (Path.join "." child).utf8ByteSize = 2 + child.utf8ByteSize := by
      rw [hJoin, String.utf8ByteSize_append]
      rfl
    simp only [nameLimit, pathLimit, hBytes] at hSize ⊢
    omega
  have hSome : Path.join "." child ≠ "" := Path.join_ne_empty (by decide) hProper
  have hRefusal : pathRefusal? (Path.join "." child) = none := by
    simp [pathRefusal?, hText, hNull, hLimit, hSome]
  have hRelative : Path.isAbsolute (Path.join "." child) = false := by
    simp [Path.isAbsolute, hText]
  have hTop : Node.at? (.dir entries) [] = some (.dir entries) := rfl
  refine lookup_last hRefusal hRelative ?_ hTop hSize hPlain
  have hMoves : moves (Path.join "." child) = [.stay, .down child] := by
    have hSplit : Path.split ('.' :: '/' :: child.toList) = [['.']] ++ Path.split child.toList :=
      Path.split_append_slash ['.'] child.toList
    rw [moves, hText, hSplit, List.map_append, ← moves, moves_name hProper]
    rfl
  rw [hMoves, follow, hTop]

end Named

end FileTree

end Homonym
