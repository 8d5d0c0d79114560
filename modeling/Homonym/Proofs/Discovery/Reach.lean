import Homonym.Discovery.Walk
import Homonym.Proofs.FileTree.Plain

/-!
# Which files a walk finds

A walk goes down the directories of a tree and leaves out what is hidden, passed over or not wanted,
each in its turn. In a tree without links the outcome is a selection from all its files, made by
looking at each file and the directories on the way to it (`walk_finds_exactly`): the file must be
wanted, and every directory on the way must be entered, the root among them.

* `Walk.below_eq` turns the descent, which is bounded by a number of levels, into a filter on the
  places of the files.
* `Walk.reaches_iff` says what the filter asks of a place.
* `Walk.relative_rootEntry`: the root itself is judged by the empty path, unless its text ends with
  a step up.
-/

namespace Homonym.Discovery

/-- A file of a directory has a place with proper names. -/
theorem place_of_mem {entries : List (String × Node)} (hPlain : (Node.dir entries).isPlain = true)
    {place : Place} (hMem : place ∈ Node.placesOf entries) :
    place ≠ [] ∧ ∀ name ∈ place, Path.isName name = true := by
  refine ⟨?_, Node.isName_of_mem_places hPlain (by rwa [Node.places])⟩
  rintro rfl
  simp [Node.mem_placesOf] at hMem

namespace Walk

variable (w : Walk)

/-- The name is passed over because it is hidden. -/
def skips (name : String) : Bool :=
  w.skipHidden && isHidden name

/-- The file at a place below a directory is wanted, and so is the way to it. -/
def reaches (dir : String) : Place → Bool
  | [] => false
  | [name] => !w.skips name && w.wants (Path.join dir name)
  | name :: next :: rest =>
    !w.skips name && w.enters (Path.join dir name) && reaches (Path.join dir name) (next :: rest)

/-- What is found at and below an entry of a directory, at most `bound` levels deep. -/
def belowEntry (bound : Nat) (above : List String) (dir : String) (e : String × Node) :
    List Outcome :=
  if w.skips e.1 then []
  else
    match e.2 with
    | .dir inner =>
      if w.enters (Path.join dir e.1) then w.below bound above (Path.join dir e.1) inner else []
    | .file _ => if w.wants (Path.join dir e.1) then [.ok (Path.join dir e.1)] else []
    | .link _ => []

variable {w}

/-! ## One level -/

theorem resolveEntry_of_isPlain {node : Node} (hPlain : node.isPlain = true) (above : List String)
    (path : String) : w.resolveEntry above path node = .ok node := by
  cases node with
  | file content => rfl
  | dir entries => rfl
  | link target => cases hPlain

theorem below_succ {entries : List (String × Node)} (hPlain : Node.arePlain entries = true)
    (bound : Nat) (above : List String) (dir : String) :
    w.below (bound + 1) above dir entries =
      entries.flatMap (w.belowEntry bound (above ++ [dir]) dir) := by
  have hFound : w.entriesOf (above ++ [dir]) dir entries =
      (entries.filter fun e => !w.skips e.1).map fun e => (Path.join dir e.1, .ok e.2) := by
    refine List.map_congr_left fun e he => ?_
    have hNode := Node.isPlain_of_mem hPlain (List.mem_of_mem_filter he)
    exact Prod.ext rfl (resolveEntry_of_isPlain hNode _ _)
  rw [below, hFound]
  clear hFound hPlain
  induction entries with
  | nil => rfl
  | cons e rest ih =>
    by_cases hSkip : w.skips e.1 = true
    · have hNone : w.belowEntry bound (above ++ [dir]) dir e = [] := by simp [belowEntry, hSkip]
      rw [List.flatMap_cons, hNone, List.nil_append, ← ih]
      simp [hSkip]
    · rw [List.flatMap_cons, ← ih]
      obtain ⟨name, node⟩ := e
      cases node <;> simp [belowEntry, hSkip]

/-! ## All levels -/

theorem belowEntry_file (bound : Nat) (above : List String) (dir name : String)
    (content : Content) :
    w.belowEntry bound above dir (name, .file content) =
      ([[name]].filter (w.reaches dir)).map fun place => .ok (Path.below dir place) := by
  cases hSkip : w.skips name <;> cases hWant : w.wants (Path.join dir name) <;>
    simp [belowEntry, reaches, hSkip, hWant, Path.below]

theorem belowEntry_dir (bound : Nat) (above : List String) (dir name : String)
    (inner : List (String × Node)) {places : List Place} (hSome : [] ∉ places)
    (hInner : w.below bound above (Path.join dir name) inner =
      (places.filter (w.reaches (Path.join dir name))).map
        fun place => .ok (Path.below (Path.join dir name) place)) :
    w.belowEntry bound above dir (name, .dir inner) =
      ((places.map (name :: ·)).filter (w.reaches dir)).map
        fun place => .ok (Path.below dir place) := by
  have hStep : ∀ place ∈ places, w.reaches dir (name :: place) =
      (!w.skips name && w.enters (Path.join dir name) &&
        w.reaches (Path.join dir name) place) := by
    intro place hMem
    cases place with
    | nil => exact absurd hMem hSome
    | cons next rest => rfl
  have hFilter : places.filter (w.reaches dir ∘ (name :: ·)) =
      places.filter fun place => !w.skips name && w.enters (Path.join dir name) &&
        w.reaches (Path.join dir name) place :=
    List.filter_congr hStep
  rw [List.filter_map, List.map_map, hFilter]
  cases hSkip : w.skips name <;> cases hEnter : w.enters (Path.join dir name) <;>
    simp [belowEntry, hSkip, hEnter, hInner, Path.below]

/-- **What is found below a directory without links.** -/
theorem below_eq {entries : List (String × Node)} (hPlain : Node.arePlain entries = true)
    {bound : Nat} (hBound : Node.sizeEntries entries < bound) (above : List String) (dir : String) :
    w.below bound above dir entries =
      ((Node.placesOf entries).filter (w.reaches dir)).map
        fun place => .ok (Path.below dir place) := by
  -- The bound is for links that lead back up; without links the size of the entries is enough.
  induction bound generalizing above dir entries with
  | zero => omega
  | succ bound ih =>
    have hEntry : ∀ e ∈ entries, w.belowEntry bound (above ++ [dir]) dir e =
        ((e.2.places.map (e.1 :: ·)).filter (w.reaches dir)).map
          fun place => .ok (Path.below dir place) := by
      rintro ⟨name, node⟩ hMem
      have hNode : node.isPlain = true := Node.isPlain_of_mem hPlain hMem
      cases node with
      | link target => cases hNode
      | file content =>
        rw [Node.places, List.map_singleton]
        exact belowEntry_file bound _ dir name content
      | dir inner =>
        have hSize : Node.sizeEntries inner + 1 ≤ Node.sizeEntries entries := by
          simpa [Node.size] using Node.size_le_of_mem hMem
        rw [Node.places]
        exact belowEntry_dir bound _ dir name inner (by simp [Node.mem_placesOf])
          (ih hNode (by omega) _ _)
    rw [below_succ hPlain, List.flatMap_congr hEntry]
    clear hEntry hBound hPlain
    induction entries with
    | nil => rfl
    | cons e rest ihRest =>
      rw [List.flatMap_cons, ihRest, Node.placesOf, List.filter_append, List.map_append]

/-! ## What is asked of a place -/

theorem reaches_iff (dir : String) (place : Place) :
    w.reaches dir place = true ↔
      place ≠ [] ∧ (∀ name ∈ place, w.skips name = false) ∧ w.wants (Path.below dir place) = true ∧
        ∀ way rest, place = way ++ rest → way ≠ [] → rest ≠ [] →
          w.enters (Path.below dir way) = true := by
  induction place generalizing dir with
  | nil => simp [reaches]
  | cons name tail ih =>
    cases tail with
    | nil =>
      have hNoWay : ∀ way rest : Place, [name] = way ++ rest → way ≠ [] → rest ≠ [] →
          w.enters (Path.below dir way) = true := by
        intro way rest hSplit hWay hRest
        rcases List.singleton_eq_append_iff.1 hSplit with ⟨rfl, -⟩ | ⟨-, rfl⟩
        · exact absurd rfl hWay
        · exact absurd rfl hRest
      simp only [reaches, Bool.and_eq_true, Bool.not_eq_true', List.forall_mem_singleton, ne_eq,
        List.cons_ne_nil, not_false_eq_true, true_and]
      exact ⟨fun ⟨hSkip, hWant⟩ => ⟨hSkip, hWant, hNoWay⟩, fun ⟨hSkip, hWant, _⟩ => ⟨hSkip, hWant⟩⟩
    | cons next more =>
      simp only [reaches, Bool.and_eq_true, Bool.not_eq_true', ih, List.forall_mem_cons (a := name),
        ne_eq, List.cons_ne_nil, not_false_eq_true, true_and]
      constructor
      · rintro ⟨⟨hSkip, hEnter⟩, hSkips, hWant, hWays⟩
        refine ⟨⟨hSkip, hSkips⟩, hWant, fun way rest hSplit hWay hRest => ?_⟩
        obtain ⟨first, way, rfl⟩ := List.exists_cons_of_ne_nil hWay
        obtain ⟨rfl, hTail⟩ := List.cons.inj hSplit
        by_cases hLast : way = []
        · exact hLast ▸ hEnter
        · exact hWays way rest hTail hLast hRest
      · rintro ⟨⟨hSkip, hSkips⟩, hWant, hWays⟩
        refine ⟨⟨hSkip, hWays [name] (next :: more) rfl (by simp) (by simp)⟩, hSkips, hWant,
          fun way rest hSplit _ hRest => ?_⟩
        exact hWays (name :: way) rest (by rw [hSplit, List.cons_append]) (by simp) hRest

/-! ## The root -/

theorem root_ne_empty {tree : FileTree} {root : String} {node : Node}
    (hRoot : tree.lookup root = .ok node) : root ≠ "" := by
  rintro rfl
  obtain ⟨hRefusal, -⟩ := FileTree.lookup_eq_ok hRoot
  cases hRefusal

/-- The root is seen from itself as the empty path, unless its text ends with a step up. -/
theorem relative_rootEntry (hRoot : w.root ≠ "")
    (hUp : (Path.components w.root).getLast? ≠ some .up) : w.relative w.rootEntry = "" := by
  refine Path.relative_of_components hRoot ?_
  rw [rootEntry, Path.components_entry hUp]

theorem outcomes_eq {entries : List (String × Node)} (hPlain : w.tree.isPlain = true)
    (hRoot : w.tree.lookup w.root = .ok (.dir entries)) :
    w.outcomes =
      if w.enters w.rootEntry then
        ((Node.placesOf entries).filter (w.reaches w.root)).map
          fun place => .ok (Path.below w.root place)
      else [] := by
  have hDir : w.rootIsDir = true := by
    rw [rootIsDir, FileTree.named_of_lookup hPlain hRoot, hRoot, ite_self]
    rfl
  obtain ⟨-, -, place, -, hAt⟩ := FileTree.lookup_eq_ok hRoot
  have hEntries : Node.arePlain entries = true := Node.isPlain_at? hPlain hAt
  have hSize : Node.sizeEntries entries + 1 ≤ w.tree.size := by
    simpa [Node.size] using Node.size_at?_le hAt
  have hBound : Node.sizeEntries entries < w.depthBound := by
    rw [depthBound, linkLimit]
    omega
  rw [outcomes, hRoot]
  simp only [isRootRejected, hDir, Bool.true_and, below_eq hEntries hBound]
  cases w.enters w.rootEntry <;> rfl

/-- What is asked of a place, in terms of the paths as seen from the root. -/
theorem reaches_root_iff (hRoot : w.root ≠ "") {place : Place} (hSome : place ≠ [])
    (hNames : ∀ name ∈ place, Path.isName name = true) :
    w.reaches w.root place = true ↔
      (w.skipHidden = true → ∀ name ∈ place, isHidden name = false) ∧
      w.selection.takes ("/".intercalate place) = true ∧
      w.selection.rejects ("/".intercalate place) false = false ∧
      ∀ way rest, place = way ++ rest → way ≠ [] → rest ≠ [] →
        w.selection.rejects ("/".intercalate way) true = false := by
  have hSkips : (∀ name ∈ place, w.skips name = false) ↔
      (w.skipHidden = true → ∀ name ∈ place, isHidden name = false) := by
    cases hHidden : w.skipHidden <;> simp [skips, hHidden]
  have hRelative : ∀ way rest, place = way ++ rest → way ≠ [] →
      w.relative (Path.below w.root way) = "/".intercalate way := by
    intro way rest hSplit hWay
    refine Path.relative_below hRoot hWay fun name hMem => hNames name ?_
    rw [hSplit]
    exact List.mem_append_left rest hMem
  rw [reaches_iff, hSkips, wants, hRelative place [] (by simp) hSome, Bool.and_eq_true,
    Bool.not_eq_true']
  constructor
  · rintro ⟨-, hHidden, ⟨hTakes, hKeeps⟩, hWays⟩
    refine ⟨hHidden, hTakes, hKeeps, fun way rest hSplit hWay hRest => ?_⟩
    rw [← hRelative way rest hSplit hWay]
    simpa [enters] using hWays way rest hSplit hWay hRest
  · rintro ⟨hHidden, hTakes, hKeeps, hWays⟩
    refine ⟨hSome, hHidden, ⟨hTakes, hKeeps⟩, fun way rest hSplit hWay hRest => ?_⟩
    simpa [enters, hRelative way rest hSplit hWay] using hWays way rest hSplit hWay hRest

theorem exists_found {entries : List (String × Node)} (hPlain : w.tree.isPlain = true)
    (hRoot : w.tree.lookup w.root = .ok (.dir entries)) :
    ∃ found : List Place,
      w.outcomes = found.map (fun place => .ok (Path.below w.root place)) ∧
      found.Pairwise Node.Precedes ∧
      ∀ place, place ∈ found ↔
        (∃ content, (Node.dir entries).at? place = some (.file content)) ∧
        (w.skipHidden = true → ∀ name ∈ place, isHidden name = false) ∧
        w.selection.takes ("/".intercalate place) = true ∧
        w.selection.rejects ("/".intercalate place) false = false ∧
        (∀ way rest, place = way ++ rest → way ≠ [] → rest ≠ [] →
          w.selection.rejects ("/".intercalate way) true = false) ∧
        w.selection.rejects (w.relative w.rootEntry) true = false := by
  have hWalk := outcomes_eq hPlain hRoot
  obtain ⟨-, -, top, -, hAt⟩ := FileTree.lookup_eq_ok hRoot
  have hEntries : (Node.dir entries).isPlain = true := Node.isPlain_at? hPlain hAt
  cases hReject : w.selection.rejects (w.relative w.rootEntry) true with
  | true =>
    refine ⟨[], ?_, .nil, by simp⟩
    rw [hWalk, if_neg (by simp [enters, hReject])]
    rfl
  | false =>
    refine ⟨(Node.placesOf entries).filter (w.reaches w.root), ?_,
      (Node.pairwise_placesOf hEntries).filter _, fun place => ?_⟩
    · rw [hWalk, if_pos (by simp [enters, hReject])]
    · have hPlaces : place ∈ Node.placesOf entries ↔
          ∃ content, (Node.dir entries).at? place = some (.file content) := by
        rw [← Node.mem_places hEntries, Node.places]
      rw [List.mem_filter, ← hPlaces]
      refine and_congr_right fun hMem => ?_
      have hSome : place ≠ [] := by
        rintro rfl
        simp [Node.mem_placesOf] at hMem
      have hNames : ∀ name ∈ place, Path.isName name = true :=
        Node.isName_of_mem_places hEntries (by rwa [Node.places])
      rw [reaches_root_iff (root_ne_empty hRoot) hSome hNames]
      simp

end Walk

theorem prepare_fst (tree : FileTree) (options : DiscoveryOptions) (root : String) :
    (prepare tree options root).1 =
      { tree, root, followLinks := options.followLinks, skipHidden := options.skipHidden,
        selection := (selection tree options root).1 } := by
  unfold prepare
  generalize selection tree options root = chosen
  rfl

/-- **A walk finds exactly the files that are wanted and can be reached.** In a tree without links
they come once each, depth first, and in every directory in the order of the bytes of the names. A
file is reached if neither it nor a directory between it and the root is hidden or passed over, and
if the root is not passed over either. -/
theorem walk_finds_exactly {tree : FileTree} {options : DiscoveryOptions} {root : String}
    {entries : List (String × Node)} (hPlain : tree.isPlain = true)
    (hRoot : tree.lookup root = .ok (.dir entries)) :
    let chosen := (selection tree options root).1
    let rootPath := Path.relative root (prepare tree options root).1.rootEntry
    ((Path.components root).getLast? ≠ some .up → rootPath = "") ∧
      ∃ found : List Place,
        walk tree options root = found.map (fun place => .ok (Path.below root place)) ∧
        found.Pairwise Node.Precedes ∧
        ∀ place, place ∈ found ↔
          (∃ content, (Node.dir entries).at? place = some (.file content)) ∧
          (options.skipHidden = true → ∀ name ∈ place, Walk.isHidden name = false) ∧
          chosen.takes ("/".intercalate place) = true ∧
          chosen.rejects ("/".intercalate place) false = false ∧
          (∀ way rest, place = way ++ rest → way ≠ [] → rest ≠ [] →
            chosen.rejects ("/".intercalate way) true = false) ∧
          chosen.rejects rootPath true = false := by
  intro chosen
  have hWalk : (prepare tree options root).1 =
      ⟨tree, root, options.followLinks, options.skipHidden, chosen⟩ :=
    prepare_fst tree options root
  rw [walk, hWalk]
  clear_value chosen
  clear hWalk
  have hRootPath := Walk.relative_rootEntry
    (w := ⟨tree, root, options.followLinks, options.skipHidden, chosen⟩)
    (Walk.root_ne_empty hRoot)
  have hFound := Walk.exists_found
    (w := ⟨tree, root, options.followLinks, options.skipHidden, chosen⟩) hPlain hRoot
  exact ⟨hRootPath, hFound⟩

/-- A root one level down, with a hidden directory and one that is passed over. -/
theorem walk_finds_below_src :
    let entries : List (String × Node) :=
      [(".cache", .dir [("a.ts", .file (.text ""))]),
        ("app", .dir [("main.ts", .file (.text "")), ("notes.txt", .file (.text ""))]),
        ("dist", .dir [("main.ts", .file (.text ""))])]
    let tree : FileTree := .dir [("src", .dir entries)]
    let options : DiscoveryOptions := { respectIgnoreFile := false, excludes := ["dist/"] }
    tree.isPlain = true ∧ tree.lookup "src" = .ok (.dir entries) ∧
      ∃ found : List Place,
        walk tree options "src" = found.map (fun place => .ok (Path.below "src" place)) ∧
        found.Pairwise Node.Precedes ∧
        (["app", "main.ts"] ∈ found ∧ ["app", "notes.txt"] ∉ found ∧ ["dist", "main.ts"] ∉ found ∧
          [".cache", "a.ts"] ∉ found) := by
  intro entries tree options
  have hPlain : tree.isPlain = true := by decide
  have hRoot : tree.lookup "src" = .ok (.dir entries) :=
    FileTree.lookup_entry (by decide) (FileTree.entry?_single _) rfl
  obtain ⟨hRootPath, found, hWalk, hOrder, hFound⟩ :=
    @walk_finds_exactly tree options "src" entries hPlain hRoot
  refine ⟨hPlain, hRoot, found, hWalk, hOrder, (hFound _).2 ?_, fun hMem => ?_, fun hMem => ?_,
    fun hMem => ?_⟩
  · refine ⟨⟨.text "", rfl⟩, by decide, by decide +kernel, by decide +kernel, ?_, ?_⟩
    · intro way rest hSplit hWay hRest
      obtain rfl : way = ["app"] := by
        obtain ⟨first, way, rfl⟩ := List.exists_cons_of_ne_nil hWay
        obtain ⟨last, rest, rfl⟩ := List.exists_cons_of_ne_nil hRest
        obtain ⟨rfl, hSplit⟩ := List.cons.inj hSplit
        have hLength := congrArg List.length hSplit
        obtain rfl : way = [] := List.eq_nil_of_length_eq_zero (by simp at hLength; omega)
        rfl
      decide +kernel
    · rw [hRootPath (by decide)]
      decide +kernel
  · exact absurd ((hFound _).1 hMem).2.2.1 (by decide +kernel)
  · have hWay := ((hFound _).1 hMem).2.2.2.2.1 ["dist"] ["main.ts"] rfl (by simp) (by simp)
    exact absurd hWay (by decide +kernel)
  · exact absurd (((hFound _).1 hMem).2.1 rfl) (by decide)

/-- A file that is taken back from the exclude patterns, with no directory between it and the root,
is not found: the patterns leave the root itself out. -/
theorem walk_misses_kept_file :
    let tree : FileTree := .dir [("keep.ts", .file (.text ""))]
    let options : DiscoveryOptions :=
      { respectIgnoreFile := false, excludes := ["*", "!keep.ts"] }
    let chosen := (selection tree options ".").1
    tree.isPlain = true ∧ tree.lookup "." = .ok tree ∧
      tree.at? ["keep.ts"] = some (.file (.text "")) ∧ Walk.isHidden "keep.ts" = false ∧
      chosen.takes "keep.ts" = true ∧ chosen.rejects "keep.ts" false = false ∧
      walk tree options "." = [] := by
  intro tree options chosen
  have hPlain : tree.isPlain = true := by decide
  have hRoot : tree.lookup "." = .ok tree := FileTree.lookup_here _
  refine ⟨hPlain, hRoot, rfl, by decide, by decide +kernel, by decide +kernel, ?_⟩
  have hWalk : (prepare tree options ".").1 = ⟨tree, ".", false, true, chosen⟩ :=
    prepare_fst tree options "."
  have hLeft : Walk.enters ⟨tree, ".", false, true, chosen⟩
      (Walk.rootEntry ⟨tree, ".", false, true, chosen⟩) = false := by
    decide +kernel
  rw [walk, hWalk, Walk.outcomes_eq (w := ⟨tree, ".", false, true, chosen⟩) hPlain hRoot, hLeft]
  rfl

end Homonym.Discovery
