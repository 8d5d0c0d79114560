import Homonym.FileTree.Write
import Homonym.Proofs.FileTree.Ways

/-!
# Trees that grow

Every change of a tree here puts one node under a name (`form?_insert`). A tree grows (`GrowsTo`) if
at every place there is still what was there, though files may hold something else; then every way
leads where it led before, and a way to a vacant name leads to what was put there (`Leads.grow`).

* `readText_write`: a file that was written is read back, whatever links the path goes through.
* `gainsDirs_makeDirsWithin`: making directories adds directories where nothing was, and changes
  nothing else, also when it fails half-way.
* `write_cases`: writing puts a file under a vacant name, or in the place of a file.
-/

namespace Homonym

namespace Node

theorem entry?_cons (name first : String) (node : Node) (rest : List (String × Node)) :
    entry? name ((first, node) :: rest) = if first = name then some node else entry? name rest := by
  by_cases hName : first = name <;> simp [ entry?, hName]

theorem entry?_setEntry (name other : String) (node : Node) (entries : List (String × Node)) :
    entry? name (setEntry other node entries) =
      if other = name then some node else entry? name entries := by
  induction entries with
  | nil => exact entry?_cons name other node []
  | cons e rest ih =>
    obtain ⟨first, old⟩ := e
    rw [setEntry]
    split
    · rename_i hFirst
      rw [entry?_cons, entry?_cons, hFirst]
      split <;> rfl
    · rename_i hFirst
      split
      · exact entry?_cons name other node _
      · rw [entry?_cons, ih, entry?_cons]
        by_cases hName : first = name
        · rw [if_pos hName, if_pos hName, if_neg fun hOther => hFirst (hName.trans hOther.symm)]
        · rw [if_neg hName, if_neg hName]

end Node

/-- The same stands at a place, though a file may hold something else. -/
def Form.IsLike : Form → Form → Prop
  | .file _, .file _ => True
  | form, other => form = other

namespace FileTree

variable {tree : FileTree}

/-! ## One node more -/

/-- The place of a name in a directory, or a place below it. -/
def IsUnder (dir : Place) (name : String) (place : Place) : Prop :=
  dir ++ [name] <+: place

theorem form?_dir_cons {entries : List (String × Node)} (name : String) (rest : Place) :
    form? (.dir entries) (name :: rest) = (Node.entry? name entries).bind (form? · rest) := by
  rw [form?, Node.at?]
  cases Node.entry? name entries <;> rfl

/-- Below a node that is put into a tree, the tree is that node. -/
theorem form?_insert_under {dir : Place} (hDir : tree.form? dir = some .dir) (name : String)
    (node : Node) (rest : Place) :
    form? (tree.insert dir name node) (dir ++ name :: rest) = form? node rest := by
  induction dir generalizing tree with
  | nil =>
    cases tree with
    | dir entries =>
      rw [Node.insert, Node.mapDir, List.nil_append, form?_dir_cons, Node.entry?_setEntry,
        if_pos rfl]
      rfl
    | _ => cases hDir
  | cons first dir ih =>
    cases tree with
    | dir entries =>
      rw [form?_dir_cons] at hDir
      obtain ⟨child, hEntry, hChild⟩ := Option.bind_eq_some_iff.1 hDir
      rw [Node.insert, Node.mapDir]
      simp only [hEntry]
      rw [List.cons_append, form?_dir_cons, Node.entry?_setEntry, if_pos rfl]
      exact ih hChild
    | _ => cases hDir

/-- Elsewhere the tree is as it was. -/
theorem form?_insert_apart {dir : Place} (hDir : tree.form? dir = some .dir) {name : String}
    (node : Node) {place : Place} (hApart : ¬IsUnder dir name place) :
    form? (tree.insert dir name node) place = tree.form? place := by
  induction dir generalizing tree place with
  | nil =>
    cases tree with
    | dir entries =>
      rw [Node.insert, Node.mapDir]
      cases place with
      | nil => rfl
      | cons first rest =>
        have hNe : name ≠ first := by
          rintro rfl
          exact hApart ⟨rest, rfl⟩
        rw [form?_dir_cons, form?_dir_cons, Node.entry?_setEntry, if_neg hNe]
    | _ => cases hDir
  | cons first dir ih =>
    cases tree with
    | dir entries =>
      rw [form?_dir_cons] at hDir
      obtain ⟨child, hEntry, hChild⟩ := Option.bind_eq_some_iff.1 hDir
      rw [Node.insert, Node.mapDir]
      simp only [hEntry]
      cases place with
      | nil => rfl
      | cons other rest =>
        rw [form?_dir_cons, form?_dir_cons, Node.entry?_setEntry]
        split
        · rename_i hSame
          subst hSame
          rw [hEntry]
          refine ih hChild fun hUnder => hApart ?_
          exact List.cons_prefix_cons.2 ⟨rfl, hUnder⟩
        · rfl
    | _ => cases hDir

/-! ## Growth -/

/-- Everything that stands in a tree stands in another one. -/
def GrowsTo (tree grown : FileTree) : Prop :=
  ∀ place form, tree.form? place = some form →
    ∃ other, grown.form? place = some other ∧ Form.IsLike form other

theorem GrowsTo.dir {grown : FileTree} (hGrows : tree.GrowsTo grown) {place : Place}
    (hDir : tree.form? place = some .dir) : grown.form? place = some .dir := by
  obtain ⟨other, hOther, hLike⟩ := hGrows place _ hDir
  cases hLike
  exact hOther

theorem GrowsTo.link {grown : FileTree} (hGrows : tree.GrowsTo grown) {place : Place}
    {target : String} (hLink : tree.form? place = some (.link target)) :
    grown.form? place = some (.link target) := by
  obtain ⟨other, hOther, hLike⟩ := hGrows place _ hLink
  cases hLike
  exact hOther

theorem GrowsTo.noLink {grown : FileTree} (hGrows : tree.GrowsTo grown) {place : Place}
    {form : Form} (hForm : tree.form? place = some form) (hNoLink : ∀ target, form ≠ .link target) :
    ∃ other, grown.form? place = some other ∧ ∀ target, other ≠ .link target := by
  obtain ⟨other, hOther, hLike⟩ := hGrows place _ hForm
  refine ⟨other, hOther, ?_⟩
  rintro target rfl
  cases form with
  | link own => exact hNoLink own rfl
  | _ => cases hLike

/-- **In a tree that has grown a way leads where it led before.** At a name that was vacant there
must be something now. -/
theorem Leads.grow {grown : FileTree} (hGrows : tree.GrowsTo grown) {purpose : Purpose}
    {links : Nat} {place : Place} {list : List Move} {spot : Spot}
    (hLeads : Leads tree purpose links place list spot)
    (hEnd : ∀ dir name, spot = .vacant dir name →
      ∃ form, grown.form? (dir ++ [name]) = some form ∧ ∀ target, form ≠ .link target) :
    Leads grown .look links place list (.found spot.place) := by
  induction hLeads with
  | nil => exact .nil
  | gap hDir _ ih => exact .gap (hGrows.dir hDir) (ih hEnd)
  | stay hDir _ ih => exact .stay (hGrows.dir hDir) (ih hEnd)
  | up hDir _ ih => exact .up (hGrows.dir hDir) (ih hEnd)
  | vacant hDir hSize hNone =>
    obtain ⟨form, hForm, hNoLink⟩ := hEnd _ _ rfl
    exact .down hSize (not_isBarred_look _) hForm hNoLink .nil
  | link hSize _ hLink hRelative _ ih =>
    exact .link hSize (not_isBarred_look _) (hGrows.link hLink) hRelative (ih hEnd)
  | down hSize _ hForm hNoLink _ ih =>
    obtain ⟨other, hOther, hNoLink⟩ := hGrows.noLink hForm hNoLink
    exact .down hSize (not_isBarred_look _) hOther hNoLink (ih hEnd)

/-! ## Paths -/

theorem resolve_eq_follow {purpose : Purpose} {path : String} (hRefusal : pathRefusal? path = none)
    (hRelative : Path.isAbsolute path = false) :
    tree.resolve purpose path = follow tree purpose linkLimit [] (moves path) := by
  simp [resolve, hRefusal, hRelative]

theorem resolve_eq_ok_iff {purpose : Purpose} {path : String} {spot : Spot} :
    tree.resolve purpose path = .ok spot ↔
      pathRefusal? path = none ∧ Path.isAbsolute path = false ∧
        Leads tree purpose linkLimit [] (moves path) spot := by
  rw [resolve]
  cases hRefusal : pathRefusal? path with
  | some e => simp
  | none => cases hAbsolute : Path.isAbsolute path <;> simp [follow_eq_ok_iff]

theorem lookup_eq_ok_iff {path : String} {node : Node} :
    tree.lookup path = .ok node ↔
      ∃ place, tree.resolve .look path = .ok (.found place) ∧ tree.at? place = some node := by
  rw [lookup]
  rcases tree.resolve .look path with e | place | ⟨dir, name⟩
  · simp
  · simp only [Except.ok.injEq, Spot.found.injEq, exists_eq_left']
    cases tree.at? place <;> simp
  · simp

theorem isDir_eq_true_iff {path : String} :
    tree.isDir path = true ↔
      ∃ place, tree.resolve .look path = .ok (.found place) ∧ tree.form? place = some .dir := by
  have hLookup : tree.isDir path = true ↔ ∃ entries, tree.lookup path = .ok (.dir entries) := by
    rw [isDir]
    rcases tree.lookup path with _ | _ | _ | _ <;> simp [Node.isDir]
  simp only [hLookup, lookup_eq_ok_iff, form?_eq_dir_iff]
  exact ⟨fun ⟨entries, place, h⟩ => ⟨place, h.1, entries, h.2⟩,
    fun ⟨place, h, entries, hAt⟩ => ⟨entries, place, h, hAt⟩⟩

theorem form?_eq_file_iff {place : Place} {content : Content} :
    tree.form? place = some (.file content) ↔ tree.at? place = some (.file content) := by
  rw [form?]
  rcases tree.at? place with _ | _ | _ | _ <;> simp [Node.form]

theorem read_eq_ok_iff {path : String} {content : Content} :
    tree.read path = .ok content ↔
      ∃ place, tree.resolve .look path = .ok (.found place) ∧
        tree.form? place = some (.file content) := by
  have hLookup : tree.read path = .ok content ↔ tree.lookup path = .ok (.file content) := by
    rw [read]
    rcases tree.lookup path with _ | _ | _ | _ <;> simp
  simp only [hLookup, lookup_eq_ok_iff, form?_eq_file_iff]

theorem readText_eq_ok_iff {path text : String} :
    tree.readText path = .ok text ↔ tree.read path = .ok (.text text) := by
  rw [readText]
  rcases tree.read path with _ | _ | _ <;> simp

theorem pathExists_of_read {path : String} {content : Content}
    (hRead : tree.read path = .ok content) : tree.pathExists path = true := by
  rw [read] at hRead
  rw [pathExists]
  cases hLookup : tree.lookup path with
  | error e => simp [hLookup] at hRead
  | ok node => rfl

/-! ## Writing -/

/-- What is put under a vacant name, or as a file in the place of a file, makes a tree grow. -/
theorem growsTo_insert {dir : Place} (hDir : tree.form? dir = some .dir) {name : String}
    {node : Node} (hLike : ∀ form, tree.form? (dir ++ [name]) = some form →
      form ≠ .dir ∧ Form.IsLike form node.form) : tree.GrowsTo (tree.insert dir name node) := by
  intro place form hForm
  by_cases hUnder : IsUnder dir name place
  · obtain ⟨rest, rfl⟩ := hUnder
    rw [List.append_assoc, List.singleton_append] at hForm ⊢
    cases rest with
    | nil => exact ⟨_, form?_insert_under hDir name node [], (hLike form hForm).2⟩
    | cons first rest =>
      rw [← List.singleton_append, ← List.append_assoc] at hForm
      exact absurd rfl (hLike _ (form?_front hForm)).1
  · refine ⟨form, (form?_insert_apart hDir node hUnder).trans hForm, ?_⟩
    cases form <;> simp [Form.IsLike]

/-- A file is written under a name in a directory, which is vacant or that of a file. -/
theorem write_cases {path : String} {content : Content} {after : FileTree}
    (hWrite : tree.write path content = .ok after) :
    ∃ spot dir name, tree.resolve .make path = .ok spot ∧ spot.place = dir ++ [name] ∧
      tree.form? dir = some .dir ∧
      (tree.form? (dir ++ [name]) = none ∨
        spot = .found (dir ++ [name]) ∧ ∃ old, tree.form? (dir ++ [name]) = some (.file old)) ∧
      after = tree.insert dir name (.file content) := by
  rw [write] at hWrite
  split at hWrite
  · cases hWrite
  · rename_i dir name hResolve
    obtain ⟨-, -, hLeads⟩ := resolve_eq_ok_iff.1 hResolve
    obtain ⟨hDir, hNone⟩ := hLeads.form?_of_vacant rfl
    exact ⟨_, dir, name, hResolve, rfl, hDir, .inl hNone, (Except.ok.inj hWrite).symm⟩
  · rename_i place hResolve
    split at hWrite
    · rename_i old name hAt hLast
      obtain ⟨dir, rfl⟩ := List.getLast?_eq_some_iff.1 hLast
      have hForm := form?_eq_file_iff.2 hAt
      rw [List.dropLast_concat] at hWrite
      exact ⟨_, dir, name, hResolve, rfl, form?_front hForm, .inr ⟨rfl, old, hForm⟩,
        (Except.ok.inj hWrite).symm⟩
    · cases hWrite

/-- **A file that was written is read back.** -/
theorem readText_write {path text : String} {after : FileTree}
    (hWrite : tree.write path (.text text) = .ok after) : after.readText path = .ok text := by
  obtain ⟨spot, dir, name, hResolve, hPlace, hDir, hFree, rfl⟩ := write_cases hWrite
  obtain ⟨hRefusal, hRelative, hLeads⟩ := resolve_eq_ok_iff.1 hResolve
  have hWritten : form? (tree.insert dir name (.file (.text text))) (dir ++ [name]) =
      some (.file (.text text)) := form?_insert_under hDir name _ []
  have hGrows : tree.GrowsTo (tree.insert dir name (.file (.text text))) := by
    refine growsTo_insert hDir fun form hForm => ?_
    rcases hFree with hNone | ⟨-, old, hOld⟩
    · rw [hNone] at hForm
      cases hForm
    · rw [hOld] at hForm
      cases hForm
      exact ⟨nofun, trivial⟩
  have hGrown := hLeads.grow hGrows fun dir' name' hSpot => by
    obtain rfl := hSpot
    exact ⟨.file (.text text), (congrArg _ hPlace).trans hWritten, nofun⟩
  rw [readText_eq_ok_iff, read_eq_ok_iff]
  exact ⟨dir ++ [name], resolve_eq_ok_iff.2 ⟨hRefusal, hRelative, hPlace ▸ hGrown⟩, hWritten⟩

/-! ## Making directories -/

/-- At every place there is what was there, or a directory where nothing was. -/
def GainsDirs (tree grown : FileTree) : Prop :=
  ∀ place, grown.form? place = tree.form? place ∨
    tree.form? place = none ∧ grown.form? place = some .dir

theorem GainsDirs.refl (tree : FileTree) : tree.GainsDirs tree :=
  fun _ => .inl rfl

theorem GainsDirs.trans {middle grown : FileTree} (hFirst : tree.GainsDirs middle)
    (hSecond : middle.GainsDirs grown) : tree.GainsDirs grown := by
  intro place
  rcases hSecond place with hSame | ⟨hNone, hDir⟩
  · rw [hSame]
    exact hFirst place
  · rcases hFirst place with hSame | ⟨-, hMade⟩
    · exact .inr ⟨hSame ▸ hNone, hDir⟩
    · rw [hNone] at hMade
      cases hMade

theorem GainsDirs.growsTo {grown : FileTree} (hGains : tree.GainsDirs grown) :
    tree.GrowsTo grown := by
  intro place form hForm
  rcases hGains place with hSame | ⟨hNone, -⟩
  · refine ⟨form, hSame.trans hForm, ?_⟩
    cases form <;> simp [Form.IsLike]
  · rw [hNone] at hForm
    cases hForm

/-- Files are neither gained nor lost. -/
theorem GainsDirs.file_iff {grown : FileTree} (hGains : tree.GainsDirs grown) {place : Place}
    {content : Content} :
    grown.form? place = some (.file content) ↔ tree.form? place = some (.file content) := by
  rcases hGains place with hSame | ⟨hNone, hDir⟩
  · rw [hSame]
  · simp [hNone, hDir]

/-- A directory is made under a vacant name. -/
theorem makeDir_cases {path : String} {made : FileTree} (hMake : tree.makeDir path = .ok made) :
    ∃ place name, tree.resolveParent (trimSlashes path) = .ok (place, .down name) ∧
      tree.form? place = some .dir ∧ tree.form? (place ++ [name]) = none ∧
      made = tree.insert place name (.dir []) := by
  rw [makeDir] at hMake
  split at hMake
  · cases hMake
  · rename_i place name hParent
    split at hMake
    · rename_i entries hAt
      split at hMake
      · cases hMake
      · rename_i hFree
        refine ⟨place, name, hParent, form?_eq_dir_iff.2 ⟨entries, hAt⟩, ?_,
          (Except.ok.inj hMake).symm⟩
        rw [form?_concat hAt]
        simpa using hFree
    · cases hMake
  · cases hMake

theorem gainsDirs_makeDir {path : String} {made : FileTree} (hMake : tree.makeDir path = .ok made) :
    tree.GainsDirs made := by
  obtain ⟨dir, name, -, hDir, hNone, rfl⟩ := makeDir_cases hMake
  intro place
  by_cases hUnder : IsUnder dir name place
  · obtain ⟨rest, rfl⟩ := hUnder
    rw [List.append_assoc, List.singleton_append, form?_insert_under hDir]
    cases rest with
    | nil => exact .inr ⟨hNone, rfl⟩
    | cons first rest =>
      have hBelow : tree.form? (dir ++ name :: first :: rest) = none := by
        rw [← List.singleton_append, ← List.append_assoc, Option.eq_none_iff_forall_ne_some]
        intro form hForm
        rw [form?_front hForm] at hNone
        cases hNone
      exact .inl hBelow.symm
  · exact .inl (form?_insert_apart hDir _ hUnder)

theorem gainsDirs_makeDirsWithin (bound : Nat) (tree : FileTree) (path : String) :
    tree.GainsDirs (makeDirsWithin bound tree path).2 := by
  fun_induction makeDirsWithin bound tree path with
  | case3 bound tree path hSome made hMake => exact gainsDirs_makeDir hMake
  | case5 bound tree path hSome hMissing parent hParent e above hAbove ih =>
    rw [hAbove] at ih
    exact ih
  | case6 bound tree path hSome hMissing parent hParent above hAbove made hMake ih =>
    rw [hAbove] at ih
    exact ih.trans (gainsDirs_makeDir hMake)
  | case7 bound tree path hSome hMissing parent hParent above hAbove e hMake ih =>
    rw [hAbove] at ih
    exact ih
  | _ => exact .refl _

end FileTree

end Homonym
