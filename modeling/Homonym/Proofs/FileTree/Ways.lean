import Homonym.Proofs.FileTree.Plain

/-!
# Ways through a tree with links

Where moves lead depends on the tree only through what stands at each place: a directory, a file or
a link (`FileTree.form?`). `FileTree.Leads` says so with one rule for each kind of step, and
`follow_eq_ok_iff` says that these are the ways that `follow` finds.

* `follow_append`: a way that begins with another one goes on from its end.
* `Leads.look`: a way on which a file may be made is a way to look along. The converse holds of ways
  that end at a file (`Leads.make`).
-/

namespace Homonym

/-- What stands at a place, apart from the entries of a directory. -/
inductive Form where
  | dir
  | file (content : Content)
  | link (target : String)

/-- What a node is, apart from the entries of a directory. -/
def Node.form : Node → Form
  | .file content => .file content
  | .dir _ => .dir
  | .link target => .link target

/-- The place that a way leads to. -/
def Spot.place : Spot → Place
  | .found place => place
  | .vacant dir name => dir ++ [name]

namespace FileTree

/-- What stands at a place of a tree. -/
def form? (tree : FileTree) (place : Place) : Option Form :=
  (tree.at? place).map Node.form

/-- Where moves lead from a place, through at most `links` links. -/
inductive Leads (tree : FileTree) (purpose : Purpose) : Nat → Place → List Move → Spot → Prop
  | nil {links : Nat} {place : Place} : Leads tree purpose links place [] (.found place)
  | gap {links : Nat} {place : Place} {rest : List Move} {spot : Spot}
      (hDir : tree.form? place = some .dir) (hRest : Leads tree purpose links place rest spot) :
      Leads tree purpose links place (.gap :: rest) spot
  | stay {links : Nat} {place : Place} {rest : List Move} {spot : Spot}
      (hDir : tree.form? place = some .dir) (hRest : Leads tree purpose links place rest spot) :
      Leads tree purpose links place (.stay :: rest) spot
  | up {links : Nat} {place : Place} {rest : List Move} {spot : Spot}
      (hDir : tree.form? place = some .dir)
      (hRest : Leads tree purpose links place.dropLast rest spot) :
      Leads tree purpose links place (.up :: rest) spot
  | vacant {links : Nat} {place : Place} {name : String} (hDir : tree.form? place = some .dir)
      (hSize : name.utf8ByteSize ≤ nameLimit) (hNone : tree.form? (place ++ [name]) = none) :
      Leads tree purpose links place [.down name] (.vacant place name)
  | link {links : Nat} {place : Place} {name target : String} {rest : List Move} {spot : Spot}
      (hSize : name.utf8ByteSize ≤ nameLimit) (hBarred : purpose.isBarred rest = false)
      (hLink : tree.form? (place ++ [name]) = some (.link target))
      (hRelative : Path.isAbsolute target = false)
      (hRest : Leads tree purpose links place (moves target ++ rest) spot) :
      Leads tree purpose (links + 1) place (.down name :: rest) spot
  | down {links : Nat} {place : Place} {name : String} {form : Form} {rest : List Move}
      {spot : Spot} (hSize : name.utf8ByteSize ≤ nameLimit)
      (hBarred : purpose.isBarred rest = false)
      (hForm : tree.form? (place ++ [name]) = some form) (hNoLink : ∀ target, form ≠ .link target)
      (hRest : Leads tree purpose links (place ++ [name]) rest spot) :
      Leads tree purpose links place (.down name :: rest) spot

/-! ## What stands at a place -/

theorem form?_eq_dir_iff {tree : FileTree} {place : Place} :
    tree.form? place = some .dir ↔ ∃ entries, tree.at? place = some (.dir entries) := by
  rw [form?]
  rcases tree.at? place with _ | _ | _ | _ <;> simp [Node.form]

theorem form?_concat {tree : FileTree} {place : Place} {entries : List (String × Node)}
    (hAt : tree.at? place = some (.dir entries)) (name : String) :
    tree.form? (place ++ [name]) = (Node.entry? name entries).map Node.form := by
  rw [form?, Node.at?_concat hAt]

/-- Something can stand below a directory only. -/
theorem form?_front {tree : FileTree} {place rest : Place} {name : String} {form : Form}
    (hForm : tree.form? (place ++ name :: rest) = some form) : tree.form? place = some .dir := by
  induction place generalizing tree with
  | nil =>
    cases tree with
    | dir entries => rfl
    | _ => cases hForm
  | cons first place ih =>
    cases tree with
    | dir entries =>
      rw [form?, List.cons_append, Node.at?] at hForm
      rw [form?, Node.at?]
      cases hEntry : Node.entry? first entries with
      | none =>
        rw [hEntry] at hForm
        cases hForm
      | some child =>
        rw [hEntry] at hForm
        exact ih hForm
    | _ => cases hForm

/-! ## One step -/

section Step

variable {tree : FileTree} {purpose : Purpose} {links : Nat} {place : Place} {name : String}
  {rest : List Move}

theorem follow_gap (hDir : tree.form? place = some .dir) :
    follow tree purpose links place (.gap :: rest) = follow tree purpose links place rest := by
  obtain ⟨entries, hAt⟩ := form?_eq_dir_iff.1 hDir
  rw [follow, hAt]

theorem follow_stay (hDir : tree.form? place = some .dir) :
    follow tree purpose links place (.stay :: rest) = follow tree purpose links place rest := by
  obtain ⟨entries, hAt⟩ := form?_eq_dir_iff.1 hDir
  rw [follow, hAt]

theorem follow_up (hDir : tree.form? place = some .dir) :
    follow tree purpose links place (.up :: rest) =
      follow tree purpose links place.dropLast rest := by
  obtain ⟨entries, hAt⟩ := form?_eq_dir_iff.1 hDir
  rw [follow, hAt]

theorem follow_vacant (hDir : tree.form? place = some .dir)
    (hSize : name.utf8ByteSize ≤ nameLimit) (hNone : tree.form? (place ++ [name]) = none) :
    follow tree purpose links place [.down name] = .ok (.vacant place name) := by
  obtain ⟨entries, hAt⟩ := form?_eq_dir_iff.1 hDir
  rw [form?_concat hAt, Option.map_eq_none_iff] at hNone
  have hBarred : purpose.isBarred [] = false := by simp [Purpose.isBarred]
  rw [follow]
  simp only [hAt, hBarred, Nat.not_lt.2 hSize, if_false, hNone, Bool.false_eq_true,
    List.isEmpty_nil, if_true]

theorem follow_link {target : String} (hSize : name.utf8ByteSize ≤ nameLimit)
    (hBarred : purpose.isBarred rest = false)
    (hLink : tree.form? (place ++ [name]) = some (.link target))
    (hRelative : Path.isAbsolute target = false) :
    follow tree purpose (links + 1) place (.down name :: rest) =
      follow tree purpose links place (moves target ++ rest) := by
  obtain ⟨entries, hAt⟩ := form?_eq_dir_iff.1 (form?_front hLink)
  rw [form?_concat hAt] at hLink
  obtain ⟨child, hEntry, hForm⟩ := Option.map_eq_some_iff.1 hLink
  cases child with
  | link _ =>
    cases hForm
    rw [follow]
    simp only [hAt, hBarred, Nat.not_lt.2 hSize, if_false, hEntry, hRelative, Bool.false_eq_true]
  | _ => cases hForm

theorem follow_into {form : Form} (hSize : name.utf8ByteSize ≤ nameLimit)
    (hBarred : purpose.isBarred rest = false)
    (hForm : tree.form? (place ++ [name]) = some form) (hNoLink : ∀ target, form ≠ .link target) :
    follow tree purpose links place (.down name :: rest) =
      follow tree purpose links (place ++ [name]) rest := by
  obtain ⟨entries, hAt⟩ := form?_eq_dir_iff.1 (form?_front hForm)
  rw [form?_concat hAt] at hForm
  obtain ⟨child, hEntry, rfl⟩ := Option.map_eq_some_iff.1 hForm
  rw [follow]
  simp only [hAt, hBarred, Nat.not_lt.2 hSize, if_false, hEntry, Bool.false_eq_true]
  cases child with
  | link target => exact absurd rfl (hNoLink target)
  | file content => rfl
  | dir inner => rfl

end Step

/-! ## Ways as they are followed -/

theorem leads_of_follow {tree : FileTree} {purpose : Purpose} {links : Nat} {place : Place}
    {list : List Move} {spot : Spot}
    (hFollow : follow tree purpose links place list = .ok spot) :
    Leads tree purpose links place list spot := by
  fun_induction follow tree purpose links place list with
  | case1 links place =>
    cases hFollow
    exact .nil
  | case2 links place rest entries hAt ih => exact .gap (form?_eq_dir_iff.2 ⟨_, hAt⟩) (ih hFollow)
  | case3 links place rest entries hAt ih => exact .stay (form?_eq_dir_iff.2 ⟨_, hAt⟩) (ih hFollow)
  | case4 links place rest entries hAt ih => exact .up (form?_eq_dir_iff.2 ⟨_, hAt⟩) (ih hFollow)
  | case7 links place rest entries hAt name hBarred hSize hEntry hLast =>
    cases hFollow
    rw [List.isEmpty_iff.1 hLast]
    refine .vacant (form?_eq_dir_iff.2 ⟨_, hAt⟩) (Nat.not_lt.1 hSize) ?_
    rw [form?_concat hAt, hEntry]
    rfl
  | case11 place rest entries hAt name hBarred hSize target hEntry left hAbsolute ih =>
    refine .link (Nat.not_lt.1 hSize) (Bool.eq_false_iff.2 hBarred) ?_
      (Bool.eq_false_iff.2 hAbsolute) (ih hFollow)
    rw [form?_concat hAt, hEntry]
    rfl
  | case12 links place rest entries hAt name hBarred hSize child hNoLink hEntry ih =>
    refine .down (Nat.not_lt.1 hSize) (Bool.eq_false_iff.2 hBarred)
      ((form?_concat hAt name).trans (congrArg _ hEntry)) (fun target hForm => ?_) (ih hFollow)
    cases child with
    | link other => exact hNoLink other rfl
    | _ => cases hForm
  | _ => cases hFollow

/-- **The ways are those that are followed to an end.** -/
theorem follow_eq_ok_iff {tree : FileTree} {purpose : Purpose} {links : Nat} {place : Place}
    {list : List Move} {spot : Spot} :
    follow tree purpose links place list = .ok spot ↔ Leads tree purpose links place list spot := by
  refine ⟨leads_of_follow, fun hLeads => ?_⟩
  induction hLeads with
  | nil => rw [follow]
  | gap hDir _ ih => rw [follow_gap hDir, ih]
  | stay hDir _ ih => rw [follow_stay hDir, ih]
  | up hDir _ ih => rw [follow_up hDir, ih]
  | vacant hDir hSize hNone => exact follow_vacant hDir hSize hNone
  | link hSize hBarred hLink hRelative _ ih => rw [follow_link hSize hBarred hLink hRelative, ih]
  | down hSize hBarred hForm hNoLink _ ih => rw [follow_into hSize hBarred hForm hNoLink, ih]

/-- A way that begins with another one goes on from its end, with the links that are left. -/
theorem follow_append {tree : FileTree} {links : Nat} {place : Place} {front : List Move}
    {spot : Spot} (hFront : Leads tree .look links place front spot) {middle : Place}
    (hSpot : spot = .found middle) :
    ∃ left, ∀ back : List Move,
      follow tree .look links place (front ++ back) = follow tree .look left middle back := by
  induction hFront with
  | @nil links place =>
    cases hSpot
    exact ⟨links, fun _ => rfl⟩
  | gap hDir _ ih =>
    obtain ⟨left, hBack⟩ := ih hSpot
    exact ⟨left, fun back => (follow_gap hDir).trans (hBack back)⟩
  | stay hDir _ ih =>
    obtain ⟨left, hBack⟩ := ih hSpot
    exact ⟨left, fun back => (follow_stay hDir).trans (hBack back)⟩
  | up hDir _ ih =>
    obtain ⟨left, hBack⟩ := ih hSpot
    exact ⟨left, fun back => (follow_up hDir).trans (hBack back)⟩
  | vacant => cases hSpot
  | link hSize _ hLink hRelative _ ih =>
    obtain ⟨left, hBack⟩ := ih hSpot
    refine ⟨left, fun back => ?_⟩
    rw [List.cons_append, follow_link hSize (not_isBarred_look _) hLink hRelative,
      ← List.append_assoc, hBack]
  | down hSize _ hForm hNoLink _ ih =>
    obtain ⟨left, hBack⟩ := ih hSpot
    refine ⟨left, fun back => ?_⟩
    rw [List.cons_append, follow_into hSize (not_isBarred_look _) hForm hNoLink, hBack]

namespace Leads

variable {tree : FileTree} {purpose : Purpose} {links : Nat} {place : Place} {list : List Move}
  {spot : Spot}

/-! ## Where a way begins and ends -/

/-- Each step is taken from a directory. -/
theorem form?_start {move : Move} {rest : List Move}
    (hLeads : Leads tree purpose links place (move :: rest) spot) :
    tree.form? place = some .dir := by
  cases hLeads with
  | gap hDir | stay hDir | up hDir | vacant hDir => exact hDir
  | link _ _ hLink => exact form?_front hLink
  | down _ _ hForm => exact form?_front hForm


/-- A name is vacant in a directory that does not have it. -/
theorem form?_of_vacant (hLeads : Leads tree purpose links place list spot) {dir : Place}
    {name : String} (hSpot : spot = .vacant dir name) :
    tree.form? dir = some .dir ∧ tree.form? (dir ++ [name]) = none := by
  induction hLeads with
  | nil => cases hSpot
  | vacant hDir _ hNone =>
    cases hSpot
    exact ⟨hDir, hNone⟩
  | gap _ _ ih | stay _ _ ih | up _ _ ih | link _ _ _ _ _ ih | down _ _ _ _ _ ih => exact ih hSpot

/-- What is before a slash is a directory. -/
theorem form?_of_gap (hLeads : Leads tree purpose links place list spot) {front : List Move}
    (hGap : list = front ++ [.gap]) {target : Place} (hSpot : spot = .found target) :
    tree.form? target = some .dir := by
  induction hLeads generalizing front with
  | nil => simp at hGap
  | @gap links place rest spot hDir hRest ih =>
    cases front with
    | nil =>
      obtain rfl : rest = [] := by simpa using hGap
      cases hRest
      cases hSpot
      exact hDir
    | cons _ front => exact ih (List.cons.inj hGap).2 hSpot
  | stay _ _ ih | up _ _ ih | down _ _ _ _ _ ih =>
    cases front with
    | nil => simp at hGap
    | cons _ front => exact ih (List.cons.inj hGap).2 hSpot
  | vacant => cases hSpot
  | @link links place name aim rest spot _ _ _ _ _ ih =>
    cases front with
    | nil => simp at hGap
    | cons _ front =>
      have hRest : rest = front ++ [.gap] := (List.cons.inj hGap).2
      have hAll : moves aim ++ rest = (moves aim ++ front) ++ [.gap] := by
        rw [hRest, List.append_assoc]
      exact ih hAll hSpot

/-! ## Looking and making -/

theorem look (hLeads : Leads tree purpose links place list spot) :
    Leads tree .look links place list spot := by
  induction hLeads with
  | nil => exact .nil
  | gap hDir _ ih => exact .gap hDir ih
  | stay hDir _ ih => exact .stay hDir ih
  | up hDir _ ih => exact .up hDir ih
  | vacant hDir hSize hNone => exact .vacant hDir hSize hNone
  | link hSize _ hLink hRelative _ ih =>
    exact .link hSize (not_isBarred_look _) hLink hRelative ih
  | down hSize _ hForm hNoLink _ ih => exact .down hSize (not_isBarred_look _) hForm hNoLink ih

/-- No way to a file is barred: a slash at its end would ask for a directory. -/
theorem not_isBarred_make {rest front : List Move}
    (hLeads : Leads tree .look links place (front ++ rest) spot) {target : Place}
    (hSpot : spot = .found target) {content : Content}
    (hFile : tree.form? target = some (.file content)) : Purpose.make.isBarred rest = false := by
  rw [Bool.eq_false_iff]
  intro hBarred
  simp only [Purpose.isBarred, Bool.and_eq_true, Bool.not_eq_true',
    List.isEmpty_eq_false_iff] at hBarred
  obtain ⟨⟨-, hSome⟩, hGaps⟩ := hBarred
  have hLast : rest.getLast hSome = .gap := by
    have hGap := List.all_eq_true.1 hGaps _ (List.getLast_mem hSome)
    cases hMove : rest.getLast hSome <;> simp_all [Move.isGap]
  have hSplit : front ++ rest = (front ++ rest.dropLast) ++ [.gap] := by
    rw [List.append_assoc, ← hLast, List.dropLast_append_getLast]
  have hDir := hLeads.form?_of_gap hSplit hSpot
  rw [hFile] at hDir
  cases hDir

/-- Where a way ends at a file, a file may be made in its place. -/
theorem make (hLeads : Leads tree .look links place list spot) {target : Place}
    (hSpot : spot = .found target) {content : Content}
    (hFile : tree.form? target = some (.file content)) :
    Leads tree .make links place list spot := by
  induction hLeads with
  | nil => exact .nil
  | gap hDir _ ih => exact .gap hDir (ih hSpot)
  | stay hDir _ ih => exact .stay hDir (ih hSpot)
  | up hDir _ ih => exact .up hDir (ih hSpot)
  | vacant => cases hSpot
  | link hSize _ hLink hRelative hRest ih =>
    exact .link hSize (hRest.not_isBarred_make hSpot hFile) hLink hRelative (ih hSpot)
  | @down links place name _ rest spot hSize _ hForm hNoLink hRest ih =>
    have hWhole : Leads tree .look links (place ++ [name]) ([] ++ rest) spot := hRest
    exact .down hSize (hWhole.not_isBarred_make hSpot hFile) hForm hNoLink (ih hSpot)

end Leads

end FileTree

end Homonym
