import Homonym.Proofs.FileTree.Growth

/-!
# Directories that were missing

Making the directories above a path takes a path without steps up either nowhere or into a directory
that is new, and so empty (`leadsToEmpty_makeDirsWithin`). A name in it leads to nothing yet
(`LeadsToEmpty.not_found`). With steps up this fails: `new/..` leads to a directory that was there
before, once `new` is made.
-/

namespace Homonym

namespace Path

/-! ## The directory above -/

theorem split_eq_of_view {path : List Char} {lead : Lead} {body : List Piece}
    (hView : view path = ⟨lead, body⟩) :
    split path =
      match lead with
      | .plain => body
      | .root => [] :: body
      | .here => ['.'] :: body := by
  unfold view at hView
  split at hView <;> cases hView
  · assumption
  · assumption
  · rfl

theorem exists_append_of_dropVoidEnd (pieces : List Piece) :
    ∃ void, pieces = dropVoidEnd pieces ++ void ∧ ∀ p ∈ void, isVoid p = true := by
  refine ⟨(pieces.reverse.takeWhile isVoid).reverse, ?_, fun p hp => ?_⟩
  · rw [dropVoidEnd, ← List.reverse_append, List.takeWhile_append_dropWhile, List.reverse_reverse]
  · exact List.all_eq_true.1 List.all_takeWhile p (List.mem_reverse.1 hp)

/-- The pieces of a path are those of the path above it, then void ones, then the last one that is
not void. -/
theorem split_parent? {path above : String} (hParent : parent? path = some above)
    (hSome : above ≠ "") (hRelative : isAbsolute path = false) :
    ∃ void p more c, split path.toList = split above.toList ++ (void ++ p :: more) ∧
      (∀ q ∈ void, isVoid q = true) ∧ Component.ofPiece? p = some c ∧ c ∈ components path := by
  obtain ⟨lead, body, hView⟩ : ∃ lead body, view path.toList = ⟨lead, body⟩ := ⟨_, _, rfl⟩
  have hCases := components_cases path
  have hSplit := split_eq_of_view hView
  simp only [hView] at hCases
  simp only [parent?, hView] at hParent
  rcases hCases with ⟨hNone, -⟩ | ⟨front, p, c, hFront, hPiece, hPath⟩
  · rw [hNone] at hParent
    cases lead with
    | here =>
      cases hParent
      exact absurd rfl hSome
    | _ => cases hParent
  · rw [hFront] at hParent
    have hAbove : above.toList = View.text ⟨lead, dropVoidEnd front⟩ := by
      have hText : String.ofList (View.text ⟨lead, dropVoidEnd front⟩) = above := by
        simpa using hParent
      rw [← hText, String.toList_ofList]
    obtain ⟨more, hMore⟩ := hFront ▸ dropVoidEnd_isPrefix body
    obtain ⟨void, hBegin, hVoid⟩ := exists_append_of_dropVoidEnd front
    have hBody : body = dropVoidEnd front ++ (void ++ p :: more) := by
      rw [← hMore]
      conv_lhs => rw [hBegin]
      simp
    have hSlash : ∀ q ∈ dropVoidEnd front, '/' ∉ q := by
      intro q hq
      have hSuffix : body <:+ split path.toList := by simpa [hView] using body_suffix path.toList
      exact noSlash_of_mem_split (hSuffix.subset (hBody ▸ List.mem_append_left _ hq))
    refine ⟨void, p, more, c, ?_, hVoid, hPiece, by simp [hPath]⟩
    cases lead with
    | plain =>
      have hNonempty : dropVoidEnd front ≠ [] := by
        intro hNil
        rw [hNil] at hAbove
        exact hSome (String.toList_eq_nil_iff.1 hAbove)
      rw [hSplit, hAbove, View.text, split_unsplit hNonempty hSlash]
      exact hBody
    | here =>
      have hDot : ∀ q ∈ ['.'] :: dropVoidEnd front, '/' ∉ q := by simpa using hSlash
      rw [hSplit, hAbove, View.text, split_unsplit (List.cons_ne_nil _ _) hDot]
      exact congrArg (['.'] :: ·) hBody
    | root =>
      rw [isAbsolute_of_lead (by rw [hView])] at hRelative
      cases hRelative

theorem split_slashes {slashes : List Char} (hSlashes : ∀ c ∈ slashes, c = '/') :
    split slashes = [] :: slashes.map fun _ => [] := by
  induction slashes with
  | nil => rfl
  | cons c rest ih =>
    obtain ⟨rfl, hRest⟩ := List.forall_mem_cons.1 hSlashes
    have hStep : split ('/' :: rest) = split [] ++ split rest := split_append_slash [] rest
    rw [hStep, ih hRest]
    rfl

/-- Slashes behind a path add empty pieces. -/
theorem split_append_slashes (path : List Char) {slashes : List Char}
    (hSlashes : ∀ c ∈ slashes, c = '/') :
    split (path ++ slashes) = split path ++ slashes.map fun _ => [] := by
  cases slashes with
  | nil => simp
  | cons c rest =>
    obtain ⟨rfl, hRest⟩ := List.forall_mem_cons.1 hSlashes
    rw [split_append_slash, split_slashes hRest]
    rfl

end Path

/-! ## Moves -/

/-- The move stays where it is. -/
def Move.IsIdle (move : Move) : Prop :=
  move = .gap ∨ move = .stay

theorem Move.isIdle_of_isVoid {p : Path.Piece} (hVoid : Path.isVoid p = true) :
    (Move.ofPiece p).IsIdle := by
  simp only [Path.isVoid, Bool.or_eq_true, beq_iff_eq] at hVoid
  rcases hVoid with rfl | rfl
  · exact .inl rfl
  · exact .inr rfl

theorem Move.ofPiece_eq_down {p : Path.Piece} {c : Path.Component}
    (hPiece : Path.Component.ofPiece? p = some c) (hUp : c ≠ .up) :
    ∃ name, Move.ofPiece p = .down name := by
  rw [Path.Component.ofPiece?] at hPiece
  split at hPiece
  · cases hPiece
  · rename_i hVoid
    split at hPiece
    · cases hPiece
      exact absurd rfl hUp
    · rename_i hNotUp
      simp only [Path.isVoid, Bool.or_eq_true, beq_iff_eq, not_or] at hVoid
      exact ⟨_, by rw [Move.ofPiece, if_neg hVoid.1, if_neg hVoid.2, if_neg hNotUp]⟩

namespace FileTree

variable {tree : FileTree}

/-- Slashes at the end of a path change nothing in a directory. -/
theorem moves_trimSlashes (path : String) :
    ∃ gaps, moves path = moves (trimSlashes path) ++ gaps ∧ ∀ move ∈ gaps, Move.IsIdle move := by
  obtain ⟨slashes, hText, hSlashes⟩ : ∃ slashes : List Char,
      path.toList = (trimSlashes path).toList ++ slashes ∧ ∀ c ∈ slashes, c = '/' := by
    refine ⟨(path.toList.reverse.takeWhile (· == '/')).reverse, ?_, fun c hMem => ?_⟩
    · rw [trimSlashes, String.toList_ofList, ← List.reverse_append,
        List.takeWhile_append_dropWhile, List.reverse_reverse]
    · exact eq_of_beq (List.all_eq_true.1 List.all_takeWhile c (List.mem_reverse.1 hMem))
  refine ⟨slashes.map fun _ => .gap, ?_, fun move hMem => ?_⟩
  · rw [moves, hText, Path.split_append_slashes _ hSlashes, List.map_append, List.map_map]
    rfl
  · obtain ⟨-, -, rfl⟩ := List.mem_map.1 hMem
    exact .inl rfl

theorem follow_idle {links : Nat} {place : Place} (hDir : tree.form? place = some .dir)
    {idle : List Move} (hIdle : ∀ move ∈ idle, Move.IsIdle move) (rest : List Move) :
    follow tree .look links place (idle ++ rest) = follow tree .look links place rest := by
  induction idle with
  | nil => rfl
  | cons move idle ih =>
    obtain ⟨hMove, hLater⟩ := List.forall_mem_cons.1 hIdle
    rcases hMove with rfl | rfl
    · exact (follow_gap hDir).trans (ih hLater)
    · exact (follow_stay hDir).trans (ih hLater)

/-! ## Empty directories -/

/-- The path leads to a directory without entries. -/
def LeadsToEmpty (tree : FileTree) (path : String) : Prop :=
  ∃ place, Leads tree .look linkLimit [] (moves path) (.found place) ∧
    tree.form? place = some .dir ∧ ∀ name, tree.form? (place ++ [name]) = none

/-- Nothing is found in an empty directory. -/
theorem LeadsToEmpty.not_found {path above : String} (hEmpty : tree.LeadsToEmpty above)
    (hParent : Path.parent? path = some above) (hSome : above ≠ "")
    (hUp : .up ∉ Path.components path) (place : Place) :
    tree.resolve .look path ≠ .ok (.found place) := by
  intro hResolve
  obtain ⟨-, hRelative, hLeads⟩ := resolve_eq_ok_iff.1 hResolve
  obtain ⟨dir, hAbove, hDir, hNone⟩ := hEmpty
  obtain ⟨void, p, more, c, hSplit, hVoid, hPiece, hMem⟩ :=
    Path.split_parent? hParent hSome hRelative
  obtain ⟨name, hName⟩ := Move.ofPiece_eq_down hPiece fun hEq => hUp (hEq ▸ hMem)
  have hIdle : ∀ move ∈ void.map Move.ofPiece, Move.IsIdle move := by
    intro move hMove
    obtain ⟨q, hq, rfl⟩ := List.mem_map.1 hMove
    exact Move.isIdle_of_isVoid (hVoid q hq)
  have hMoves : moves path =
      moves above ++ (void.map Move.ofPiece ++ .down name :: more.map Move.ofPiece) := by
    rw [moves, hSplit, List.map_append, List.map_append, List.map_cons, hName]
    rfl
  obtain ⟨left, hBack⟩ := follow_append hAbove rfl
  rw [hMoves, ← follow_eq_ok_iff, hBack, follow_idle hDir hIdle, follow_eq_ok_iff] at hLeads
  generalize more.map Move.ofPiece = rest at hLeads
  -- The next step is down to a name that the directory does not have.
  cases hLeads with
  | link _ _ hLink => rw [hNone] at hLink; cases hLink
  | down _ _ hForm => rw [hNone] at hForm; cases hForm

theorem resolveParent_cases {path name : String} {place : Place}
    (hParent : tree.resolveParent path = .ok (place, .down name)) :
    ∃ front, moves path = front ++ [.down name] ∧ name.utf8ByteSize ≤ nameLimit ∧
      Leads tree .look linkLimit [] front (.found place) := by
  rw [resolveParent] at hParent
  split at hParent
  · cases hParent
  · split at hParent
    · cases hParent
    · simp only at hParent
      split at hParent
      · cases hParent
      · cases hParent
      · rename_i found hFollow
        have hMoves : moves path ≠ [] := by simp [moves, Path.split_ne_nil]
        obtain ⟨front, last, hSplit⟩ := (List.eq_nil_or_concat' (moves path)).resolve_left hMoves
        rw [hSplit, List.dropLast_concat, follow_eq_ok_iff] at hFollow
        rw [hSplit, List.getLast?_concat, Option.getD_some] at hParent
        split at hParent
        · rename_i hAt
          split at hParent
          · cases hParent
          · rename_i hSize
            cases hParent
            exact ⟨front, hSplit, Nat.not_lt.1 hSize, hFollow⟩
        · rename_i hNotDown
          cases hParent
          exact absurd rfl (hNotDown name)
        · cases hParent

/-- A directory that was made is empty. -/
theorem leadsToEmpty_makeDir {path : String} {made : FileTree}
    (hMake : tree.makeDir path = .ok made) : made.LeadsToEmpty path := by
  have hGrows := (gainsDirs_makeDir hMake).growsTo
  obtain ⟨dir, name, hParent, hDir, hNone, rfl⟩ := makeDir_cases hMake
  obtain ⟨front, hFront, hSize, hLeads⟩ := resolveParent_cases hParent
  obtain ⟨gaps, hMoves, hGaps⟩ := moves_trimSlashes path
  have hMade : form? (tree.insert dir name (.dir [])) (dir ++ [name]) = some .dir :=
    form?_insert_under hDir name _ []
  refine ⟨dir ++ [name], ?_, hMade, fun child => ?_⟩
  · obtain ⟨left, hBack⟩ := follow_append (hLeads.grow hGrows nofun) rfl
    rw [hMoves, hFront, List.append_assoc, List.singleton_append, ← follow_eq_ok_iff, hBack,
      Spot.place, follow_into hSize (not_isBarred_look _) hMade nofun, ← List.append_nil gaps,
      follow_idle hMade hGaps, follow]
  · rw [List.append_assoc, List.singleton_append, form?_insert_under hDir]
    rfl

/-- **Without steps up, directories that are made lead into a new one, or none is made.** -/
theorem leadsToEmpty_makeDirsWithin (bound : Nat) (tree : FileTree) (path : String)
    (hUp : .up ∉ Path.components path) {room : FileTree}
    (hMake : makeDirsWithin bound tree path = (.ok (), room)) :
    room = tree ∨ room.LeadsToEmpty path := by
  fun_induction makeDirsWithin bound tree path with
  | case2 bound tree path hEmpty =>
    cases hMake
    exact .inl rfl
  | case3 bound tree path hSome made hMade =>
    cases hMake
    exact .inr (leadsToEmpty_makeDir hMade)
  | case6 bound tree path hSome hMissing parent hParent above hAbove made hMade ih =>
    cases hMake
    exact .inr (leadsToEmpty_makeDir hMade)
  | case7 bound tree path hSome hMissing parent hParent above hAbove e hMade ih =>
    obtain ⟨hDir, rfl⟩ : above.isDir path = true ∧ above = room := by
      split at hMake <;> cases hMake
      exact ⟨‹_›, rfl⟩
    have hUpAbove : .up ∉ Path.components parent := by
      rw [Path.components_parent? hParent]
      exact fun hMem => hUp ((List.dropLast_sublist _).subset hMem)
    by_cases hTop : parent = ""
    · subst hTop
      cases bound <;> cases hAbove
      exact .inl rfl
    · refine (ih hUpAbove hAbove).imp_right fun hEmpty => ?_
      -- The path would be in an empty directory, and so no directory itself.
      obtain ⟨place, hResolve, -⟩ := isDir_eq_true_iff.1 hDir
      exact absurd hResolve (hEmpty.not_found hParent hTop hUp place)
  | case8 bound tree path hSome e hNotMissing hMade =>
    split at hMake <;> cases hMake
    exact .inl rfl
  | _ => cases hMake

end FileTree

end Homonym
