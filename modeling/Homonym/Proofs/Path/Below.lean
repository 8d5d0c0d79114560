import Mathlib.Data.List.Basic
import Homonym.Path

/-!
# Paths below a root

A place below a root is reached by joining its names to the root, one after the other. Seen from the
root, the path that comes out is the names with slashes between them, however the root is spelled
(`relative_below`). The empty pieces and dots of its spelling are void, and taking the components
of the root off the path takes them off as well (`relative_of_view`).
-/

namespace Homonym.Path

/-- The text can be one step down a path. -/
def isName (name : String) : Bool :=
  !isVoid name.toList && name.toList != ['.', '.'] && !name.toList.contains '/'

/-- The path of a place below a root. -/
def below (root : String) (names : List String) : String :=
  names.foldl join root

/-! ## Pieces -/

theorem split_ne_nil (path : List Char) : split path ≠ [] := by
  cases path with
  | nil => simp [split, Text.splitAt]
  | cons c rest =>
    rw [split, Text.splitAt]
    split
    · simp
    · cases Text.splitAt '/' rest <;> simp [Text.consFirst]

theorem consFirst_append {pieces : List Piece} (hSome : pieces ≠ []) (c : Char)
    (more : List Piece) :
    Text.consFirst c (pieces ++ more) = Text.consFirst c pieces ++ more := by
  obtain ⟨piece, rest, rfl⟩ := List.exists_cons_of_ne_nil hSome
  rfl

theorem split_append_slash (a b : List Char) : split (a ++ '/' :: b) = split a ++ split b := by
  induction a with
  | nil => simp [split, Text.splitAt]
  | cons c rest ih =>
    simp only [split] at ih ⊢
    by_cases hSlash : c = '/'
    · simp [Text.splitAt, hSlash, ih]
    · simp only [List.cons_append, Text.splitAt, if_neg hSlash, ih]
      exact consFirst_append (split_ne_nil rest) c _

theorem split_of_noSlash {piece : List Char} (hSlash : '/' ∉ piece) : split piece = [piece] := by
  induction piece with
  | nil => rfl
  | cons c rest ih =>
    simp only [List.mem_cons, not_or] at hSlash
    rw [split, Text.splitAt, if_neg (Ne.symm hSlash.1), ← split, ih hSlash.2, Text.consFirst]

theorem eq_nil_of_split {path : List Char} (hSplit : split path = [[]]) : path = [] := by
  cases path with
  | nil => rfl
  | cons c rest =>
    rw [split, Text.splitAt] at hSplit
    split at hSplit
    · exact absurd (List.cons.inj hSplit).2 (split_ne_nil rest)
    · cases hRest : Text.splitAt '/' rest <;> simp [hRest, Text.consFirst] at hSplit

theorem noSlash_of_mem_split {path : List Char} {piece : Piece} (hMem : piece ∈ split path) :
    '/' ∉ piece := by
  induction path generalizing piece with
  | nil =>
    simp only [split, Text.splitAt, List.mem_singleton] at hMem
    simp [hMem]
  | cons c rest ih =>
    simp only [split] at hMem ih
    rw [Text.splitAt] at hMem
    split at hMem
    · rcases List.mem_cons.1 hMem with rfl | hMem
      · simp
      · exact ih hMem
    · rename_i hSlash
      obtain ⟨first, more, hRest⟩ := List.exists_cons_of_ne_nil (split_ne_nil rest)
      rw [split] at hRest
      rw [hRest, Text.consFirst] at hMem
      rcases List.mem_cons.1 hMem with rfl | hMem
      · have hFirst := ih (hRest ▸ List.mem_cons_self)
        simp [hFirst, Ne.symm hSlash]
      · exact ih (hRest ▸ List.mem_cons_of_mem _ hMem)

theorem split_unsplit {pieces : List Piece} (hSome : pieces ≠ [])
    (hSlash : ∀ p ∈ pieces, '/' ∉ p) : split (unsplit pieces) = pieces := by
  induction pieces with
  | nil => exact absurd rfl hSome
  | cons p rest ih =>
    have hFirst : split p = [p] := split_of_noSlash (hSlash p List.mem_cons_self)
    cases rest with
    | nil => exact hFirst
    | cons q more =>
      rw [unsplit, split_append_slash, hFirst,
        ih (by simp) fun r hr => hSlash r (List.mem_cons_of_mem _ hr)]
      · rfl
      · simp

theorem unsplit_cons (p : Piece) {pieces : List Piece} (hSome : pieces ≠ []) :
    unsplit (p :: pieces) = p ++ '/' :: unsplit pieces := by
  obtain ⟨q, more, rfl⟩ := List.exists_cons_of_ne_nil hSome
  rfl

theorem unsplit_consFirst (c : Char) {pieces : List Piece} (hSome : pieces ≠ []) :
    unsplit (Text.consFirst c pieces) = c :: unsplit pieces := by
  obtain ⟨p, more, rfl⟩ := List.exists_cons_of_ne_nil hSome
  cases more <;> rfl

/-- The pieces of a path make up the path. -/
theorem unsplit_split (path : List Char) : unsplit (split path) = path := by
  induction path with
  | nil => rfl
  | cons c rest ih =>
    have hSome : Text.splitAt '/' rest ≠ [] := split_ne_nil rest
    rw [split] at ih
    rw [split, Text.splitAt]
    split
    · next hSlash => rw [unsplit_cons [] hSome, ih, hSlash, List.nil_append]
    · rw [unsplit_consFirst c hSome, ih]

theorem unsplit_append {front back : List Piece} (hFront : front ≠ []) (hBack : back ≠ []) :
    unsplit (front ++ back) = unsplit front ++ '/' :: unsplit back := by
  induction front with
  | nil => exact absurd rfl hFront
  | cons p front ih =>
    rw [List.cons_append, unsplit_cons p (List.append_ne_nil_of_right_ne_nil front hBack)]
    cases front with
    | nil => rfl
    | cons q more =>
      rw [ih (by simp), unsplit_cons p (by simp), List.append_assoc, List.cons_append]

theorem ofPiece?_of_isVoid {p : Piece} (hVoid : isVoid p = true) :
    Component.ofPiece? p = none :=
  if_pos hVoid

theorem filterMap_of_void {pieces : List Piece} (hVoid : ∀ p ∈ pieces, isVoid p = true) :
    pieces.filterMap Component.ofPiece? = [] :=
  List.filterMap_eq_nil_iff.2 fun p hp => ofPiece?_of_isVoid (hVoid p hp)

/-! ## What is left behind a root -/

/-- Taking off the components of some pieces takes off the pieces, but for void ones at their
end. -/
theorem takeOff_append (body rest : List Piece) :
    ∃ void, (∀ p ∈ void, isVoid p = true) ∧
      takeOff (body.filterMap Component.ofPiece?) (body ++ rest) = some (void ++ rest) := by
  induction body with
  | nil => exact ⟨[], by simp, by simp [takeOff]⟩
  | cons p more ih =>
    obtain ⟨void, hVoid, hTaken⟩ := ih
    rw [List.filterMap_cons, List.cons_append]
    cases hPiece : Component.ofPiece? p with
    | some c => exact ⟨void, hVoid, by simp only [takeOff, hPiece, if_true, hTaken]⟩
    | none =>
      have hFirst : isVoid p = true := by
        by_contra hName
        simp only [Component.ofPiece?, hName, if_false] at hPiece
        split at hPiece <;> cases hPiece
      -- A void piece is taken off only in front of a component that is still wanted.
      cases hMore : more.filterMap Component.ofPiece? with
      | cons c cs =>
        refine ⟨void, hVoid, ?_⟩
        rw [hMore] at hTaken
        simp only [takeOff, hPiece, hTaken]
      | nil =>
        rw [hMore] at hTaken
        refine ⟨p :: void, ?_, ?_⟩
        · simpa [hFirst] using hVoid
        · simp only [takeOff, Option.some.injEq] at hTaken ⊢
          rw [hTaken, List.cons_append]

/-- What a path is as seen from a root, if its pieces are divided where the root ends. -/
theorem relative_of_view {root path : String} {lead : Lead} {body rest : List Piece}
    (hView : view path.toList = ⟨lead, body ++ rest⟩)
    (hRoot : components root = lead.components ++ body.filterMap Component.ofPiece?)
    (hSome : components root ≠ []) :
    relative root path = String.ofList (unsplit (dropVoidEnd (dropVoid rest))) := by
  obtain ⟨void, hVoid, hTaken⟩ := takeOff_append body rest
  have hDrop : dropVoid (void ++ rest) = dropVoid rest :=
    List.dropWhile_append_of_pos hVoid
  rw [relative, behind?]
  cases lead with
  | plain =>
    simp only [Lead.components, List.nil_append] at hRoot
    obtain ⟨c, cs, hCons⟩ := List.exists_cons_of_ne_nil hSome
    rw [hRoot] at hCons
    simp only [hView, hRoot, hCons, Lead.components]
    rw [← hCons, hTaken, Option.map_some, hDrop]
    rfl
  | root =>
    simp only [Lead.components, List.singleton_append] at hRoot
    simp only [hView, hRoot, Lead.components, if_true, hTaken, Option.map_some, hDrop]
    rfl
  | here =>
    simp only [Lead.components, List.singleton_append] at hRoot
    simp only [hView, hRoot, Lead.components, if_true, hTaken, Option.map_some, hDrop]
    rfl

/-! ## Names -/

theorem isName_iff {name : String} :
    isName name = true ↔
      isVoid name.toList = false ∧ name.toList ≠ ['.', '.'] ∧ '/' ∉ name.toList := by
  simp [isName, and_assoc]

theorem ofPiece?_name {name : String} (hName : isName name = true) :
    Component.ofPiece? name.toList = some (.name name) := by
  obtain ⟨hVoid, hUp, -⟩ := isName_iff.1 hName
  rw [Component.ofPiece?, if_neg (by simp [hVoid]), if_neg hUp, String.ofList_toList]

theorem filterMap_names {names : List String} (hNames : ∀ n ∈ names, isName n = true) :
    (names.map String.toList).filterMap Component.ofPiece? = names.map .name := by
  rw [List.filterMap_map, ← List.filterMap_eq_map]
  exact List.filterMap_congr fun n hn => ofPiece?_name (hNames n hn)

theorem isAbsolute_name {name : String} (hName : isName name = true) : isAbsolute name = false := by
  obtain ⟨-, -, hSlash⟩ := isName_iff.1 hName
  rw [isAbsolute]
  cases hText : name.toList with
  | nil => rfl
  | cons c rest =>
    rw [hText, List.mem_cons, not_or] at hSlash
    simpa using Ne.symm hSlash.1

/-- A path without the slash at its end, if there is one. -/
def unslashed (path : List Char) : List Char :=
  if path.getLast? = some '/' then path.dropLast else path

theorem toList_join {base name : String} (hBase : base ≠ "") (hName : isName name = true) :
    (join base name).toList = unslashed base.toList ++ '/' :: name.toList := by
  have hEmpty : base.isEmpty = false := by simpa using hBase
  rw [join, isAbsolute_name hName, hEmpty, Bool.or_false, if_neg (by simp), unslashed]
  by_cases hLast : base.toList.getLast? = some '/'
  · obtain ⟨front, hFront⟩ := List.getLast?_eq_some_iff.1 hLast
    simp [hFront]
  · simp [hLast]

theorem ne_empty_of_isName {name : String} (hName : isName name = true) : name ≠ "" := by
  rintro rfl
  cases hName

theorem unslashed_name {name : String} (hName : isName name = true) :
    unslashed name.toList = name.toList :=
  if_neg fun hLast => (isName_iff.1 hName).2.2 (List.mem_of_getLast? hLast)

theorem toList_join_name {name child : String} (hName : isName name = true)
    (hChild : isName child = true) :
    (join name child).toList = name.toList ++ '/' :: child.toList := by
  rw [toList_join (ne_empty_of_isName hName) hChild, unslashed_name hName]

theorem unslashed_join {base name : String} (hBase : base ≠ "") (hName : isName name = true) :
    unslashed (join base name).toList = (join base name).toList := by
  obtain ⟨hVoid, -, hSlash⟩ := isName_iff.1 hName
  refine if_neg fun hLast => hSlash ?_
  have hText : name.toList ≠ [] := by
    intro hNil
    rw [hNil] at hVoid
    cases hVoid
  rw [toList_join hBase hName, List.getLast?_append_cons, List.getLast?_cons_of_ne_nil hText]
    at hLast
  exact List.mem_of_getLast? hLast

theorem join_ne_empty {base name : String} (hBase : base ≠ "") (hName : isName name = true) :
    join base name ≠ "" := by
  intro hEmpty
  have hText := congrArg String.toList hEmpty
  rw [toList_join hBase hName] at hText
  simp at hText

/-- The pieces of a path below a root. -/
theorem split_unslashed_below {root : String} {names : List String} (hRoot : root ≠ "")
    (hNames : ∀ n ∈ names, isName n = true) :
    split (unslashed (below root names).toList) =
      split (unslashed root.toList) ++ names.map String.toList := by
  induction names generalizing root with
  | nil => simp [below]
  | cons name rest ih =>
    have hName : isName name = true := hNames name List.mem_cons_self
    have hSplit : split name.toList = [name.toList] := split_of_noSlash (isName_iff.1 hName).2.2
    have hBelow : below root (name :: rest) = below (join root name) rest := rfl
    rw [hBelow, ih (join_ne_empty hRoot hName) fun n hn => hNames n (List.mem_cons_of_mem _ hn),
      unslashed_join hRoot hName, toList_join hRoot hName, split_append_slash, hSplit,
      List.append_assoc]
    rfl

theorem unslashed_below {root : String} {names : List String} (hRoot : root ≠ "")
    (hSome : names ≠ []) (hNames : ∀ n ∈ names, isName n = true) :
    unslashed (below root names).toList = (below root names).toList := by
  induction names generalizing root with
  | nil => exact absurd rfl hSome
  | cons name rest ih =>
    have hName : isName name = true := hNames name List.mem_cons_self
    cases rest with
    | nil => exact unslashed_join hRoot hName
    | cons next more =>
      exact ih (join_ne_empty hRoot hName) (by simp) fun n hn =>
        hNames n (List.mem_cons_of_mem _ hn)

/-! ## Views -/

/-- The view of pieces that have others behind them. -/
def frontView : List Piece → View
  | [] :: rest => ⟨.root, rest⟩
  | ['.'] :: rest => ⟨.here, rest⟩
  | pieces => ⟨.plain, pieces⟩

theorem frontView_plain {p : Piece} (hEmpty : p ≠ []) (hDot : p ≠ ['.']) (rest : List Piece) :
    frontView (p :: rest) = ⟨.plain, p :: rest⟩ := by
  unfold frontView
  split <;> simp_all

theorem view_plain {path : List Char} {p : Piece} {rest : List Piece} (hEmpty : p ≠ [])
    (hDot : p ≠ ['.']) (hSplit : split path = p :: rest) : view path = ⟨.plain, p :: rest⟩ := by
  unfold view
  split <;> simp_all

theorem view_of_split {path : List Char} {front back : List Piece} (hFront : front ≠ [])
    (hBack : back ≠ []) (hSplit : split path = front ++ back) :
    view path = ⟨(frontView front).lead, (frontView front).body ++ back⟩ := by
  obtain ⟨p, rest, rfl⟩ := List.exists_cons_of_ne_nil hFront
  by_cases hEmpty : p = []
  · obtain ⟨q, more, hMore⟩ := List.exists_cons_of_ne_nil (l := rest ++ back) (by simp [hBack])
    simp [view, hSplit, hEmpty, frontView, hMore]
  by_cases hDot : p = ['.']
  · simp [view, hSplit, hDot, frontView]
  · rw [view_plain hEmpty hDot hSplit, frontView_plain hEmpty hDot]
    rfl

theorem view_unslashed {root : String} (hRoot : root ≠ "") :
    ∃ void, (∀ p ∈ void, isVoid p = true) ∧
      view root.toList = ⟨(frontView (split (unslashed root.toList))).lead,
        (frontView (split (unslashed root.toList))).body ++ void⟩ := by
  by_cases hLast : root.toList.getLast? = some '/'
  · obtain ⟨front, hText⟩ := List.getLast?_eq_some_iff.1 hLast
    have hUnslashed : unslashed root.toList = front := by
      rw [unslashed, if_pos hLast, hText, List.dropLast_concat]
    have hSplit : split root.toList = split front ++ [[]] := by
      rw [hText, split_append_slash]
      rfl
    refine ⟨[[]], by simp [isVoid], ?_⟩
    rw [hUnslashed]
    exact view_of_split (split_ne_nil front) (by simp) hSplit
  · have hUnslashed : unslashed root.toList = root.toList := if_neg hLast
    rw [hUnslashed]
    refine ⟨[], by simp, ?_⟩
    obtain ⟨p, rest, hSplit⟩ := List.exists_cons_of_ne_nil (split_ne_nil root.toList)
    rw [hSplit, List.append_nil]
    by_cases hEmpty : p = []
    · -- A path whose first piece is empty has a second one, or is empty itself.
      cases rest with
      | nil =>
        rw [hEmpty] at hSplit
        exact absurd (String.toList_eq_nil_iff.1 (eq_nil_of_split hSplit)) hRoot
      | cons q more => simp [view, hSplit, hEmpty, frontView]
    by_cases hDot : p = ['.']
    · simp [view, hSplit, hDot, frontView]
    · rw [view_plain hEmpty hDot hSplit, frontView_plain hEmpty hDot]

theorem components_unslashed {root : String} (hRoot : root ≠ "") :
    components root = (frontView (split (unslashed root.toList))).lead.components ++
      (frontView (split (unslashed root.toList))).body.filterMap Component.ofPiece? := by
  obtain ⟨void, hVoid, hView⟩ := view_unslashed hRoot
  simp only [components, hView, List.filterMap_append, filterMap_of_void hVoid, List.append_nil]

theorem components_ne_nil {root : String} (hRoot : root ≠ "") : components root ≠ [] := by
  rw [components_unslashed hRoot]
  obtain ⟨p, rest, hSplit⟩ := List.exists_cons_of_ne_nil (split_ne_nil (unslashed root.toList))
  rw [hSplit]
  by_cases hEmpty : p = []
  · simp [hEmpty, frontView, Lead.components]
  by_cases hDot : p = ['.']
  · simp [hDot, frontView, Lead.components]
  · rw [frontView_plain hEmpty hDot]
    by_cases hUp : p = ['.', '.']
    · simp [Component.ofPiece?, isVoid, hUp]
    · simp [Component.ofPiece?, isVoid, hEmpty, hDot, hUp]

theorem view_below {root : String} {names : List String} (hRoot : root ≠ "") (hSome : names ≠ [])
    (hNames : ∀ n ∈ names, isName n = true) :
    view (below root names).toList =
      ⟨(frontView (split (unslashed root.toList))).lead,
        (frontView (split (unslashed root.toList))).body ++ names.map String.toList⟩ := by
  refine view_of_split (split_ne_nil _) (by simpa using hSome) ?_
  rw [← unslashed_below hRoot hSome hNames]
  exact split_unslashed_below hRoot hNames

/-! ## Paths below a root -/

theorem dropVoid_names {names : List String} (hNames : ∀ n ∈ names, isName n = true) :
    dropVoid (names.map String.toList) = names.map String.toList := by
  cases names with
  | nil => rfl
  | cons name rest =>
    have hVoid := (isName_iff.1 (hNames name List.mem_cons_self)).1
    simp [dropVoid, hVoid]

theorem dropVoidEnd_names {names : List String} (hNames : ∀ n ∈ names, isName n = true) :
    dropVoidEnd (names.map String.toList) = names.map String.toList := by
  have hReverse : ∀ n ∈ names.reverse, isName n = true := fun n hn =>
    hNames n (List.mem_reverse.1 hn)
  rw [dropVoidEnd, ← List.map_reverse, ← dropVoid, dropVoid_names hReverse, List.map_reverse,
    List.reverse_reverse]

theorem unsplit_eq_intercalate (pieces : List Piece) :
    unsplit pieces = List.intercalate ['/'] pieces := by
  induction pieces with
  | nil => rfl
  | cons p rest ih =>
    cases rest with
    | nil => simp [unsplit]
    | cons q more => simp [unsplit, ih]

theorem toList_intercalate (names : List String) :
    ("/".intercalate names).toList = unsplit (names.map String.toList) := by
  rw [unsplit_eq_intercalate, String.toList_intercalate]
  rfl

theorem toList_intercalate_cons (first next : String) (rest : List String) :
    ("/".intercalate (first :: next :: rest)).toList =
      first.toList ++ '/' :: ("/".intercalate (next :: rest)).toList := by
  simp [String.toList_intercalate, List.intercalate]

theorem toList_intercalate_append {front back : List String} (hFront : front ≠ [])
    (hBack : back ≠ []) :
    ("/".intercalate (front ++ back)).toList =
      ("/".intercalate front).toList ++ '/' :: ("/".intercalate back).toList := by
  rw [toList_intercalate, toList_intercalate, toList_intercalate, List.map_append,
    unsplit_append (by simpa using hFront) (by simpa using hBack)]

/-- A path of names begins with no slash. -/
theorem head?_intercalate {name : String} (hName : isName name = true) (rest : List String) :
    ("/".intercalate (name :: rest)).toList.head? ≠ some '/' := by
  obtain ⟨-, -, hSlash⟩ := isName_iff.1 hName
  obtain ⟨c, more, hChars⟩ := List.exists_cons_of_ne_nil fun hNone =>
    ne_empty_of_isName hName (String.toList_eq_nil_iff.1 hNone)
  have hFirst : c ≠ '/' := fun hEq => hSlash (hChars ▸ hEq ▸ List.mem_cons_self)
  cases rest with
  | nil =>
    have hText : "/".intercalate [name] = name := rfl
    simpa [hText, hChars] using hFirst
  | cons next rest => simpa [toList_intercalate_cons, hChars] using hFirst

/-- The pieces of a path of names are the names. -/
theorem split_intercalate {names : List String} (hSome : names ≠ [])
    (hNames : ∀ n ∈ names, isName n = true) :
    split ("/".intercalate names).toList = names.map String.toList := by
  rw [toList_intercalate]
  refine split_unsplit (by simpa using hSome) fun piece hMem => ?_
  obtain ⟨name, hName, rfl⟩ := List.mem_map.1 hMem
  exact (isName_iff.1 (hNames name hName)).2.2

/-- A path of names tells the names. -/
theorem intercalate_inj {a b : List String} (ha : a ≠ []) (hb : b ≠ [])
    (hNames : ∀ name ∈ a, isName name = true) (hOthers : ∀ name ∈ b, isName name = true)
    (hSame : "/".intercalate a = "/".intercalate b) : a = b := by
  have hPieces := split_intercalate ha hNames
  rw [hSame, split_intercalate hb hOthers] at hPieces
  exact (List.map_injective_iff.2 (fun _ _ => String.toList_injective) hPieces).symm

/-- **A path below a root, as seen from the root.** -/
theorem relative_below {root : String} {names : List String} (hRoot : root ≠ "")
    (hSome : names ≠ []) (hNames : ∀ n ∈ names, isName n = true) :
    relative root (below root names) = "/".intercalate names := by
  rw [relative_of_view (view_below hRoot hSome hNames) (components_unslashed hRoot)
    (components_ne_nil hRoot), dropVoid_names hNames, dropVoidEnd_names hNames,
    ← toList_intercalate, String.ofList_toList]

theorem components_below {root : String} {names : List String} (hRoot : root ≠ "")
    (hNames : ∀ n ∈ names, isName n = true) :
    components (below root names) = components root ++ names.map .name := by
  cases names with
  | nil => simp [below]
  | cons name rest =>
    rw [components, view_below hRoot (by simp) hNames, components_unslashed hRoot]
    simp only [List.filterMap_append, filterMap_names hNames, List.append_assoc]

/-- A path that has the components of a root is empty as seen from it. -/
theorem relative_of_components {root path : String} (hRoot : root ≠ "")
    (hSame : components path = components root) : relative root path = "" := by
  have hView : view path.toList = ⟨(view path.toList).lead, (view path.toList).body ++ []⟩ := by
    simp
  rw [relative_of_view hView hSame.symm (components_ne_nil hRoot)]
  rfl

/-! ## The directory above -/

theorem filterMap_dropVoidEnd (pieces : List Piece) :
    (dropVoidEnd pieces).filterMap Component.ofPiece? =
      pieces.filterMap Component.ofPiece? := by
  have hEnd : pieces = dropVoidEnd pieces ++ (pieces.reverse.takeWhile isVoid).reverse := by
    rw [dropVoidEnd, ← List.reverse_append, List.takeWhile_append_dropWhile, List.reverse_reverse]
  have hVoid : ∀ p ∈ (pieces.reverse.takeWhile isVoid).reverse, isVoid p = true := fun p hp =>
    List.all_eq_true.1 List.all_takeWhile p (List.mem_reverse.1 hp)
  conv_rhs => rw [hEnd, List.filterMap_append, filterMap_of_void hVoid, List.append_nil]

/-- The components of a view's text, unless a plain view begins with a void piece. -/
theorem components_text {lead : Lead} {body : List Piece} (hSlash : ∀ p ∈ body, '/' ∉ p)
    (hPlain : lead = .plain → ∀ p ∈ body.head?, isVoid p = false) :
    components (String.ofList (View.text ⟨lead, body⟩)) =
      lead.components ++ body.filterMap Component.ofPiece? := by
  rw [components, String.toList_ofList]
  cases lead with
  | plain =>
    cases body with
    | nil => rfl
    | cons p rest =>
      have hVoid : isVoid p = false := hPlain rfl p (by simp)
      have hEmpty : p ≠ [] := by rintro rfl; cases hVoid
      have hDot : p ≠ ['.'] := by rintro rfl; cases hVoid
      rw [View.text, view_plain hEmpty hDot (split_unsplit (by simp) hSlash)]
  | root =>
    have hSplit : split ('/' :: unsplit body) = [] :: split (unsplit body) :=
      split_append_slash [] (unsplit body)
    cases body with
    | nil => rfl
    | cons p rest =>
      rw [split_unsplit (by simp) hSlash] at hSplit
      simp only [View.text, view, hSplit]
  | here =>
    have hSplit : split (unsplit (['.'] :: body)) = ['.'] :: body :=
      split_unsplit (by simp) (by simpa using hSlash)
    simp only [View.text, view, hSplit]

theorem dropVoidEnd_isPrefix (pieces : List Piece) : dropVoidEnd pieces <+: pieces := by
  have hSuffix : pieces.reverse.dropWhile isVoid <:+ pieces.reverse := List.dropWhile_suffix _
  simpa [dropVoidEnd] using List.reverse_prefix.2 hSuffix

theorem body_suffix (path : List Char) : (view path).body <:+ split path := by
  unfold view
  split
  · rename_i hSplit
    exact hSplit ▸ List.suffix_cons _ _
  · rename_i hSplit
    exact hSplit ▸ List.suffix_cons _ _
  · exact List.suffix_rfl

/-- The first piece of a plain path is void only if it is the last one as well. -/
theorem isVoid_first {path : List Char} {p q : Piece} {rest : List Piece}
    (hView : view path = ⟨.plain, p :: q :: rest⟩) : isVoid p = false := by
  unfold view at hView
  split at hView
  · cases hView
  · cases hView
  · rename_i hRoot hHere
    have hSplit : split path = p :: q :: rest := congrArg View.body hView
    rw [hSplit] at hRoot hHere
    have hEmpty : p ≠ [] := fun hEmpty => hRoot q rest (by rw [hEmpty])
    have hDot : p ≠ ['.'] := fun hDot => hHere (q :: rest) (by rw [hDot])
    simp [isVoid, hEmpty, hDot]

theorem isVoid_last {body front : List Piece} {p : Piece}
    (hEnd : dropVoidEnd body = front ++ [p]) : isVoid p = false := by
  have hHead := List.head?_dropWhile_not isVoid body.reverse
  have hReverse : body.reverse.dropWhile isVoid = p :: front.reverse := by
    simpa [dropVoidEnd] using congrArg List.reverse hEnd
  simpa [hReverse] using hHead

theorem ofPiece?_isSome {p : Piece} (hVoid : isVoid p = false) :
    ∃ c, Component.ofPiece? p = some c := by
  rw [Component.ofPiece?, if_neg (by simp [hVoid])]
  split <;> exact ⟨_, rfl⟩

/-- The last component of a path is that of its last piece which is not void, or its beginning. -/
theorem components_cases (path : String) :
    let v := view path.toList
    (dropVoidEnd v.body = [] ∧ components path = v.lead.components) ∨
      ∃ front p c, dropVoidEnd v.body = front ++ [p] ∧ Component.ofPiece? p = some c ∧
        components path = v.lead.components ++ front.filterMap Component.ofPiece? ++ [c] := by
  intro v
  have hPath : components path =
      v.lead.components ++ (dropVoidEnd v.body).filterMap Component.ofPiece? := by
    rw [components, filterMap_dropVoidEnd]
  rcases List.eq_nil_or_concat' (dropVoidEnd v.body) with hNone | ⟨front, p, hFront⟩
  · exact .inl ⟨hNone, by simp [hPath, hNone]⟩
  · obtain ⟨c, hPiece⟩ := ofPiece?_isSome (isVoid_last hFront)
    exact .inr ⟨front, p, c, hFront, hPiece, by simp [hPath, hFront, hPiece]⟩

/-- The directory above a path has the same components but for the last. -/
theorem components_parent? {path above : String} (hParent : parent? path = some above) :
    components above = (components path).dropLast := by
  obtain ⟨lead, body, hView⟩ : ∃ lead body, view path.toList = ⟨lead, body⟩ := ⟨_, _, rfl⟩
  have hCases := components_cases path
  simp only [hView] at hCases
  simp only [parent?, hView] at hParent
  rcases hCases with ⟨hNone, hPath⟩ | ⟨front, p, c, hFront, -, hPath⟩
  · rw [hNone] at hParent
    rw [hPath]
    cases lead with
    | here =>
      cases hParent
      rfl
    | plain => cases hParent
    | root => cases hParent
  · have hPrefix : front ++ [p] <+: body := hFront ▸ dropVoidEnd_isPrefix body
    have hSlash : ∀ q ∈ dropVoidEnd front, '/' ∉ q := by
      intro q hq
      have hMem : q ∈ body := hPrefix.subset
        (List.mem_append_left _ ((dropVoidEnd_isPrefix front).subset hq))
      have hBody : body <:+ split path.toList := by
        simpa [hView] using body_suffix path.toList
      exact noSlash_of_mem_split (hBody.subset hMem)
    -- The first piece stays first, and it has a name in a plain view of more than one piece.
    have hPlain : lead = .plain → ∀ q ∈ (dropVoidEnd front).head?, isVoid q = false := by
      rintro rfl q hq
      obtain ⟨more, hMore⟩ := List.head?_eq_some_iff.1 hq
      obtain ⟨void, hVoid⟩ := hMore ▸ dropVoidEnd_isPrefix front
      obtain ⟨rest, hRest⟩ := hPrefix
      obtain ⟨r, others, hOthers⟩ :=
        List.exists_cons_of_ne_nil (l := more ++ void ++ [p] ++ rest) (by simp)
      have hBody : body = q :: r :: others := by
        rw [← hRest, ← hVoid, ← hOthers]
        simp
      exact isVoid_first (hBody ▸ hView)
    rw [hFront] at hParent
    have hAbove : String.ofList (View.text ⟨lead, dropVoidEnd front⟩) = above := by
      simpa using hParent
    rw [← hAbove, components_text hSlash hPlain, filterMap_dropVoidEnd, hPath, List.dropLast_concat]

/-! ## A path as an entry of the directory above -/

theorem components_join (base : String) {name : String} (hName : isName name = true) :
    components (join base name) = components base ++ [.name name] := by
  have hNames : ∀ n ∈ [name], isName n = true := by simpa using hName
  by_cases hBase : base = ""
  · obtain ⟨hVoid, -, hSlash⟩ := isName_iff.1 hName
    have hEmpty : name.toList ≠ [] := by
      intro hNil
      rw [hNil] at hVoid
      cases hVoid
    have hDot : name.toList ≠ ['.'] := by
      intro hNil
      rw [hNil] at hVoid
      cases hVoid
    have hJoin : join base name = name := by simp [join, hBase]
    have hNone : components "" = [] := rfl
    rw [hJoin, hBase, hNone, components, view_plain hEmpty hDot (split_of_noSlash hSlash)]
    exact filterMap_names hNames
  · have hBelow := components_below hBase hNames
    exact hBelow

theorem isName_of_mem_components {path name : String} (hMem : .name name ∈ components path) :
    isName name = true := by
  rw [components, List.mem_append] at hMem
  rcases hMem with hLead | hBody
  · cases hView : (view path.toList).lead <;> simp [hView, Lead.components] at hLead
  · obtain ⟨p, hp, hPiece⟩ := List.mem_filterMap.1 hBody
    have hSlash : '/' ∉ p := noSlash_of_mem_split ((body_suffix path.toList).subset hp)
    rw [Component.ofPiece?] at hPiece
    split at hPiece
    · cases hPiece
    · rename_i hVoid
      split at hPiece
      · cases hPiece
      · rename_i hUp
        cases hPiece
        simp [isName, hVoid, hUp, hSlash]

theorem isAbsolute_of_lead {path : String} (hLead : (view path.toList).lead = .root) :
    isAbsolute path = true := by
  unfold view at hLead
  split at hLead
  · rename_i hSplit
    cases hText : path.toList with
    | nil => simp [hText, split, Text.splitAt] at hSplit
    | cons c rest =>
      rw [hText, split, Text.splitAt] at hSplit
      split at hSplit
      · rename_i hSlash
        simp [isAbsolute, hText, hSlash]
      · cases hRest : Text.splitAt '/' rest <;> simp [hRest, Text.consFirst] at hSplit
  · cases hLead
  · cases hLead

/-- A path is the entry of its last component in the directory above it, unless that component is a
step up. -/
theorem components_entry {path : String} (hUp : (components path).getLast? ≠ some .up) :
    components (join ((parent? path).getD path) ((fileName? path).getD path)) =
      components path := by
  rcases components_cases path with ⟨hNone, hPath⟩ | ⟨front, p, c, hFront, hPiece, hPath⟩
  · have hName : fileName? path = none := by
      rw [fileName?, hPath]
      cases (view path.toList).lead <;> rfl
    rw [hName, parent?, hNone, Option.getD_none]
    cases hLead : (view path.toList).lead with
    | plain =>
      rw [hLead] at hPath
      have hEmpty : path = "" := by
        by_contra hSome
        exact components_ne_nil hSome hPath
      rw [hEmpty]
      rfl
    | root => simp [join, isAbsolute_of_lead hLead]
    | here => simp [join]
  · have hLast : (components path).getLast? = some c := by simp [hPath]
    obtain ⟨above, hAbove⟩ : ∃ above, parent? path = some above := by simp [parent?, hFront]
    have hNamed : ∃ n, c = .name n := by
      rw [Component.ofPiece?] at hPiece
      split at hPiece
      · cases hPiece
      · split at hPiece
        · cases hPiece
          exact absurd hLast hUp
        · cases hPiece
          exact ⟨_, rfl⟩
    obtain ⟨n, rfl⟩ := hNamed
    have hName : fileName? path = some n := by simp [fileName?, hLast]
    rw [hName, hAbove, Option.getD_some, Option.getD_some, components_join above
      (isName_of_mem_components (List.mem_of_getLast? hLast)), components_parent? hAbove, hPath,
      List.dropLast_concat]

end Homonym.Path
