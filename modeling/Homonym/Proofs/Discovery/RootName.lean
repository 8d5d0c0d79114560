import Homonym.Proofs.Discovery.Reach
import Homonym.Proofs.Discovery.SeenPaths
import Homonym.Proofs.Path.Ancestors
import Homonym.Proofs.Pattern.OnePath

/-!
# What the name of a root changes

Patterns are meant to see a path from the root, so that the name of the root should not matter. But
a list of rules takes the text of its root off the front of a path once more, if the path leads
through a directory. So the name of a root matters exactly where it begins the name of a directory
inside (`walk_ignores_name_iff`): the rules then see another path under it than under any other
name.

* `walkNamed_eq` and `walkNamed_congr`: a walk depends on the name only through what the rules see.
* `exists_walkNamed_ne_of_room`: a pattern that looks for one file tells two names apart. It is
  compiled, so what the rules see of the file must not be too long.
* `exists_walkNamed_ne_of_length`: of a file further down, a pattern that passes over the directory
  above it does, which is looked up as it is.
-/

namespace Homonym

open Pattern

namespace Discovery

/-! ## The walk of a named root -/

/-- What is found below a root with given entries, as seen from the root, by the root's name. -/
def walkNamed (options : DiscoveryOptions) (entries : List (String × Node)) (name : String) :
    List Outcome :=
  (walk (.dir [(name, .dir entries)]) options name).map (Except.map (Path.relative name))

/-- The walk of a root with given entries. -/
def rooted (options : DiscoveryOptions) (entries : List (String × Node)) (name : String) : Walk :=
  ⟨.dir [(name, .dir entries)], name, options.followLinks, options.skipHidden,
    selectionNamed options entries name⟩

section Named

variable {entries : List (String × Node)} (hPlain : (Node.dir entries).isPlain = true)
include hPlain

variable {name : String} (hName : Node.isEntryName name = true)
include hName

/-- The files found under a name are those that the rules let through. -/
theorem walkNamed_eq (options : DiscoveryOptions) :
    walkNamed options entries name =
      if (selectionNamed options entries name).rejects "" true then []
      else
        ((Node.placesOf entries).filter ((rooted options entries name).reaches name)).map
          fun place => .ok ("/".intercalate place) := by
  have hProper : Path.isName name = true := (Node.isEntryName_iff.1 hName).1
  have hWalk : (prepare (.dir [(name, .dir entries)]) options name).1 =
      rooted options entries name := by
    rw [prepare_fst, selection_named options hName hPlain, rooted]
  have hUp : (Path.components name).getLast? ≠ some .up := by simp [components_name hProper]
  have hRootPath : (rooted options entries name).relative (rooted options entries name).rootEntry =
      "" :=
    Walk.relative_rootEntry (Path.ne_empty_of_isName hProper) hUp
  have hOutcomes := Walk.outcomes_eq (w := rooted options entries name)
    (FileTree.isPlain_named hName hPlain) (FileTree.lookup_named hName hPlain)
  rw [walkNamed, walk, hWalk, hOutcomes, Walk.enters, hRootPath, rooted]
  cases (selectionNamed options entries name).rejects "" true with
  | true => rfl
  | false =>
    simp only [Bool.not_false, if_true, Bool.false_eq_true, if_false, List.map_map]
    refine List.map_congr_left fun place hMem => ?_
    obtain ⟨hSome, hNames⟩ := place_of_mem hPlain (List.mem_of_mem_filter hMem)
    exact congrArg Except.ok
      (Path.relative_below (Path.ne_empty_of_isName hProper) hSome hNames)

theorem reaches_rooted_iff (options : DiscoveryOptions) {place : Place}
    (hMem : place ∈ Node.placesOf entries) :
    (rooted options entries name).reaches name place = true ↔
      (options.skipHidden = true → ∀ n ∈ place, Walk.isHidden n = false) ∧
      (selectionNamed options entries name).takes ("/".intercalate place) = true ∧
      (selectionNamed options entries name).rejects ("/".intercalate place) false = false ∧
      ∀ way rest, place = way ++ rest → way ≠ [] → rest ≠ [] →
        (selectionNamed options entries name).rejects ("/".intercalate way) true = false := by
  have hRoot := Path.ne_empty_of_isName (Node.isEntryName_iff.1 hName).1
  obtain ⟨hSome, hNames⟩ := place_of_mem hPlain hMem
  exact Walk.reaches_root_iff (w := rooted options entries name) hRoot hSome hNames

/-- A walk depends on the name of its root only through what the rules see. -/
theorem walkNamed_congr (options : DiscoveryOptions) {other : String}
    (hOther : Node.isEntryName other = true)
    (hSeen : ∀ place ∈ Node.placesOf entries, ∀ way rest, place = way ++ rest → way ≠ [] →
      seen name ("/".intercalate way) = seen other ("/".intercalate way)) :
    walkNamed options entries name = walkNamed options entries other := by
  have hRoot : seen name "" = seen other "" := by
    rw [seen, seen, strip_bare _ (by simp), strip_bare _ (by simp)]
  rw [walkNamed_eq hPlain hName, walkNamed_eq hPlain hOther, rejects_congr hRoot]
  have hReaches : ∀ place ∈ Node.placesOf entries,
      (rooted options entries name).reaches name place =
        (rooted options entries other).reaches other place := by
    intro place hMem
    have hWhole := hSeen place hMem place [] (by simp) (place_of_mem hPlain hMem).1
    have hWays : (∀ way rest, place = way ++ rest → way ≠ [] → rest ≠ [] →
          (selectionNamed options entries name).rejects ("/".intercalate way) true = false) ↔
        ∀ way rest, place = way ++ rest → way ≠ [] → rest ≠ [] →
          (selectionNamed options entries other).rejects ("/".intercalate way) true = false := by
      refine forall₄_congr fun way rest hSplit hWay => ?_
      rw [rejects_congr (hSeen place hMem way rest hSplit hWay)]
    rw [Bool.eq_iff_iff, reaches_rooted_iff hPlain hName options hMem,
      reaches_rooted_iff hPlain hOther options hMem, takes_congr hWhole, rejects_congr hWhole,
      hWays]
  rw [List.filter_congr hReaches]

end Named

/-! ## Where the name of the root begins an inner name -/

/-- A file lies below a directory of the root whose name begins with the name of the root. -/
def recurs (entries : List (String × Node)) (name : String) : Bool :=
  (Node.placesOf entries).any fun
    | first :: _ :: _ => name.toList.isPrefixOf first.toList
    | _ => false

theorem recurs_iff {entries : List (String × Node)} {name : String} :
    recurs entries name = true ↔
      ∃ first next rest, first :: next :: rest ∈ Node.placesOf entries ∧
        name.toList <+: first.toList := by
  rw [recurs, List.any_eq_true]
  constructor
  · rintro ⟨place, hMem, hBegins⟩
    match place, hMem, hBegins with
    | first :: next :: rest, hMem, hBegins =>
      exact ⟨first, next, rest, hMem, List.isPrefixOf_iff_prefix.1 hBegins⟩
  · rintro ⟨first, next, rest, hMem, hBegins⟩
    exact ⟨_, hMem, List.isPrefixOf_iff_prefix.2 hBegins⟩

/-- Where the name of the root begins no inner name, the rules see every path as it is. -/
theorem seen_of_not_recurs {entries : List (String × Node)} {name : String}
    (hPlain : (Node.dir entries).isPlain = true) (hName : Path.isName name = true)
    (hRecurs : recurs entries name = false) {way rest : Place}
    (hMem : way ++ rest ∈ Node.placesOf entries) (hWay : way ≠ []) :
    seen name ("/".intercalate way) = ("/".intercalate way).toList := by
  obtain ⟨-, hNames⟩ := place_of_mem hPlain hMem
  match way, hWay with
  | [only], _ =>
    have hOnly := hNames only (by simp)
    have hText : "/".intercalate [only] = only := rfl
    rw [seen, hText, strip_bare _ (Path.isName_iff.1 hOnly).2.2]
  | first :: next :: more, _ =>
    have hBegins : ¬name.toList <+: first.toList := fun hBegins =>
      Bool.false_ne_true
        (hRecurs.symm.trans (recurs_iff.2 ⟨first, next, more ++ rest, hMem, hBegins⟩))
    rw [seen, Path.toList_intercalate_cons,
      strip_of_not_begins hName [] (hNames first (by simp)) hBegins]

theorem toList_intercalate_ne_nil {first : String} (hFirst : Path.isName first = true)
    (rest : List String) : ("/".intercalate (first :: rest)).toList ≠ [] := by
  cases rest with
  | nil => exact fun hNil => Path.ne_empty_of_isName hFirst (String.toList_eq_nil_iff.1 hNil)
  | cons next rest => simp

theorem seen_ne_nil {name first next : String} (hName : Path.isName name = true)
    (hFirst : Path.isName first = true) (hNext : Path.isName next = true)
    (hBegins : name.toList <+: first.toList) (rest : List String) :
    seen name ("/".intercalate (first :: next :: rest)) ≠ [] := by
  obtain ⟨more, hMore⟩ := hBegins
  rw [seen, Path.toList_intercalate_cons, strip_of_begins hName [] hFirst hMore.symm]
  split
  · exact toList_intercalate_ne_nil hNext rest
  · simp

theorem head?_seen {name first next : String} (hName : Path.isName name = true)
    (hFirst : Path.isName first = true) (hNext : Path.isName next = true) (rest : List String) :
    (seen name ("/".intercalate (first :: next :: rest))).head? ≠ some '/' := by
  rw [seen_inner]
  exact head?_strip hName [] hFirst (Path.head?_intercalate hNext rest)

theorem length_seen_le {name first : String} (hName : Path.isName name = true)
    (hFirst : Path.isName first = true) (next : String) (way rest : List String) :
    (seen name ("/".intercalate (first :: next :: way))).length ≤
      (seen name ("/".intercalate (first :: next :: (way ++ rest)))).length := by
  by_cases hRest : rest = []
  · simp [hRest]
  · rw [seen_inner_append hName hFirst next way hRest, List.length_append]
    exact Nat.le_add_right _ _

/-! ### One path -/

/-- What looks for one path alone, wherever it is. -/
def lookFor (text : List Char) : DiscoveryOptions :=
  { skipHidden := false, respectIgnoreFile := false, includes := [String.ofList (onePath text)],
    excludes := [] }

section LookFor

variable {text : List Char} (hSome : text ≠ [])
  (hRoom : automatonRoom [.onePath text] ≤ roomLimit) (entries : List (String × Node))
  (name path : String)
include hSome hRoom

theorem selectionNamed_lookFor :
    selectionNamed (lookFor text) entries name =
      ⟨⟨name, [⟨.onePath text, false, false⟩]⟩, ⟨name, []⟩, ⟨name, []⟩⟩ := by
  have hRules : patternRules [String.ofList (onePath text)] = [⟨.onePath text, false, false⟩] := by
    rw [patternRules, List.map_singleton, String.toList_ofList,
      IgnoreList.readLines_onePath hSome, usable]
    simp [fault?_onePath hRoom]
  rw [selectionNamed, lookFor, hRules]
  rfl

theorem takes_lookFor :
    (selectionNamed (lookFor text) entries name).takes path = decide (seen name path = text) := by
  rw [selectionNamed_lookFor hSome hRoom, Selection.takes, IgnoreList.verdict,
    IgnoreList.verdictStripped_onePath]
  have hSeen : IgnoreList.strip ⟨name, [⟨.onePath text, false, false⟩]⟩ path.toList =
      seen name path := rfl
  by_cases hText : seen name path = text <;> simp [hSeen, hText]

theorem rejects_lookFor (isDir : Bool) :
    (selectionNamed (lookFor text) entries name).rejects path isDir = false := by
  rw [selectionNamed_lookFor hSome hRoom, Selection.rejects, verdictUpward_nil]
  rfl

end LookFor

/-! ### One directory -/

/-- What passes over the directory at one path alone, wherever it is. -/
def passOver (text : List Char) : DiscoveryOptions :=
  { skipHidden := false, respectIgnoreFile := false, includes := ["**"],
    excludes := [String.ofList (oneDir text)] }

section PassOver

variable {text : List Char} (hSome : text ≠ []) (entries : List (String × Node))
  (name path : String)
include hSome

theorem selectionNamed_passOver :
    selectionNamed (passOver text) entries name =
      ⟨⟨name, [⟨⟨[.leading]⟩, false, false⟩]⟩, ⟨name, [⟨.plain text, false, true⟩]⟩,
        ⟨name, []⟩⟩ := by
  have hIncludes : patternRules ["**"] = [⟨⟨[.leading]⟩, false, false⟩] := rfl
  have hExcludes : patternRules [String.ofList (oneDir text)] = [⟨.plain text, false, true⟩] := by
    rw [patternRules, List.map_singleton, String.toList_ofList, IgnoreList.readLines_oneDir, usable]
    simp [fault?_plain hSome]
  rw [selectionNamed, passOver, hIncludes, hExcludes]
  rfl

theorem takes_passOver : (selectionNamed (passOver text) entries name).takes path = true := by
  rw [selectionNamed_passOver hSome]
  rfl

theorem firstVerdict_oneDir (dirs : List String) :
    IgnoreList.firstVerdict ⟨name, [⟨.plain text, false, true⟩]⟩ dirs =
      if String.ofList text ∈ dirs then .ignored else .unmatched := by
  induction dirs with
  | nil => rfl
  | cons dir dirs ih =>
    rw [IgnoreList.firstVerdict, IgnoreList.verdictStripped_oneDir name hSome, ih]
    by_cases hHere : dir.toList = text
    · simp [← hHere]
    · have hOther : String.ofList text ≠ dir := fun hSame => hHere (by rw [← hSame]; simp)
      simp [hHere, hOther]

/-- **What is passed over.** A directory that the rules see under the text, and what lies below a
path of this text. -/
theorem rejects_passOver_iff (isDir : Bool) :
    (selectionNamed (passOver text) entries name).rejects path isDir = true ↔
      (isDir = true ∧ seen name path = text) ∨
        String.ofList text ∈ Path.ancestors (String.ofList (seen name path)) := by
  have hSeen : IgnoreList.strip ⟨name, [⟨.plain text, false, true⟩]⟩ path.toList =
      seen name path := rfl
  rw [selectionNamed_passOver hSome, Selection.rejects, verdictUpward_nil]
  simp only [IgnoreList.verdictUpward, hSeen, IgnoreList.verdictStripped_oneDir name hSome]
  by_cases hHere : isDir = true ∧ seen name path = text
  · simp [hHere]
  · rw [if_neg hHere]
    simp only [firstVerdict_oneDir hSome, hHere, false_or]
    by_cases hAbove : String.ofList text ∈ Path.ancestors (String.ofList (seen name path)) <;>
      simp [hAbove]

theorem rejects_passOver_eq_false {isDir : Bool} (hHead : (seen name path).head? ≠ some '/')
    (hHere : isDir = true → seen name path ≠ text)
    (hFront : ∀ rest, seen name path ≠ text ++ '/' :: rest) :
    (selectionNamed (passOver text) entries name).rejects path isDir = false := by
  rw [← Bool.not_eq_true, rejects_passOver_iff hSome]
  rintro (⟨hDir, hSame⟩ | hAbove)
  · exact hHere hDir hSame
  · rcases Path.front_of_mem_ancestors (by rwa [String.toList_ofList]) hAbove with
      hNone | ⟨rest, hRest⟩
    · exact hSome (String.ofList_eq_empty_iff.1 hNone)
    · rw [String.toList_ofList, String.toList_ofList] at hRest
      exact hFront rest hRest

theorem rejects_passOver_root :
    (selectionNamed (passOver text) entries name).rejects "" true = false := by
  have hNone : seen name "" = [] := strip_bare _ (by simp)
  refine rejects_passOver_eq_false hSome _ _ _ ?_ ?_ ?_ <;> simp [hNone, Ne.symm hSome]

/-- A text that leads through a directory passes over none at the root. -/
theorem rejects_passOver_bare (hSlash : '/' ∈ text) (hBare : '/' ∉ path.toList) (isDir : Bool) :
    (selectionNamed (passOver text) entries name).rejects path isDir = false := by
  have hSeen : seen name path = path.toList := strip_bare _ hBare
  refine rejects_passOver_eq_false hSome _ _ _ ?_ (fun _ hSame => ?_) fun rest hFront => ?_
  · rw [hSeen]
    exact fun hHead => hBare (List.mem_of_mem_head? hHead)
  · exact hBare (hSeen ▸ hSame ▸ hSlash)
  · rw [hSeen] at hFront
    exact hBare (hFront ▸ by simp)

/-- Nothing is passed over of which the rules see less than the text. -/
theorem rejects_passOver_short (hHead : (seen name path).head? ≠ some '/')
    (hShort : (seen name path).length < text.length) (isDir : Bool) :
    (selectionNamed (passOver text) entries name).rejects path isDir = false := by
  refine rejects_passOver_eq_false hSome _ _ _ hHead (fun _ hSame => ?_) fun rest hFront => ?_
  · rw [hSame] at hShort
    exact Nat.lt_irrefl _ hShort
  · rw [hFront, List.length_append] at hShort
    omega

/-- A file is not passed over if the rules see less than the text of the directory above it. -/
theorem rejects_passOver_below (hHead : (seen name path).head? ≠ some '/') {front last : List Char}
    (hSeen : seen name path = front ++ '/' :: last) (hLast : '/' ∉ last)
    (hShort : front.length < text.length) :
    (selectionNamed (passOver text) entries name).rejects path false = false := by
  refine rejects_passOver_eq_false hSome _ _ _ hHead (by simp) fun rest hFront => ?_
  rw [hSeen] at hFront
  -- The slash behind the text would be one of the last name.
  rcases List.append_eq_append_iff.1 hFront with ⟨tail, hTail, hBack⟩ | ⟨tail, hTail, -⟩
  · cases tail with
    | nil => simp [hTail] at hShort
    | cons c tail =>
      obtain ⟨-, hName⟩ := List.cons.inj hBack
      exact hLast (hName ▸ by simp)
  · rw [hTail, List.length_append] at hShort
    omega

end PassOver

/-! ### Telling two names apart -/

section Telling

variable {entries : List (String × Node)} (hPlain : (Node.dir entries).isPlain = true)
  {name other : String} (hName : Node.isEntryName name = true)
  (hOther : Node.isEntryName other = true)
include hPlain hName

/-- A file is found under a name if the rules let it through. -/
theorem mem_walkNamed_iff (options : DiscoveryOptions) {place : Place}
    (hMem : place ∈ Node.placesOf entries) :
    .ok ("/".intercalate place) ∈ walkNamed options entries name ↔
      (selectionNamed options entries name).rejects "" true = false ∧
        (rooted options entries name).reaches name place = true := by
  rw [walkNamed_eq hPlain hName]
  cases (selectionNamed options entries name).rejects "" true with
  | true => simp
  | false =>
    simp only [Bool.false_eq_true, if_false, true_and, List.mem_map, List.mem_filter]
    constructor
    · rintro ⟨place', ⟨hMem', hReaches⟩, hPath⟩
      obtain ⟨hSome, hNames⟩ := place_of_mem hPlain hMem
      obtain ⟨hSome', hNames'⟩ := place_of_mem hPlain hMem'
      rwa [← Path.intercalate_inj hSome' hSome hNames' hNames (Except.ok.inj hPath)]
    · exact fun hReaches => ⟨place, ⟨hMem, hReaches⟩, rfl⟩

/-- A file is found if the text that is passed over leads through a directory and is longer than
what the rules see of the directory above the file. -/
theorem mem_walkNamed_passOver {text : List Char} (hSlash : '/' ∈ text)
    {first next last : String} {more : List String}
    (hMem : first :: next :: more ++ [last] ∈ Node.placesOf entries)
    (hLonger : (seen name ("/".intercalate (first :: next :: more))).length < text.length) :
    .ok ("/".intercalate (first :: next :: more ++ [last])) ∈
      walkNamed (passOver text) entries name := by
  obtain ⟨-, hNames⟩ := place_of_mem hPlain hMem
  have hFirst : Path.isName first = true := hNames first (by simp)
  have hNext : Path.isName next = true := hNames next (by simp)
  have hProper := (Node.isEntryName_iff.1 hName).1
  have hSome : text ≠ [] := List.ne_nil_of_mem hSlash
  rw [mem_walkNamed_iff hPlain hName _ hMem, reaches_rooted_iff hPlain hName _ hMem]
  have hShown : (passOver text).skipHidden = false := rfl
  refine ⟨rejects_passOver_root hSome _ _,
    fun hHidden => absurd (hShown.symm.trans hHidden) Bool.false_ne_true,
    takes_passOver hSome _ _ _, ?file, fun way rest hSplit hWay hRest => ?dirs⟩
  case file =>
    have hLast : '/' ∉ ("/".intercalate [last]).toList :=
      (Path.isName_iff.1 (hNames last (by simp))).2.2
    exact rejects_passOver_below hSome _ _ _ (head?_seen hProper hFirst hNext (more ++ [last]))
      (seen_inner_append hProper hFirst next more (List.cons_ne_nil last [])) hLast hLonger
  case dirs =>
    match way, hWay with
    | [dir], _ =>
      obtain ⟨rfl, -⟩ := List.cons.inj hSplit
      have hBare : '/' ∉ ("/".intercalate [first]).toList := (Path.isName_iff.1 hFirst).2.2
      exact rejects_passOver_bare hSome _ _ _ hSlash hBare true
    | dir :: inner :: names, _ =>
      obtain ⟨front, final, rfl⟩ := (List.eq_nil_or_concat' rest).resolve_left hRest
      simp only [List.cons_append, List.cons.injEq] at hSplit
      obtain ⟨rfl, rfl, hSplit⟩ := hSplit
      rw [← List.append_assoc] at hSplit
      obtain ⟨rfl, -⟩ := List.append_inj' hSplit rfl
      exact rejects_passOver_short hSome _ _ _ (head?_seen hProper hFirst hNext names)
        (Nat.lt_of_le_of_lt (length_seen_le hProper hFirst next names front) hLonger) true

omit hName in
/-- What the rules see of a file in a directory of the root is short. -/
theorem automatonRoom_seen_le (hProper : Path.isName name = true) {first next : String}
    (hMem : [first, next] ∈ Node.placesOf entries) :
    automatonRoom [.onePath (seen name ("/".intercalate [first, next]))] ≤ roomLimit := by
  have hNames : ∀ n ∈ [first, next], Node.isEntryName n = true :=
    Node.isEntryName_of_mem_places hPlain (by rwa [Node.places])
  obtain ⟨hFirst, -, hSize⟩ := Node.isEntryName_iff.1 (hNames first (by simp))
  obtain ⟨-, -, hSize'⟩ := Node.isEntryName_iff.1 (hNames next (by simp))
  have hText : ("/".intercalate [next]).toList = next.toList := rfl
  obtain ⟨front, hFront⟩ := (strip_suffix hProper [] hFirst next.toList).1
  have hBytes := congrArg Text.byteSize hFront
  rw [seen_inner, hText, automatonRoom_onePath, length_bytes]
  simp only [Text.byteSize_append, Text.byteSize_cons] at hBytes
  simp only [Text.byteSize, String.ofList_toList] at hBytes
  simp only [nameLimit, stateRoom, roomLimit, Text.byteSize] at *
  have hOne : '/'.utf8Size = 1 := rfl
  omega

include hOther

/-- A file tells two names apart that let the rules see it differently, if one can look for what
they see. -/
theorem exists_walkNamed_ne_of_room {place : Place} (hMem : place ∈ Node.placesOf entries)
    (hSome : seen name ("/".intercalate place) ≠ [])
    (hRoom : automatonRoom [.onePath (seen name ("/".intercalate place))] ≤ roomLimit)
    (hDiffer : seen name ("/".intercalate place) ≠ seen other ("/".intercalate place)) :
    ∃ options, walkNamed options entries name ≠ walkNamed options entries other := by
  refine ⟨lookFor (seen name ("/".intercalate place)), fun hSame => ?_⟩
  have hFree := rejects_lookFor hSome hRoom entries
  have hTakes := takes_lookFor hSome hRoom entries
  have hFound : .ok ("/".intercalate place) ∈
      walkNamed (lookFor (seen name ("/".intercalate place))) entries name := by
    rw [mem_walkNamed_iff hPlain hName _ hMem, reaches_rooted_iff hPlain hName _ hMem]
    have hShown : (lookFor (seen name ("/".intercalate place))).skipHidden = false := rfl
    refine ⟨hFree _ _ _, fun hHidden => absurd (hShown.symm.trans hHidden) Bool.false_ne_true, ?_,
      hFree _ _ _, fun _ _ _ _ _ => hFree _ _ _⟩
    rw [hTakes]
    exact decide_eq_true rfl
  rw [hSame, mem_walkNamed_iff hPlain hOther _ hMem, reaches_rooted_iff hPlain hOther _ hMem,
    hTakes] at hFound
  exact hDiffer (of_decide_eq_true hFound.2.2.1).symm

/-- A file below two directories or more tells two names apart that let the rules see the last of
them differently: the longer of what they see can be passed over. -/
theorem exists_walkNamed_ne_of_length {first next last : String} {more : List String}
    (hMem : first :: next :: more ++ [last] ∈ Node.placesOf entries)
    (hLonger : (seen other ("/".intercalate (first :: next :: more))).length <
      (seen name ("/".intercalate (first :: next :: more))).length) :
    ∃ options, walkNamed options entries name ≠ walkNamed options entries other := by
  have hFirst : Path.isName first = true := (place_of_mem hPlain hMem).2 first (by simp)
  have hEnd := (strip_suffix (Node.isEntryName_iff.1 hName).1 [] hFirst
    ("/".intercalate (next :: more)).toList).1
  have hTail := (strip_suffix (Node.isEntryName_iff.1 hOther).1 [] hFirst
    ("/".intercalate (next :: more)).toList).2
  rw [← seen_inner] at hEnd hTail
  generalize hText : seen name ("/".intercalate (first :: next :: more)) = text at hLonger hEnd
  have hSome : text ≠ [] := List.ne_nil_of_length_pos (Nat.zero_lt_of_lt hLonger)
  -- The text is long enough to hold a slash.
  have hSlash : '/' ∈ text := by
    have hShort : ('/' :: ("/".intercalate (next :: more)).toList).length ≤ text.length := by
      have := hTail.length_le
      simp only [List.length_cons]
      omega
    exact (List.suffix_of_suffix_length_le (List.suffix_append _ _) hEnd hShort).subset
      List.mem_cons_self
  refine ⟨passOver text, fun hSame => ?_⟩
  have hFound := mem_walkNamed_passOver hPlain hOther hSlash hMem hLonger
  rw [← hSame, mem_walkNamed_iff hPlain hName _ hMem, reaches_rooted_iff hPlain hName _ hMem]
    at hFound
  have hEntered := hFound.2.2.2.2 (first :: next :: more) [last] rfl (by simp) (by simp)
  refine absurd ?_ (Bool.not_eq_true _ ▸ hEntered)
  exact (rejects_passOver_iff hSome entries name _ true).2 (.inl ⟨rfl, hText⟩)

/-- A name that begins an inner name is told from every other one. -/
theorem eq_of_recurs (hRecurs : recurs entries name = true)
    (hSame : ∀ options, walkNamed options entries name = walkNamed options entries other) :
    name = other := by
  obtain ⟨first, next, rest, hMem, hBegins⟩ := recurs_iff.1 hRecurs
  obtain ⟨-, hNames⟩ := place_of_mem hPlain hMem
  have hFirst := hNames first (by simp)
  have hNext := hNames next (by simp)
  have hProper := (Node.isEntryName_iff.1 hName).1
  have hProper' := (Node.isEntryName_iff.1 hOther).1
  by_contra hDiffer
  have hSeen : ∀ more, seen name ("/".intercalate (first :: next :: more)) ≠
      seen other ("/".intercalate (first :: next :: more)) := by
    intro more hEq
    rw [seen_inner, seen_inner] at hEq
    exact hDiffer (eq_of_strip_eq hProper hProper' hFirst hBegins [] hEq)
  suffices ∃ options, walkNamed options entries name ≠ walkNamed options entries other by
    obtain ⟨options, hTold⟩ := this
    exact hTold (hSame options)
  rcases List.eq_nil_or_concat' rest with rfl | ⟨more, last, rfl⟩
  · refine exists_walkNamed_ne_of_room hPlain hName hOther hMem ?_ ?_ (hSeen [])
    · exact seen_ne_nil hProper hFirst hNext hBegins []
    · exact automatonRoom_seen_le hPlain hProper hMem
  · have hEnd := fun {root} (hRoot : Path.isName root = true) =>
      (strip_suffix hRoot [] hFirst ("/".intercalate (next :: more)).toList).1
    rcases Nat.lt_trichotomy (seen name ("/".intercalate (first :: next :: more))).length
      (seen other ("/".intercalate (first :: next :: more))).length with hLess | hEqual | hLess
    · obtain ⟨options, hTold⟩ := exists_walkNamed_ne_of_length hPlain hOther hName hMem hLess
      exact ⟨options, hTold.symm⟩
    · -- Both are ends of one path.
      have hSuffix := List.suffix_of_suffix_length_le (hEnd hProper) (hEnd hProper')
      rw [← seen_inner, ← seen_inner] at hSuffix
      exact absurd ((hSuffix (Nat.le_of_eq hEqual)).eq_of_length hEqual) (hSeen more)
    · exact exists_walkNamed_ne_of_length hPlain hName hOther hMem hLess

end Telling

/-- **Where the name of a root does not matter.** Two names of a root find the same files under all
options exactly if they are the same, or if no file lies below a directory of the root whose name
begins with one of them. -/
theorem walk_ignores_name_iff {entries : List (String × Node)} {name other : String}
    (hPlain : (Node.dir entries).isPlain = true) (hName : Node.isEntryName name = true)
    (hOther : Node.isEntryName other = true) :
    (∀ options, walkNamed options entries name = walkNamed options entries other) ↔
      name = other ∨ recurs entries name = false ∧ recurs entries other = false := by
  constructor
  · intro hSame
    by_cases hEq : name = other
    · exact .inl hEq
    · refine .inr ⟨Bool.eq_false_iff.2 fun hRecurs => hEq ?_,
        Bool.eq_false_iff.2 fun hRecurs => hEq ?_⟩
      · exact eq_of_recurs hPlain hName hOther hRecurs hSame
      · exact (eq_of_recurs hPlain hOther hName hRecurs fun options => (hSame options).symm).symm
  · rintro (rfl | ⟨hFree, hFree'⟩) options
    · rfl
    · refine walkNamed_congr hPlain hName options hOther fun place hMem way rest hSplit hWay => ?_
      rw [hSplit] at hMem
      rw [seen_of_not_recurs hPlain (Node.isEntryName_iff.1 hName).1 hFree hMem hWay,
        seen_of_not_recurs hPlain (Node.isEntryName_iff.1 hOther).1 hFree' hMem hWay]

/-- The names of a root whose directories are named otherwise. -/
theorem walk_ignores_src_or_app :
    let entries : List (String × Node) :=
      [("lib", .dir [("src", .dir [("a.ts", .file (.text ""))])]), ("src.ts", .file (.text ""))]
    (Node.dir entries).isPlain = true ∧ Node.isEntryName "src" = true ∧
      Node.isEntryName "app" = true ∧
      ∀ options, walkNamed options entries "src" = walkNamed options entries "app" := by
  intro entries
  have hPlain : (Node.dir entries).isPlain = true := by decide
  exact ⟨hPlain, by decide, by decide,
    (walk_ignores_name_iff hPlain (by decide) (by decide)).2 (.inr ⟨by decide, by decide⟩)⟩

/-- A directory that is named as its root is not found there, but it is found under another root. -/
theorem walk_heeds_repeated_name :
    let entries : List (String × Node) := [("src", .dir [("a.ts", .file (.text ""))])]
    let options : DiscoveryOptions := { includes := ["src/*.ts"] }
    (Node.dir entries).isPlain = true ∧ Node.isEntryName "src" = true ∧
      Node.isEntryName "app" = true ∧ walkNamed options entries "src" = [] ∧
      walkNamed options entries "app" = [.ok "src/a.ts"] := by
  intro entries options
  have hPlain : (Node.dir entries).isPlain = true := by decide
  have hSrc :
      (Node.placesOf entries).filter ((rooted options entries "src").reaches "src") = [] := by
    decide +kernel
  have hApp : (Node.placesOf entries).filter ((rooted options entries "app").reaches "app") =
      [["src", "a.ts"]] := by
    decide +kernel
  have hRoot : (selectionNamed options entries "app").rejects "" true = false := by decide +kernel
  refine ⟨hPlain, by decide, by decide, ?_, ?_⟩
  · rw [walkNamed_eq hPlain (by decide), hSrc]
    exact ite_self _
  · rw [walkNamed_eq hPlain (by decide), hApp, hRoot]
    rfl

end Discovery

end Homonym
