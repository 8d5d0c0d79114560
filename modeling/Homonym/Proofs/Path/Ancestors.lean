import Homonym.Proofs.Path.Below

/-!
# The directories above a path

The paths above a path of names are the paths of the names in front, down to none of them: a path
that begins at no root ends with the empty one (`mem_ancestors`). Of any other path too, unless it
begins at the root of all paths, those above it are fronts that a slash follows
(`front_of_mem_ancestors`).
-/

namespace Homonym.Path

theorem view_intercalate {names : List String} (hSome : names ≠ [])
    (hNames : ∀ n ∈ names, isName n = true) :
    view ("/".intercalate names).toList = ⟨.plain, names.map String.toList⟩ := by
  obtain ⟨first, rest, rfl⟩ := List.exists_cons_of_ne_nil hSome
  have hVoid := (isName_iff.1 (hNames first List.mem_cons_self)).1
  simp only [isVoid, Bool.or_eq_false_iff, beq_eq_false_iff_ne] at hVoid
  exact view_plain hVoid.1 hVoid.2 (split_intercalate hSome hNames)

/-- The path above a path of names leaves out the last name. -/
theorem parent?_concat {names : List String} {name : String}
    (hNames : ∀ n ∈ names ++ [name], isName n = true) :
    parent? ("/".intercalate (names ++ [name])) = some ("/".intercalate names) := by
  have hView := view_intercalate (List.append_ne_nil_of_right_ne_nil names (by simp)) hNames
  have hFront : ∀ n ∈ names, isName n = true := fun n hn => hNames n (List.mem_append_left _ hn)
  have hLast : ((names ++ [name]).map String.toList).dropLast = names.map String.toList := by
    rw [List.map_append, List.map_singleton, List.dropLast_concat]
  rw [parent?, hView]
  simp only [dropVoidEnd_names hNames]
  split
  · rename_i hNone
    simp at hNone
  · rw [hLast, dropVoidEnd_names hFront, View.text, ← toList_intercalate, String.ofList_toList]

theorem length_le_intercalate (names : List String) :
    names.length ≤ ("/".intercalate names).length + 1 := by
  have hPieces : ∀ pieces : List Piece, pieces.length ≤ (unsplit pieces).length + 1 := by
    intro pieces
    fun_induction unsplit pieces with
    | case1 => simp
    | case2 p => simp
    | case3 p rest hRest ih =>
      simp only [List.length_cons, List.length_append] at ih ⊢
      omega
  have hLength := hPieces (names.map String.toList)
  rwa [← toList_intercalate, List.length_map, String.length_toList] at hLength

theorem mem_ancestorsWithin {names : List String} (hNames : ∀ n ∈ names, isName n = true)
    {bound : Nat} (hBound : names.length ≤ bound) {path : String} :
    path ∈ ancestorsWithin bound ("/".intercalate names) ↔
      ∃ way rest, names = way ++ rest ∧ rest ≠ [] ∧ path = "/".intercalate way := by
  induction bound generalizing names with
  | zero =>
    obtain rfl : names = [] := List.eq_nil_of_length_eq_zero (by omega)
    simp [ancestorsWithin]
  | succ bound ih =>
    rcases List.eq_nil_or_concat' names with rfl | ⟨front, last, rfl⟩
    · have hNone : parent? "" = none := by decide
      simp [ancestorsWithin, hNone]
    · have hFront : ∀ n ∈ front, isName n = true := fun n hn =>
        hNames n (List.mem_append_left _ hn)
      have hShort : front.length ≤ bound := by
        simp only [List.length_append, List.length_singleton] at hBound
        omega
      rw [ancestorsWithin, parent?_concat hNames]
      simp only [List.mem_cons, ih hFront hShort]
      constructor
      · rintro (rfl | ⟨way, rest, rfl, hRest, rfl⟩)
        · exact ⟨front, [last], rfl, by simp, rfl⟩
        · exact ⟨way, rest ++ [last], by simp, by simp, rfl⟩
      · rintro ⟨way, rest, hSplit, hRest, rfl⟩
        obtain ⟨more, final, rfl⟩ := (List.eq_nil_or_concat' rest).resolve_left hRest
        rw [← List.append_assoc] at hSplit
        obtain ⟨rfl, -⟩ := List.append_inj' hSplit rfl
        by_cases hMore : more = []
        · exact .inl (by rw [hMore, List.append_nil])
        · exact .inr ⟨way, more, rfl, hMore, rfl⟩

/-- **The paths above a path of names.** -/
theorem mem_ancestors {names : List String} (hNames : ∀ n ∈ names, isName n = true)
    {path : String} :
    path ∈ ancestors ("/".intercalate names) ↔
      ∃ way rest, names = way ++ rest ∧ rest ≠ [] ∧ path = "/".intercalate way :=
  mem_ancestorsWithin hNames (length_le_intercalate names)

/-! ## Any paths -/

/-- The path is empty, or a front of the text that a slash follows. -/
def IsFront (path : String) (text : List Char) : Prop :=
  path = "" ∨ ∃ rest, text = path.toList ++ '/' :: rest

theorem dropVoidEnd_prefix (pieces : List Piece) : dropVoidEnd pieces <+: pieces := by
  rw [dropVoidEnd, ← List.reverse_suffix, List.reverse_reverse]
  exact List.dropWhile_suffix _

theorem isFront_parent? {path above : String} (hPlain : path.toList.head? ≠ some '/')
    (hAbove : parent? path = some above) : IsFront above path.toList := by
  -- The pieces that are left are some of those of the path, and not all.
  have hFront : ∀ front back, split path.toList = front ++ back → back ≠ [] →
      IsFront (String.ofList (unsplit front)) path.toList := by
    intro front back hSplit hBack
    by_cases hNone : front = []
    · exact .inl (by rw [hNone]; rfl)
    · refine .inr ⟨unsplit back, ?_⟩
      rw [String.toList_ofList, ← unsplit_append hNone hBack, ← hSplit, unsplit_split]
  simp only [parent?] at hAbove
  split at hAbove
  · split at hAbove
    · cases hAbove
      exact .inl rfl
    · cases hAbove
  · rename_i hPieces
    cases hAbove
    obtain ⟨left, hLeft⟩ := dropVoidEnd_prefix (view path.toList).body
    obtain ⟨void, hVoid⟩ := dropVoidEnd_prefix (dropVoidEnd (view path.toList).body).dropLast
    have hBody : (view path.toList).body =
        dropVoidEnd (dropVoidEnd (view path.toList).body).dropLast ++
          (void ++ (dropVoidEnd (view path.toList).body).getLast hPieces :: left) := by
      rw [← List.append_assoc, hVoid, ← List.singleton_append, ← List.append_assoc,
        List.dropLast_append_getLast, hLeft]
    generalize dropVoidEnd (dropVoidEnd (view path.toList).body).dropLast = front at hBody ⊢
    generalize (dropVoidEnd (view path.toList).body).getLast hPieces = last at hBody
    unfold view at hBody ⊢
    split at hBody
    · rename_i hSplit
      have hPath := unsplit_split path.toList
      rw [hSplit] at hPath
      exact absurd (by rw [← hPath]; rfl) hPlain
    · rename_i hSplit
      exact hFront (['.'] :: front) _ (by rw [hSplit]; exact congrArg _ hBody) (by simp)
    · exact hFront front _ hBody (by simp)

/-- **The paths above a path are fronts of it.** -/
theorem front_of_mem_ancestors {path above : String} (hPlain : path.toList.head? ≠ some '/')
    (hMem : above ∈ ancestors path) : IsFront above path.toList := by
  have hWithin : ∀ bound path, path.toList.head? ≠ some '/' → above ∈ ancestorsWithin bound path →
      IsFront above path.toList := by
    intro bound
    induction bound with
    | zero => simp [ancestorsWithin]
    | succ bound ih =>
      intro path hPlain hMem
      rw [ancestorsWithin] at hMem
      split at hMem
      · cases hMem
      · rename_i next hNext
        have hHere := isFront_parent? hPlain hNext
        rcases List.mem_cons.1 hMem with rfl | hMem
        · exact hHere
        · rcases hHere with rfl | ⟨rest, hRest⟩
          · have hNone : ancestorsWithin bound "" = [] := by cases bound <;> rfl
            rw [hNone] at hMem
            cases hMem
          · have hPlain' : next.toList.head? ≠ some '/' := by
              intro hHead
              rw [hRest, List.head?_append, hHead] at hPlain
              exact hPlain rfl
            refine (ih next hPlain' hMem).imp_right fun ⟨more, hMore⟩ => ⟨more ++ '/' :: rest, ?_⟩
            rw [hRest, hMore, List.append_assoc, List.cons_append]
  exact hWithin _ path hPlain hMem

end Homonym.Path
