import Homonym.Proofs.Discovery.RootRules
import Homonym.Proofs.Path.Below

/-!
# What the rules of a root see

A list of rules takes the text of its root off the front of a path, if the path leads through a
directory. Paths are given as seen from the root, so this happens once more, and a directory whose
name begins with the name of the root loses this beginning (`strip_of_begins`). Any other directory
is seen as it is (`strip_of_not_begins`), and so is what lies below (`strip_append`).

Verdicts depend on the name of a root only through what the rules see (`rejects_congr`).
-/

namespace Homonym

open Pattern

namespace Discovery

theorem strip_bare (list : IgnoreList) {path : List Char} (hSlash : '/' ∉ path) :
    list.strip path = path := by
  have hDot : dropDot path = path := by
    unfold dropDot
    split
    · rename_i hText
      simp at hSlash
    · rfl
  simp [IgnoreList.strip, hDot, hSlash]

section Inner

variable {name first : String} (hName : Path.isName name = true)
include hName

theorem dropDot_name : dropDot name.toList = name.toList := by
  obtain ⟨-, -, hSlash⟩ := Path.isName_iff.1 hName
  unfold dropDot
  split
  · rename_i hText
    simp [hText] at hSlash
  · rfl

theorem dropDot_inner (tail : List Char) :
    dropDot (name.toList ++ '/' :: tail) = name.toList ++ '/' :: tail := by
  obtain ⟨hVoid, -, hSlash⟩ := Path.isName_iff.1 hName
  unfold dropDot
  split
  · rename_i rest hText
    match hChars : name.toList with
    | [] => simp [hChars, Path.isVoid] at hVoid
    | [c] =>
      rw [hChars] at hText hVoid
      obtain ⟨rfl, -⟩ := List.cons.inj hText
      simp [Path.isVoid] at hVoid
    | c :: d :: more =>
      rw [hChars] at hText hSlash
      obtain ⟨-, hTail⟩ := List.cons.inj hText
      obtain ⟨rfl, -⟩ := List.cons.inj hTail
      simp at hSlash
  · rfl

theorem components_name : Path.components name = [.name name] := by
  have hJoin : Path.join "" name = name := by simp [Path.join]
  have hComponents := Path.components_join "" hName
  rwa [hJoin] at hComponents

theorem not_same_here : Path.same name "." = false := by
  rw [Path.same, components_name hName]
  have hDot : Path.components "." = [.here] := by decide
  rw [hDot]
  rfl

/-- What the rules see of a path that leads through a directory. -/
theorem strip_inner (rules : List IgnoreRule) (hFirst : Path.isName first = true)
    (tail : List Char) :
    IgnoreList.strip ⟨name, rules⟩ (first.toList ++ '/' :: tail) =
      match Text.after? name.toList (first.toList ++ '/' :: tail) with
      | none => first.toList ++ '/' :: tail
      | some ('/' :: rest) => rest
      | some rest => rest := by
  have hInner : ¬(Path.same (String.ofList (dropDot name.toList)) "." ||
      !(dropDot (first.toList ++ '/' :: tail)).contains '/') = true := by
    rw [dropDot_name hName, dropDot_inner hFirst, String.ofList_toList, not_same_here hName]
    simp
  have hStrip : IgnoreList.strip ⟨name, rules⟩ (first.toList ++ '/' :: tail) = _ := if_neg hInner
  rw [dropDot_name hName, dropDot_inner hFirst] at hStrip
  exact hStrip

/-- A directory whose name does not begin with the name of the root is seen as it is. -/
theorem strip_of_not_begins (rules : List IgnoreRule) (hFirst : Path.isName first = true)
    (hBegins : ¬name.toList <+: first.toList) (tail : List Char) :
    IgnoreList.strip ⟨name, rules⟩ (first.toList ++ '/' :: tail) =
      first.toList ++ '/' :: tail := by
  obtain ⟨-, -, hSlash⟩ := Path.isName_iff.1 hName
  have hAfter : Text.after? name.toList (first.toList ++ '/' :: tail) = none := by
    rw [Option.eq_none_iff_forall_ne_some]
    intro rest hSome
    -- The name holds no slash, so if it is a front of the path it is one of the first piece.
    rcases List.append_eq_append_iff.1 (Text.after?_eq_some_iff.1 hSome) with
      ⟨more, hMore, hRest⟩ | ⟨more, hMore, hRest⟩
    · cases more with
      | nil => exact hBegins (by simp [hMore])
      | cons c more =>
        obtain ⟨rfl, -⟩ := List.cons.inj hRest
        exact hSlash (by simp [hMore])
    · exact hBegins ⟨more, hMore.symm⟩
  rw [strip_inner hName rules hFirst, hAfter]

/-- A directory whose name begins with the name of the root loses this beginning. -/
theorem strip_of_begins (rules : List IgnoreRule) (hFirst : Path.isName first = true)
    {more : List Char} (hMore : first.toList = name.toList ++ more) (tail : List Char) :
    IgnoreList.strip ⟨name, rules⟩ (first.toList ++ '/' :: tail) =
      if more = [] then tail else more ++ '/' :: tail := by
  obtain ⟨-, -, hSlash⟩ := Path.isName_iff.1 hFirst
  have hAfter : Text.after? name.toList (first.toList ++ '/' :: tail) =
      some (more ++ '/' :: tail) :=
    Text.after?_eq_some_iff.2 (by simp [hMore])
  rw [strip_inner hName rules hFirst, hAfter]
  cases more with
  | nil => rfl
  | cons c more =>
    have hChar : c ≠ '/' := by
      rintro rfl
      exact hSlash (by simp [hMore])
    simp only [List.cons_append, reduceCtorEq, if_false]
    split
    · rename_i hEq
      cases hEq
    · rename_i hEq
      cases hEq
      exact absurd rfl hChar
    · rename_i hEq
      cases hEq
      rfl

/-- What the rules see of a path that leads through a directory is an end of it, and at least what
is behind the directory. -/
theorem strip_suffix (rules : List IgnoreRule) (hFirst : Path.isName first = true)
    (tail : List Char) :
    IgnoreList.strip ⟨name, rules⟩ (first.toList ++ '/' :: tail) <:+ first.toList ++ '/' :: tail ∧
      tail <:+ IgnoreList.strip ⟨name, rules⟩ (first.toList ++ '/' :: tail) := by
  have hTail : tail <:+ first.toList ++ '/' :: tail :=
    (List.suffix_cons '/' tail).trans (List.suffix_append _ _)
  by_cases hBegins : name.toList <+: first.toList
  · obtain ⟨more, hMore⟩ := hBegins
    rw [strip_of_begins hName rules hFirst hMore.symm]
    split
    · exact ⟨hTail, List.suffix_rfl⟩
    · refine ⟨?_, (List.suffix_cons '/' tail).trans (List.suffix_append _ _)⟩
      rw [← hMore, List.append_assoc]
      exact List.suffix_append _ _
  · rw [strip_of_not_begins hName rules hFirst hBegins]
    exact ⟨List.suffix_rfl, hTail⟩

theorem head?_strip (rules : List IgnoreRule) (hFirst : Path.isName first = true)
    {tail : List Char} (hTail : tail.head? ≠ some '/') :
    (IgnoreList.strip ⟨name, rules⟩ (first.toList ++ '/' :: tail)).head? ≠ some '/' := by
  obtain ⟨hVoid, -, hSlash⟩ := Path.isName_iff.1 hFirst
  -- A text in front that is not empty and holds no slash begins with something else.
  have hFront : ∀ front : List Char, front ≠ [] → '/' ∉ front →
      (front ++ '/' :: tail).head? ≠ some '/' := by
    intro front hSome hSlash
    obtain ⟨c, more, rfl⟩ := List.exists_cons_of_ne_nil hSome
    exact fun hHead => hSlash (Option.some.inj hHead ▸ List.mem_cons_self)
  by_cases hBegins : name.toList <+: first.toList
  · obtain ⟨more, hMore⟩ := hBegins
    rw [strip_of_begins hName rules hFirst hMore.symm]
    split
    · exact hTail
    · rename_i hSome
      exact hFront more hSome fun hMem => hSlash (hMore ▸ List.mem_append_right _ hMem)
  · rw [strip_of_not_begins hName rules hFirst hBegins]
    refine hFront _ (fun hNone => ?_) hSlash
    simp [hNone, Path.isVoid] at hVoid

/-- The rules see the end of a path that leads through a directory as it is. -/
theorem strip_append (rules : List IgnoreRule) (hFirst : Path.isName first = true)
    (tail more : List Char) :
    IgnoreList.strip ⟨name, rules⟩ (first.toList ++ '/' :: (tail ++ more)) =
      IgnoreList.strip ⟨name, rules⟩ (first.toList ++ '/' :: tail) ++ more := by
  by_cases hBegins : name.toList <+: first.toList
  · obtain ⟨back, hBack⟩ := hBegins
    rw [strip_of_begins hName rules hFirst hBack.symm,
      strip_of_begins hName rules hFirst hBack.symm]
    split
    · rfl
    · rw [List.append_assoc, List.cons_append]
  · rw [strip_of_not_begins hName rules hFirst hBegins,
      strip_of_not_begins hName rules hFirst hBegins, List.append_assoc, List.cons_append]

end Inner

/-- Two names of a root that let the rules see the same of a path are the same, if the first of them
begins the name of the directory that the path leads through. -/
theorem eq_of_strip_eq {name other first : String} (hName : Path.isName name = true)
    (hOther : Path.isName other = true) (hFirst : Path.isName first = true)
    (hBegins : name.toList <+: first.toList) (rules : List IgnoreRule) {tail : List Char}
    (hSame : IgnoreList.strip ⟨name, rules⟩ (first.toList ++ '/' :: tail) =
      IgnoreList.strip ⟨other, rules⟩ (first.toList ++ '/' :: tail)) :
    name = other := by
  obtain ⟨more, hMore⟩ := hBegins
  have hSome : name.toList ≠ [] := fun hNil =>
    Path.ne_empty_of_isName hName (String.toList_eq_nil_iff.1 hNil)
  have hLong : 0 < name.toList.length := List.length_pos_iff.2 hSome
  have hLength := congrArg List.length hMore
  rw [strip_of_begins hName rules hFirst hMore.symm] at hSame
  by_cases hBegins : other.toList <+: first.toList
  · obtain ⟨more', hMore'⟩ := hBegins
    have hLength' := congrArg List.length hMore'
    rw [strip_of_begins hOther rules hFirst hMore'.symm] at hSame
    have hEqual : more.length = more'.length := by
      have hSame := congrArg List.length hSame
      cases more <;> cases more' <;> simp at hSame hLength hLength' ⊢ <;> omega
    rw [← String.toList_inj]
    exact (List.append_inj' (hMore.trans hMore'.symm) hEqual).1
  · rw [strip_of_not_begins hOther rules hFirst hBegins] at hSame
    have hSame := congrArg List.length hSame
    cases more <;> simp at hSame hLength <;> omega

/-! ## By the name of the root -/

/-- What the rules of a root see of a path. -/
def seen (name path : String) : List Char :=
  IgnoreList.strip ⟨name, []⟩ path.toList

theorem seen_inner (name first next : String) (rest : List String) :
    seen name ("/".intercalate (first :: next :: rest)) =
      IgnoreList.strip ⟨name, []⟩
        (first.toList ++ '/' :: ("/".intercalate (next :: rest)).toList) := by
  rw [seen, Path.toList_intercalate_cons]

/-- Of what is below a directory the rules see the rest as it is. -/
theorem seen_inner_append {name first : String} (hName : Path.isName name = true)
    (hFirst : Path.isName first = true) (next : String) (rest : List String) {more : List String}
    (hMore : more ≠ []) :
    seen name ("/".intercalate (first :: next :: (rest ++ more))) =
      seen name ("/".intercalate (first :: next :: rest)) ++
        '/' :: ("/".intercalate more).toList := by
  rw [seen_inner, seen_inner, ← List.cons_append,
    Path.toList_intercalate_append (List.cons_ne_nil next rest) hMore, strip_append hName [] hFirst]

section Seen

variable {name other path : String} (hSeen : seen name path = seen other path)
include hSeen

theorem verdict_congr (rules : List IgnoreRule) (isDir : Bool) :
    IgnoreList.verdict ⟨name, rules⟩ path isDir = IgnoreList.verdict ⟨other, rules⟩ path isDir :=
  congrArg (IgnoreList.verdictStripped ⟨name, rules⟩ · isDir) hSeen

theorem verdictUpward_congr (rules : List IgnoreRule) (isDir : Bool) :
    IgnoreList.verdictUpward ⟨name, rules⟩ path isDir =
      IgnoreList.verdictUpward ⟨other, rules⟩ path isDir := by
  have hFirst : ∀ dirs, IgnoreList.firstVerdict ⟨name, rules⟩ dirs =
      IgnoreList.firstVerdict ⟨other, rules⟩ dirs := by
    intro dirs
    induction dirs with
    | nil => rfl
    | cons dir rest ih =>
      rw [IgnoreList.firstVerdict, IgnoreList.firstVerdict, ih]
      rfl
  have hText : IgnoreList.strip ⟨name, rules⟩ path.toList =
      IgnoreList.strip ⟨other, rules⟩ path.toList := hSeen
  rw [IgnoreList.verdictUpward, IgnoreList.verdictUpward, hText, hFirst]
  rfl

theorem takes_congr (options : DiscoveryOptions) (entries : List (String × Node)) :
    (selectionNamed options entries name).takes path =
      (selectionNamed options entries other).takes path :=
  congrArg (· == Verdict.ignored) (verdict_congr hSeen _ false)

theorem rejects_congr (options : DiscoveryOptions) (entries : List (String × Node))
    (isDir : Bool) :
    (selectionNamed options entries name).rejects path isDir =
      (selectionNamed options entries other).rejects path isDir :=
  congrArg₂ (fun v u => v == Verdict.ignored || u == Verdict.ignored)
    (verdictUpward_congr hSeen _ isDir) (verdictUpward_congr hSeen _ isDir)

end Seen

end Discovery

end Homonym
