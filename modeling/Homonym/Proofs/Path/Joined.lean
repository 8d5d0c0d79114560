import Homonym.Proofs.Path.Ancestors

/-!
# Seen from a root, joined names are undone

`relative_below` leaves out the root without a text. Nothing is joined to it, so a path below it is
its names with slashes between them (`below_empty`), and as it has no components nothing is taken
off that path (`relative_empty`). With it the law holds of every root.

A path of names has its names as pieces (`split_intercalate`), so different names below one root
are seen as different paths.
-/

namespace Homonym.Path

/-- Below the root without a text, names are joined to each other alone. -/
theorem below_empty {names : List String} (hNames : ∀ n ∈ names, isName n = true) :
    below "" names = "/".intercalate names := by
  cases names with
  | nil => rfl
  | cons name rest =>
    have hName : isName name = true := hNames name List.mem_cons_self
    have hRest : ∀ n ∈ rest, isName n = true := fun n hn => hNames n (List.mem_cons_of_mem _ hn)
    have hRoot : name ≠ "" := ne_empty_of_isName hName
    have hFirst : below "" (name :: rest) = below name rest := by simp [below, join]
    have hUnslashed : unslashed (below name rest).toList = (below name rest).toList := by
      by_cases hSome : rest = []
      · rw [hSome]
        exact unslashed_name hName
      · exact unslashed_below hRoot hSome hRest
    have hPieces : split (below name rest).toList = (name :: rest).map String.toList := by
      rw [← hUnslashed, split_unslashed_below hRoot hRest, unslashed_name hName,
        split_of_noSlash (isName_iff.1 hName).2.2]
      rfl
    rw [hFirst, ← String.toList_inj, toList_intercalate, ← hPieces, unsplit_split]

theorem relative_empty {names : List String} (hSome : names ≠ [])
    (hNames : ∀ n ∈ names, isName n = true) :
    relative "" ("/".intercalate names) = "/".intercalate names := by
  have hNone : components "" = [] := rfl
  rw [relative, behind?, hNone, view_intercalate hSome hNames]
  simp only [Option.getD_some, View.text, dropVoidEnd_names hNames]
  rw [← toList_intercalate, String.ofList_toList]

theorem intercalate_ne {names others : List String} (hSome : names ≠ [])
    (hNames : ∀ n ∈ names, isName n = true) (hOthers : others ≠ [])
    (hOtherNames : ∀ n ∈ others, isName n = true) (hNe : others ≠ names) :
    "/".intercalate others ≠ "/".intercalate names := by
  intro hSame
  have hPieces : others.map String.toList = names.map String.toList := by
    rw [← split_intercalate hOthers hOtherNames, hSame, split_intercalate hSome hNames]
  exact hNe ((List.map_inj_right fun _ _ => String.toList_injective).1 hPieces)

/-- The law of `relative_below`, for every root. -/
theorem relative_below_any (root : String) {names : List String} (hSome : names ≠ [])
    (hNames : ∀ n ∈ names, isName n = true) :
    relative root (below root names) = "/".intercalate names := by
  by_cases hRoot : root = ""
  · rw [hRoot, below_empty hNames, relative_empty hSome hNames]
  · exact relative_below hRoot hSome hNames

/-- **Relative paths undo joining.** However a root is spelled, names that are joined to it one
after the other are, as seen from the root, the names with slashes between them. So places below one
root that differ are seen as different paths. -/
theorem relative_undoes_joining (root : String) {names : List String} (hSome : names ≠ [])
    (hNames : ∀ n ∈ names, isName n = true) :
    relative root (below root names) = "/".intercalate names ∧
      ∀ others : List String, others ≠ [] → (∀ n ∈ others, isName n = true) → others ≠ names →
        relative root (below root others) ≠ relative root (below root names) := by
  refine ⟨relative_below_any root hSome hNames, fun others hOthers hOtherNames hNe => ?_⟩
  rw [relative_below_any root hSome hNames, relative_below_any root hOthers hOtherNames]
  exact intercalate_ne hSome hNames hOthers hOtherNames hNe

/-- A root with a step up, dots, and repeated slashes, also at its end. -/
theorem joining_undone_below_odd_root :
    let root := "./..//a/.//./"
    let names := ["...", "b c", ".ts"]
    (names ≠ [] ∧ ∀ n ∈ names, isName n = true) ∧
      below root names = "./..//a/.//./.../b c/.ts" ∧
      relative root (below root names) = ".../b c/.ts" ∧
      relative root (below root ["...", "b c"]) ≠ relative root (below root names) := by
  intro root names
  have hSome : names ≠ [] := List.cons_ne_nil _ _
  have hNames : ∀ n ∈ names, isName n = true := by decide
  obtain ⟨hSeen, hApart⟩ := relative_undoes_joining root hSome hNames
  exact ⟨⟨hSome, hNames⟩, by decide, hSeen,
    hApart ["...", "b c"] (List.cons_ne_nil _ _) (by decide) (by decide)⟩

end Homonym.Path
