import Homonym.Proofs.Settings.Entries
import Homonym.Proofs.Text.Capitals

/-!
# The dictionary of an environment

The settings in environment variables make a dictionary with its keys in order, inside and out
(`sorted_settings`). Its own keys come from the names of variables, so they are without capitals
(`exists_settings`); the keys of a dictionary in braces are taken as they are.
-/

namespace Homonym

namespace Variables

open Text

/-! ## Order -/

theorem sorted_word (text : List Char) : (word text).Sorted := by
  refine .leaf fun entries hDict => ?_
  unfold word at hDict
  split at hDict
  · cases hDict
  · split at hDict <;> cases hDict

/-- Every value that is read has the keys of its dictionaries in order. -/
theorem sorted_of_read (fuel : Nat) :
    (∀ text value rest, value? fuel text = some (value, rest) → value.Sorted) ∧
      ∀ text entries rest, members? fuel text = some (entries, rest) →
        ∀ e ∈ entries, e.2.Sorted := by
  -- Values and members are read by turns, so the two facts are shown together.
  induction fuel with
  | zero =>
    constructor
    · intro _ _ _ hRead
      cases hRead
    · intro _ _ _ hRead
      cases hRead
  | succ fuel ih =>
    obtain ⟨ihValue, ihMembers⟩ := ih
    constructor
    · intro text value rest hRead
      simp only [value?, Option.map_eq_some_iff, Prod.mk.injEq] at hRead
      obtain ⟨⟨_, after⟩, hFound, rfl, -⟩ := hRead
      split at hFound
      · cases hFound
        exact .leaf fun _ h => nomatch h
      · cases hFound
        exact .leaf fun _ h => nomatch h
      · obtain ⟨found, -, hFound⟩ := Option.map_eq_some_iff.1 hFound
        cases hFound
        exact .leaf fun _ h => nomatch h
      · obtain ⟨⟨entries, left⟩, hMembers, hFound⟩ := Option.map_eq_some_iff.1 hFound
        cases hFound
        exact Value.sorted_ofList (ihMembers _ _ _ hMembers)
      · obtain ⟨found, -, hFound⟩ := Option.map_eq_some_iff.1 hFound
        cases hFound
        exact .leaf fun _ h => nomatch h
      · split at hFound
        · cases hFound
          exact .leaf fun _ h => nomatch h
        · cases hFound
      · cases hFound
        exact sorted_word _
    · intro text entries rest hRead
      simp only [members?] at hRead
      split at hRead
      · cases hRead
        simp
      · split at hRead
        · cases hRead
        · split at hRead
          · split at hRead
            · rename_i value more hValue
              obtain ⟨⟨others, left⟩, hMore, hFound⟩ := Option.map_eq_some_iff.1 hRead
              cases hFound
              exact List.forall_mem_cons.2 ⟨ihValue _ _ _ hValue, ihMembers _ _ _ hMore⟩
            · rename_i value after hValue
              cases hRead
              exact List.forall_mem_singleton.2 (ihValue _ _ _ hValue)
            · cases hRead
          · cases hRead

theorem sorted_value (text : String) : (value text).Sorted := by
  unfold value
  split
  · rename_i hRead
    exact (sorted_of_read _).1 _ _ _ hRead
  · exact .leaf fun _ h => nomatch h

theorem sorted_nest {value : Value} (hValue : value.Sorted) (keys : List String) :
    (nest value keys).Sorted := by
  induction keys with
  | nil => exact hValue
  | cons key rest ih =>
    exact .dict (Value.ordered_cons.2 ⟨by simp, .nil⟩) (List.forall_mem_singleton.2 ih)

/-! ## Variables one after the other -/

/-- The settings with one variable more. -/
def addVariable (below : Value) (entry : String × String) : Value :=
  match keys? entry.1 with
  | none => below
  | some keys => (nest (value entry.2) keys).cover below

theorem sorted_settings (environment : List (String × String)) :
    (settings environment).Sorted := by
  have hFold : ∀ below : Value, below.Sorted → (environment.foldl addVariable below).Sorted := by
    intro below hBelow
    induction environment generalizing below with
    | nil => exact hBelow
    | cons entry rest ih =>
      refine ih _ ?_
      unfold addVariable
      split
      · exact hBelow
      · exact (sorted_nest (sorted_value _) _).cover hBelow
  exact hFold _ (.dict .nil (by simp))

/-! ## Outer keys -/

theorem noCapital_lower (text : List Char) : NoCapital (lower text) := by
  intro c hMem
  obtain ⟨d, -, rfl⟩ := List.mem_map.1 hMem
  exact isUpper_toLower d

theorem noCapital_dotted {text : List Char} (hText : NoCapital text) :
    NoCapital (dotted text) := by
  fun_induction dotted text with
  | case1 rest ih =>
    have hRest : NoCapital rest := fun c hMem => hText c (by simp [hMem])
    exact List.forall_mem_cons.2 ⟨by decide, ih hRest⟩
  | case2 c rest _ ih =>
    obtain ⟨hFirst, hRest⟩ := List.forall_mem_cons.1 hText
    exact List.forall_mem_cons.2 ⟨hFirst, ih hRest⟩
  | case3 => exact hText

theorem splitDots_ne_nil (text : List Char) : splitDots text ≠ [] := by
  unfold splitDots
  split
  · simp
  · simp
  · split <;> simp

theorem noCapital_of_mem_splitDots {text : List Char} (hText : NoCapital text) :
    ∀ piece ∈ splitDots text, NoCapital piece := by
  fun_induction splitDots text with
  | case1 => exact List.forall_mem_singleton.2 hText
  | case2 rest ih =>
    exact List.forall_mem_cons.2 ⟨by simp [NoCapital], ih (List.forall_mem_cons.1 hText).2⟩
  | case3 c rest _ hNone ih => exact absurd hNone (splitDots_ne_nil rest)
  | case4 c rest _ piece more hSome ih =>
    obtain ⟨hFirst, hRest⟩ := List.forall_mem_cons.1 hText
    obtain ⟨hPiece, hMore⟩ := List.forall_mem_cons.1 (hSome ▸ ih hRest)
    exact List.forall_mem_cons.2 ⟨List.forall_mem_cons.2 ⟨hFirst, hPiece⟩, hMore⟩

/-- The keys of a variable: there is one at least, and they are without capitals. -/
theorem noCapital_of_keys? {name : String} {keys : List String} (hKeys : keys? name = some keys) :
    keys ≠ [] ∧ ∀ key ∈ keys, NoCapital key.toList := by
  unfold keys? at hKeys
  split at hKeys
  · cases hKeys
  · rename_i rest hAfter
    simp only at hKeys
    split at hKeys
    · cases hKeys
    · cases hKeys
      refine ⟨by simp [splitDots_ne_nil], fun key hMem => ?_⟩
      obtain ⟨piece, hPiece, rfl⟩ := List.mem_map.1 hMem
      have hName : NoCapital (lower nameLead ++ rest) :=
        Text.after?_eq_some_iff.1 hAfter ▸ noCapital_lower _
      have hRest : NoCapital rest := fun c hc => hName c (List.mem_append_right _ hc)
      have hTrim : NoCapital (trim (dotted rest)) := fun c hc => by
        have hStart : c ∈ trimStart (dotted rest) := (trimEnd_prefix_self _).subset hc
        exact noCapital_dotted hRest c ((trimStart_suffix _).subset hStart)
      rw [String.toList_ofList]
      exact noCapital_of_mem_splitDots hTrim piece hPiece

theorem exists_addVariable {lower : List (String × Value)}
    (hLower : ∀ key ∈ lower.map Prod.fst, NoCapital key.toList) (entry : String × String) :
    ∃ entries, addVariable (.dict lower) entry = .dict entries ∧
      ∀ key ∈ entries.map Prod.fst, NoCapital key.toList := by
  unfold addVariable
  split
  · exact ⟨lower, rfl, hLower⟩
  · rename_i keys hKeys
    obtain ⟨hSome, hKeys⟩ := noCapital_of_keys? hKeys
    obtain ⟨first, more, rfl⟩ := List.exists_cons_of_ne_nil hSome
    refine ⟨_, by rw [nest, Value.cover], fun key hMem => ?_⟩
    rcases Value.mem_coverEntries_key hMem with hUpper | hBelow
    · exact hKeys key (by simp [List.mem_singleton.1 hUpper])
    · exact hLower key hBelow

/-- The settings of an environment are a dictionary, and its keys are without capitals. -/
theorem exists_settings (environment : List (String × String)) :
    ∃ entries, settings environment = .dict entries ∧
      ∀ key ∈ entries.map Prod.fst, NoCapital key.toList := by
  have hFold : ∀ lower : List (String × Value),
      (∀ key ∈ lower.map Prod.fst, NoCapital key.toList) →
      ∃ entries, environment.foldl addVariable (.dict lower) = .dict entries ∧
        ∀ key ∈ entries.map Prod.fst, NoCapital key.toList := by
    intro lower hLower
    induction environment generalizing lower with
    | nil => exact ⟨lower, rfl, hLower⟩
    | cons entry rest ih =>
      obtain ⟨entries, hEntries, hKeys⟩ := exists_addVariable hLower entry
      rw [List.foldl_cons, hEntries]
      exact ih entries hKeys
  exact hFold [] (by simp)

end Variables

end Homonym
