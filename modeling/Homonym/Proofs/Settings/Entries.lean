import Homonym.Proofs.Settings.Saved

/-!
# Dictionaries by their keys

The entries of a dictionary come in the order of their keys, each key once. So they are given by
what `get?` finds: a dictionary laid over another one has for each key what the upper one has, over
what the lower one has (`get?_coverEntries`).

`Sorted` says that the entries are in order in a value and in the dictionaries inside it. It holds
of the dictionary of an environment (`Variables.sorted_settings`) and of every value whose keys are
in snake case (`Value.sorted_normalize`).
-/

namespace Homonym

namespace Value

variable {α : Type}

/-! ## Keys in order -/

theorem mem_of_get? {key : String} {value : α} {entries : List (String × α)}
    (hGet : get? key entries = some value) : (key, value) ∈ entries := by
  obtain ⟨e, hFind, rfl⟩ := Option.map_eq_some_iff.1 hGet
  have hKey : e.1 = key := by simpa using List.find?_some hFind
  exact hKey ▸ List.mem_of_find?_eq_some hFind

theorem get?_eq_none {key : String} {entries : List (String × α)}
    (hKey : key ∉ entries.map Prod.fst) : get? key entries = none := by
  cases hGet : get? key entries with
  | none => rfl
  | some value => exact absurd (List.mem_map.2 ⟨_, mem_of_get? hGet, rfl⟩) hKey

theorem get?_of_mem {key : String} {value : α} {entries : List (String × α)}
    (hKeys : (entries.map Prod.fst).Nodup) (hMem : (key, value) ∈ entries) :
    get? key entries = some value := by
  induction entries with
  | nil => cases hMem
  | cons e rest ih =>
    obtain ⟨k, v⟩ := e
    obtain ⟨hFirst, hKeys⟩ := List.nodup_cons.1 hKeys
    rw [get?_cons]
    rcases List.mem_cons.1 hMem with hHere | hLater
    · cases hHere
      rw [if_pos rfl]
    · have hNe : k ≠ key := by
        rintro rfl
        exact hFirst (List.mem_map.2 ⟨_, hLater, rfl⟩)
      rw [if_neg hNe, ih hKeys hLater]

theorem get?_insert (key other : String) (value : α) (entries : List (String × α)) :
    get? key (insert other value entries) =
      if other = key then some value else get? key entries := by
  by_cases hKey : other = key
  · rw [if_pos hKey, hKey, get?_insert_self]
  · rw [if_neg hKey, get?_insert_of_ne (Ne.symm hKey)]

theorem mem_insert {key : String} {value : α} {entries : List (String × α)} {e : String × α}
    (hMem : e ∈ insert key value entries) : e = (key, value) ∨ e ∈ entries := by
  induction entries with
  | nil => exact .inl (List.mem_singleton.1 hMem)
  | cons first rest ih =>
    obtain ⟨k, v⟩ := first
    rw [insert] at hMem
    split at hMem
    · exact (List.mem_cons.1 hMem).imp_right (List.mem_cons_of_mem _)
    · split at hMem
      · exact List.mem_cons.1 hMem
      · rcases List.mem_cons.1 hMem with rfl | hLater
        · exact .inr List.mem_cons_self
        · exact (ih hLater).imp_right (List.mem_cons_of_mem _)

theorem Ordered.nodup {entries : List (String × α)} (hOrdered : Ordered entries) :
    (entries.map Prod.fst).Nodup := by
  refine List.Pairwise.imp ?_ hOrdered
  rintro key _ hLess rfl
  exact String.lt_irrefl key hLess

theorem ordered_cons {e : String × α} {rest : List (String × α)} :
    Ordered (e :: rest) ↔ (∀ later ∈ rest, e.1 < later.1) ∧ Ordered rest := by
  rw [Ordered, List.map_cons, List.pairwise_cons, List.forall_mem_map]
  rfl

theorem Ordered.insert {entries : List (String × α)} (hOrdered : Ordered entries) (key : String)
    (value : α) : Ordered (insert key value entries) := by
  induction entries with
  | nil => exact ordered_cons.2 ⟨by simp, .nil⟩
  | cons e rest ih =>
    obtain ⟨k, v⟩ := e
    obtain ⟨hFirst, hRest⟩ := ordered_cons.1 hOrdered
    rw [Value.insert]
    split
    · rename_i hKey
      exact ordered_cons.2 ⟨hKey ▸ hFirst, hRest⟩
    · rename_i hKey
      split
      · rename_i hLess
        refine ordered_cons.2 ⟨fun later hMem => ?_, hOrdered⟩
        rcases List.mem_cons.1 hMem with rfl | hMem
        · exact hLess
        · exact String.lt_trans hLess (hFirst later hMem)
      · rename_i hLess
        refine ordered_cons.2 ⟨fun later hMem => ?_, ih hRest⟩
        rcases mem_insert hMem with rfl | hMem
        · exact String.not_le.1 fun hLe => hKey (String.le_antisymm (String.not_lt.1 hLess) hLe)
        · exact hFirst later hMem

/-- Of several entries with one key the last counts. -/
theorem get?_ofList (key : String) (list : List (String × α)) :
    get? key (ofList list) = (list.reverse.find? fun e => e.1 == key).map Prod.snd := by
  have hFold : ∀ entries : List (String × α),
      get? key (list.foldl (fun entries e => insert e.1 e.2 entries) entries) =
        ((list.reverse.find? fun e => e.1 == key).map Prod.snd).or (get? key entries) := by
    intro entries
    induction list generalizing entries with
    | nil => rfl
    | cons e list ih =>
      rw [List.foldl_cons, ih, get?_insert, List.reverse_cons, List.find?_append]
      cases list.reverse.find? fun e => e.1 == key with
      | some found => rfl
      | none => by_cases hKey : e.1 = key <;> simp [hKey]
  rw [ofList, hFold []]
  exact Option.or_none

theorem ordered_ofList (list : List (String × α)) : Ordered (ofList list) := by
  have hFold : ∀ entries : List (String × α), Ordered entries →
      Ordered (list.foldl (fun entries e => insert e.1 e.2 entries) entries) := by
    intro entries hOrdered
    induction list generalizing entries with
    | nil => exact hOrdered
    | cons e list ih => exact ih _ (hOrdered.insert e.1 e.2)
  exact hFold [] .nil

theorem mem_ofList {list : List (String × α)} {e : String × α} (hMem : e ∈ ofList list) :
    e ∈ list := by
  have hFold : ∀ list entries : List (String × α),
      e ∈ list.foldl (fun entries e => insert e.1 e.2 entries) entries →
        e ∈ entries ∨ e ∈ list := by
    intro list entries hMem
    induction list generalizing entries with
    | nil => exact .inl hMem
    | cons first list ih =>
      rcases ih _ hMem with hMem | hMem
      · rcases mem_insert hMem with rfl | hMem
        · exact .inr List.mem_cons_self
        · exact .inl hMem
      · exact .inr (List.mem_cons_of_mem _ hMem)
  exact (hFold list [] hMem).resolve_left List.not_mem_nil

/-! ## Dictionaries over dictionaries -/

/-- The value has no entries. -/
def IsLeaf (value : Value) : Prop :=
  ∀ entries, value ≠ .dict entries

theorem IsLeaf.cover {value : Value} (hLeaf : value.IsLeaf) (below : Value) :
    value.cover below = value := by
  cases value with
  | dict entries => exact absurd rfl (hLeaf entries)
  | _ =>
    rw [Value.cover]
    intro _ hDict
    cases hDict

theorem IsLeaf.normalize {value : Value} (hLeaf : value.IsLeaf) : value.normalize = value := by
  cases value with
  | dict entries => exact absurd rfl (hLeaf entries)
  | _ =>
    rw [Value.normalize]
    intro _ hDict
    cases hDict

/-- What is found in two layers: a value, if there is one, over what is below it. -/
def laidOver : Option Value → Option Value → Option Value
  | some value, some below => some (value.cover below)
  | some value, none => some value
  | none, below => below

theorem laidOver_leaf {upper : Option Value} (hLeaf : ∀ value, upper = some value → value.IsLeaf)
    (lower : Option Value) : laidOver upper lower = upper.or lower := by
  cases upper with
  | none => rfl
  | some value =>
    cases lower with
    | none => rfl
    | some below => exact congrArg some ((hLeaf value rfl).cover below)

theorem get?_coverEntries {upper : List (String × Value)} (hKeys : (upper.map Prod.fst).Nodup)
    (key : String) (lower : List (String × Value)) :
    get? key (coverEntries upper lower) = laidOver (get? key upper) (get? key lower) := by
  induction upper generalizing lower with
  | nil => rw [coverEntries]; rfl
  | cons e rest ih =>
    obtain ⟨k, value⟩ := e
    obtain ⟨hFirst, hKeys⟩ := List.nodup_cons.1 hKeys
    simp only [coverEntries]
    rw [ih hKeys, get?_insert, get?_cons]
    by_cases hKey : k = key
    · subst hKey
      rw [if_pos rfl, if_pos rfl, get?_eq_none hFirst]
      cases get? k lower <;> rfl
    · rw [if_neg hKey, if_neg hKey]

theorem mem_coverEntries_key {upper lower : List (String × Value)} {key : String}
    (hMem : key ∈ (coverEntries upper lower).map Prod.fst) :
    key ∈ upper.map Prod.fst ∨ key ∈ lower.map Prod.fst := by
  induction upper generalizing lower with
  | nil =>
    rw [coverEntries] at hMem
    exact .inr hMem
  | cons e rest ih =>
    simp only [coverEntries] at hMem
    rcases ih hMem with hRest | hLower
    · exact .inl (List.mem_cons_of_mem _ hRest)
    · obtain ⟨found, hFound, rfl⟩ := List.mem_map.1 hLower
      rcases mem_insert hFound with rfl | hFound
      · exact .inl List.mem_cons_self
      · exact .inr (List.mem_map.2 ⟨found, hFound, rfl⟩)

/-! ## Order inside -/

/-- The keys are in order, and so they are in the dictionaries inside. Lists are left alone. -/
inductive Sorted : Value → Prop where
  | leaf {value : Value} (hLeaf : value.IsLeaf) : Sorted value
  | dict {entries : List (String × Value)} (hOrdered : Ordered entries)
      (hInner : ∀ e ∈ entries, Sorted e.2) : Sorted (.dict entries)

theorem Sorted.ordered {entries : List (String × Value)} (hSorted : (Value.dict entries).Sorted) :
    Ordered entries := by
  cases hSorted with
  | leaf hLeaf => exact absurd rfl (hLeaf entries)
  | dict hOrdered _ => exact hOrdered

theorem Sorted.inner {entries : List (String × Value)} (hSorted : (Value.dict entries).Sorted) :
    ∀ e ∈ entries, e.2.Sorted := by
  cases hSorted with
  | leaf hLeaf => exact absurd rfl (hLeaf entries)
  | dict _ hInner => exact hInner

theorem Sorted.insert {entries : List (String × Value)} (hSorted : (Value.dict entries).Sorted)
    (key : String) {value : Value} (hValue : value.Sorted) :
    (Value.dict (insert key value entries)).Sorted := by
  refine .dict (hSorted.ordered.insert key value) fun e hMem => ?_
  rcases mem_insert hMem with rfl | hMem
  · exact hValue
  · exact hSorted.inner e hMem

theorem sorted_ofList {list : List (String × Value)} (hInner : ∀ e ∈ list, e.2.Sorted) :
    (Value.dict (ofList list)).Sorted :=
  .dict (ordered_ofList list) fun e hMem => hInner e (mem_ofList hMem)

theorem Sorted.coverEntries {upper lower : List (String × Value)}
    (hUpper : ∀ e ∈ upper, e.2.Sorted)
    (hCover : ∀ e ∈ upper, ∀ below : Value, below.Sorted → (e.2.cover below).Sorted)
    (hLower : (Value.dict lower).Sorted) :
    (Value.dict (Value.coverEntries upper lower)).Sorted := by
  induction upper generalizing lower with
  | nil =>
    rw [Value.coverEntries]
    exact hLower
  | cons e rest ih =>
    obtain ⟨key, value⟩ := e
    obtain ⟨hValue, hUpper⟩ := List.forall_mem_cons.1 hUpper
    obtain ⟨hLaid, hCover⟩ := List.forall_mem_cons.1 hCover
    simp only [Value.coverEntries]
    refine ih hUpper hCover (hLower.insert key ?_)
    split
    · rename_i below hBelow
      exact hLaid below (hLower.inner _ (mem_of_get? hBelow))
    · exact hValue

theorem Sorted.cover {value below : Value} (hValue : value.Sorted) (hBelow : below.Sorted) :
    (value.cover below).Sorted := by
  induction hValue generalizing below with
  | leaf hLeaf =>
    rw [hLeaf.cover]
    exact .leaf hLeaf
  | dict hOrdered hInner ih =>
    cases below with
    | dict lower =>
      rw [Value.cover]
      exact Sorted.coverEntries hInner (fun e he below hBelow => ih e he hBelow) hBelow
    | _ =>
      rw [Value.cover]
      · exact .dict hOrdered hInner
      · intro _ hDict
        cases hDict

mutual

theorem sorted_normalize : (value : Value) → value.normalize.Sorted
  | .dict entries => by
    rw [normalize]
    exact sorted_ofList (sorted_normalizeEntries entries)
  | .empty | .bool _ | .int _ | .real | .char _ | .str _ | .arr _ => .leaf fun _ h => nomatch h

theorem sorted_normalizeEntries : (entries : List (String × Value)) →
    ∀ e ∈ normalizeEntries entries, e.2.Sorted
  | [] => by simp [normalizeEntries]
  | (key, value) :: rest => by
    rw [normalizeEntries, List.forall_mem_cons]
    exact ⟨sorted_normalize value, sorted_normalizeEntries rest⟩

end

end Value

end Homonym
