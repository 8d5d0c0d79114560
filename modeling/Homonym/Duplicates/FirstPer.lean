/-!
# First elements per key

`firstPer key l` keeps of each group of elements with one key the first, in order. Its length is the
number of different keys (`distinctCount`).
-/

namespace Homonym

variable {α β : Type} [DecidableEq β]

/-- The first element of every key. -/
def firstPer (key : α → β) : List α → List α
  | [] => []
  | x :: rest => x :: (firstPer key rest).filter fun y => key y ≠ key x

/-- How many different keys the elements have. -/
def distinctCount (key : α → β) (l : List α) : Nat :=
  (firstPer key l).length

theorem firstPer_sublist (key : α → β) (l : List α) : (firstPer key l).Sublist l := by
  induction l with
  | nil => exact .slnil
  | cons x rest ih => exact (List.filter_sublist.trans ih).cons_cons x

theorem mem_map_firstPer (key : α → β) (l : List α) (k : β) :
    k ∈ (firstPer key l).map key ↔ k ∈ l.map key := by
  induction l with
  | nil => simp [firstPer]
  | cons x rest ih =>
    by_cases h : k = key x
    · simp [firstPer, h]
    · simp only [List.mem_map] at ih
      simp only [firstPer, List.map_cons, List.mem_cons, List.mem_map, List.mem_filter, h, false_or]
      rw [← ih]
      constructor
      · rintro ⟨y, ⟨hy, _⟩, rfl⟩
        exact ⟨y, hy, rfl⟩
      · rintro ⟨y, hy, rfl⟩
        exact ⟨y, ⟨hy, by simpa using h⟩, rfl⟩

theorem nodup_map_firstPer (key : α → β) (l : List α) : ((firstPer key l).map key).Nodup := by
  induction l with
  | nil => simp [firstPer]
  | cons x rest ih =>
    simp only [firstPer, List.map_cons, List.nodup_cons, List.mem_map, List.mem_filter]
    refine ⟨?_, (List.filter_sublist.map key).nodup ih⟩
    rintro ⟨y, ⟨_, hy⟩, he⟩
    simp [he] at hy

end Homonym
