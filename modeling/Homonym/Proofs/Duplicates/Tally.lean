import Homonym.Duplicates.Report

/-!
# The counts of a grouping

A grouping counts every occurrence it takes in, once as admitted or once as dropped for one reason,
and every admitted occurrence is a member of one group. Each step keeps this (`Balanced.step`), and
so do the groups and counts of any list (`balanced_of`).
-/

namespace Homonym.Grouping

/-- The groups and counts fit each other and the number of occurrences that were taken in. -/
structure Balanced (count : Nat) (state : List Group × Tally) : Prop where
  total_eq : state.2.total = count
  admitted_add : state.2.admitted + state.2.dropped = state.2.total
  members_eq : total (state.1.map fun g => g.members.length) = state.2.admitted

theorem total_add (o : Occurrence) (groups : List Group) :
    total ((add o groups).map fun g => g.members.length) =
      total (groups.map fun g => g.members.length) + 1 := by
  induction groups with
  | nil => rfl
  | cons g rest ih =>
    simp only [total] at ih
    rw [add]
    split
    · simp only [total, List.map_cons, List.foldr_cons, List.length_append, List.length_singleton]
      omega
    · simp only [total, List.map_cons, List.foldr_cons, ih]
      omega

theorem Balanced.step {count : Nat} {state : List Group × Tally} (h : Balanced count state)
    (filter : Filter) (o : Occurrence) : Balanced (count + 1) (Grouping.step filter state o) := by
  obtain ⟨groups, tally⟩ := state
  obtain ⟨hTotal, hAdmitted, hMembers⟩ := h
  simp only [Tally.dropped] at hTotal hAdmitted hMembers
  cases hDrop : filter.drop? o with
  | none =>
    simp only [Grouping.step, hDrop]
    refine ⟨congrArg (· + 1) hTotal, ?_, ?_⟩
    · simp only [Tally.dropped]
      omega
    · rw [total_add, hMembers]
  | some reason =>
    cases reason <;> simp only [Grouping.step, hDrop] <;>
      refine ⟨congrArg (· + 1) hTotal, ?_, hMembers⟩ <;> simp only [Tally.dropped] <;> omega

theorem Balanced.foldl {count : Nat} {state : List Group × Tally} (h : Balanced count state)
    (filter : Filter) (occurrences : List Occurrence) :
    Balanced (count + occurrences.length) (occurrences.foldl (Grouping.step filter) state) := by
  induction occurrences generalizing count state with
  | nil => exact h
  | cons o rest ih =>
    rw [List.foldl_cons, List.length_cons, Nat.add_comm rest.length, ← Nat.add_assoc]
    exact ih (h.step filter o)

/-- **The groups and counts of a list are balanced.** -/
theorem balanced_of (filter : Filter) (occurrences : List Occurrence) :
    Balanced occurrences.length (of filter occurrences) := by
  have hStart : Balanced 0 ([], {}) := ⟨rfl, rfl, rfl⟩
  have hEnd := hStart.foldl filter occurrences
  rw [Nat.zero_add] at hEnd
  exact ⟨hEnd.total_eq, hEnd.admitted_add, hEnd.members_eq⟩

end Homonym.Grouping
