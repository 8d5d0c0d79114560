import Mathlib.Data.List.Induction
import Mathlib.Data.List.Nodup
import Homonym.Duplicates.FirstPer
import Homonym.Duplicates.Grouping

/-!
# The groups in closed form

Occurrences enter their groups one at a time, so what a group holds in the end depends on the whole
run. `Grouping.of_fst` gives it without the run: one group for the first admitted occurrence of
every identity, in that order, which holds all admitted occurrences of the identity in theirs.

The proof follows the run. An occurrence of a known identity extends the one group that has it
(`Grouping.add_of_mem`), and one of a new identity opens a group at the end
(`Grouping.add_of_not_mem`), just as `firstPer` grows at its end or not (`firstPer_concat`).
-/

namespace Homonym

section FirstPer

variable {α β : Type} [DecidableEq β]

theorem firstPer_concat (key : α → β) (l : List α) (x : α) :
    firstPer key (l ++ [x]) =
      if key x ∈ l.map key then firstPer key l else firstPer key l ++ [x] := by
  induction l with
  | nil => simp [firstPer]
  | cons y rest ih =>
    rw [List.cons_append, firstPer, ih]
    by_cases hRest : key x ∈ rest.map key
    · rw [if_pos hRest, List.map_cons, if_pos (List.mem_cons_of_mem _ hRest), firstPer]
    · rw [if_neg hRest, List.filter_append]
      by_cases hEq : key x = key y
      · simp [hEq, firstPer]
      · rw [if_neg (by simp_all)]
        simp [hEq, firstPer]

end FirstPer

namespace Grouping

/-- The group of all occurrences of one identity. -/
def groupOf (occurrences : List Occurrence) (i : Identity) : Group :=
  ⟨i, occurrences.filter fun o => o.identity = i⟩

/-- The group that receives a further occurrence of its identity. -/
def extend (o : Occurrence) (g : Group) : Group :=
  if g.identity = o.identity then { g with members := g.members ++ [o] } else g

theorem add_of_not_mem {o : Occurrence} {groups : List Group}
    (hNew : o.identity ∉ groups.map Group.identity) :
    add o groups = groups ++ [⟨o.identity, [o]⟩] := by
  induction groups with
  | nil => rfl
  | cons g rest ih =>
    simp only [List.map_cons, List.mem_cons, not_or] at hNew
    rw [add, if_neg (fun hEq => hNew.1 hEq.symm), ih hNew.2, List.cons_append]

theorem add_of_mem {o : Occurrence} {groups : List Group}
    (hNodup : (groups.map Group.identity).Nodup) (hOld : o.identity ∈ groups.map Group.identity) :
    add o groups = groups.map (extend o) := by
  induction groups with
  | nil => simp at hOld
  | cons g rest ih =>
    obtain ⟨hFresh, hRest⟩ := List.nodup_cons.1 hNodup
    by_cases hEq : g.identity = o.identity
    · -- No other group has the identity, so the rest stays as it is.
      have hSame : ∀ h ∈ rest, extend o h = h := by
        intro h hMem
        refine if_neg fun hOther => hFresh ?_
        rw [hEq, ← hOther]
        exact List.mem_map_of_mem hMem
      rw [add, if_pos hEq, List.map_cons, List.map_congr_left hSame, List.map_id', extend,
        if_pos hEq]
    · have hTail : o.identity ∈ rest.map Group.identity :=
        (List.mem_cons.1 hOld).resolve_left fun hHead => hEq hHead.symm
      rw [add, if_neg hEq, ih hRest hTail, List.map_cons, extend, if_neg hEq]

theorem extend_groupOf (o : Occurrence) (l : List Occurrence) (i : Identity) :
    extend o (groupOf l i) = groupOf (l ++ [o]) i := by
  by_cases hEq : i = o.identity
  · simp [extend, groupOf, hEq]
  · simp [extend, groupOf, hEq, Ne.symm hEq]

/-- Entering a whole list gives one group per identity. -/
theorem foldl_add (l : List Occurrence) :
    l.foldl (fun groups o => add o groups) [] =
      (firstPer Occurrence.identity l).map fun o => groupOf l o.identity := by
  induction l using List.reverseRecOn with
  | nil => rfl
  | append_singleton l o ih =>
    have hKeys : ((firstPer Occurrence.identity l).map fun x => groupOf l x.identity).map
        Group.identity = (firstPer Occurrence.identity l).map Occurrence.identity := by
      rw [List.map_map]
      rfl
    rw [List.foldl_append, ih, List.foldl_cons, List.foldl_nil, firstPer_concat]
    by_cases hOld : o.identity ∈ l.map Occurrence.identity
    · rw [add_of_mem, if_pos hOld, List.map_map]
      · exact List.map_congr_left fun x _ => extend_groupOf o l x.identity
      · rw [hKeys]
        exact nodup_map_firstPer _ l
      · rw [hKeys]
        exact (mem_map_firstPer _ l _).2 hOld
    · have hNew : o.identity ∉ (firstPer Occurrence.identity l).map Occurrence.identity :=
        fun hMem => hOld ((mem_map_firstPer _ l _).1 hMem)
      rw [add_of_not_mem (by rwa [hKeys]), if_neg hOld, List.map_append]
      congr 1
      · refine List.map_congr_left fun x hx => ?_
        rw [← extend_groupOf, extend, if_neg]
        rintro hEq
        exact hNew (hEq ▸ List.mem_map_of_mem hx)
      · have hNone : l.filter (fun x => x.identity = o.identity) = [] := by
          simpa [List.filter_eq_nil_iff] using hOld
        simp [groupOf, hNone]

theorem step_fst (filter : Filter) (state : List Group × Tally) (o : Occurrence) :
    (step filter state o).1 = if filter.admits o then add o state.1 else state.1 := by
  cases hDrop : filter.drop? o with
  | none => simp [step, Filter.admits, hDrop]
  | some reason => cases reason <;> simp [step, Filter.admits, hDrop]

/-- **The groups are those of the admitted occurrences, by first appearance.** -/
theorem of_fst (filter : Filter) (occurrences : List Occurrence) :
    (of filter occurrences).1 =
      (firstPer Occurrence.identity (occurrences.filter filter.admits)).map fun o =>
        groupOf (occurrences.filter filter.admits) o.identity := by
  have hRun : ∀ state : List Group × Tally,
      (occurrences.foldl (step filter) state).1 =
        (occurrences.filter filter.admits).foldl (fun groups o => add o groups) state.1 := by
    induction occurrences with
    | nil => exact fun _ => rfl
    | cons o rest ih =>
      intro state
      rw [List.foldl_cons, ih, step_fst, List.filter_cons]
      split <;> rfl
  rw [← foldl_add]
  exact hRun ([], {})

end Grouping

end Homonym
