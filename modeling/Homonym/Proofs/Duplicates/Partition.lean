import Homonym.Proofs.Duplicates.Listed
import Homonym.Proofs.Duplicates.Tally

/-!
# Grouping is a partition

Grouping fills an ordered list of groups and seven counters in one run. `Grouping.Partitions` says
what comes out of it without the run. The groups are the admitted occurrences, parted by identity:
every group has an identity of its own, the groups come in the order of their first members, and no
member is lost, moved or repeated. The counters say how many occurrences there were, how many were
left out for each reason, where of several reasons the first one counts, and how many groups there
are.

The groups are known in closed form (`Grouping.of_fst`), and the balance of the counters as well
(`Grouping.balanced_of`). What remains is the count for each reason. A step adds one to it if this
is the reason to leave the occurrence out (`Grouping.droppedFor_step`), so a run adds the number of
such occurrences (`Grouping.droppedFor_foldl`).
-/

namespace Homonym

namespace Filter

/-- The occurrences that are not ignored by kind or name, and that are exported unless others are
wanted too. -/
def admitted (filter : Filter) (occurrences : List Occurrence) : List Occurrence :=
  occurrences.filter fun o =>
    o.kind ∉ filter.ignoredKinds ∧ o.name ∉ filter.ignoredNames ∧
      (filter.includeInternal = true ∨ o.exported = true)

theorem filter_admits (filter : Filter) (occurrences : List Occurrence) :
    occurrences.filter filter.admits = filter.admitted occurrences := by
  refine List.filter_congr fun o _ => ?_
  rw [Bool.eq_iff_iff, decide_eq_true_iff]
  exact filter.admits_iff o

/-- A reason is given exactly if it applies and none that is tried before it does. -/
theorem drop?_eq_some_iff (filter : Filter) (o : Occurrence) :
    (filter.drop? o = some .ignoredKind ↔ o.kind ∈ filter.ignoredKinds) ∧
    (filter.drop? o = some .ignoredName ↔
      o.kind ∉ filter.ignoredKinds ∧ o.name ∈ filter.ignoredNames) ∧
    (filter.drop? o = some .internal ↔
      o.kind ∉ filter.ignoredKinds ∧ o.name ∉ filter.ignoredNames ∧
        filter.includeInternal = false ∧ o.exported = false) := by
  unfold drop?
  split
  · simp [*]
  · split
    · simp [*]
    · split <;> simp_all

end Filter

/-- How many occurrences were left out for a reason. -/
def Tally.droppedFor (tally : Tally) : Drop → Nat
  | .ignoredKind => tally.droppedByKind
  | .ignoredName => tally.droppedByName
  | .internal => tally.droppedInternal

namespace Grouping

/-- The groups part the admitted occurrences by identity, in the order of their first appearance,
and the tally counts the occurrences, those left out for each reason, and the groups. -/
structure Partitions (filter : Filter) (occurrences : List Occurrence) (groups : List Group)
    (tally : Tally) : Prop where
  nodup : (groups.map Group.identity).Nodup
  by_first : groups.map Group.identity =
    (earliest Occurrence.identity (filter.admitted occurrences)).map Occurrence.identity
  members_eq : ∀ g ∈ groups, g.members = (filter.admitted occurrences).filter fun o =>
    o.name = g.identity.name ∧ o.kind = g.identity.kind
  members_ne_nil : ∀ g ∈ groups, g.members ≠ []
  total_eq : tally.total = occurrences.length
  admitted_eq : tally.admitted = total (groups.map fun g => g.members.length)
  droppedByKind_eq : tally.droppedByKind =
    occurrences.countP fun o => o.kind ∈ filter.ignoredKinds
  droppedByName_eq : tally.droppedByName =
    occurrences.countP fun o => o.kind ∉ filter.ignoredKinds ∧ o.name ∈ filter.ignoredNames
  droppedInternal_eq : tally.droppedInternal =
    occurrences.countP fun o => o.kind ∉ filter.ignoredKinds ∧ o.name ∉ filter.ignoredNames ∧
      filter.includeInternal = false ∧ o.exported = false
  admitted_add_dropped : tally.admitted + tally.dropped = tally.total
  identities_eq : tally.identities = groups.length
  repeated_eq : tally.repeated = groups.countP fun g => 1 < g.members.length

/-! ## The counts by reason -/

theorem droppedFor_step (filter : Filter) (state : List Group × Tally) (o : Occurrence)
    (reason : Drop) :
    (step filter state o).2.droppedFor reason =
      state.2.droppedFor reason + if filter.drop? o = some reason then 1 else 0 := by
  cases hDrop : filter.drop? o with
  | none =>
    simp only [step, hDrop]
    cases reason <;> rfl
  | some given =>
    simp only [step, hDrop]
    cases given <;> cases reason <;> rfl

theorem droppedFor_foldl (filter : Filter) (occurrences : List Occurrence)
    (state : List Group × Tally) (reason : Drop) :
    (occurrences.foldl (step filter) state).2.droppedFor reason =
      state.2.droppedFor reason + occurrences.countP fun o => filter.drop? o = some reason := by
  induction occurrences generalizing state with
  | nil => rfl
  | cons o rest ih =>
    rw [List.foldl_cons, ih, droppedFor_step, List.countP_cons]
    simp only [decide_eq_true_eq]
    omega

theorem droppedFor_of (filter : Filter) (occurrences : List Occurrence) (reason : Drop) :
    (of filter occurrences).2.droppedFor reason =
      occurrences.countP fun o => filter.drop? o = some reason := by
  have hRun := droppedFor_foldl filter occurrences ([], {}) reason
  cases reason <;> exact hRun.trans (Nat.zero_add _)

/-! ## The groups -/

theorem map_identity_of (filter : Filter) (occurrences : List Occurrence) :
    (of filter occurrences).1.map Group.identity =
      (firstPer Occurrence.identity (filter.admitted occurrences)).map Occurrence.identity := by
  rw [of_fst, filter.filter_admits, List.map_map]
  rfl

theorem nodup_identity_of (filter : Filter) (occurrences : List Occurrence) :
    ((of filter occurrences).1.map Group.identity).Nodup := by
  rw [map_identity_of]
  exact nodup_map_firstPer _ _

theorem members_of_mem {filter : Filter} {occurrences : List Occurrence} {g : Group}
    (h : g ∈ (of filter occurrences).1) :
    (g.members = (filter.admitted occurrences).filter fun o =>
      o.name = g.identity.name ∧ o.kind = g.identity.kind) ∧ g.members ≠ [] := by
  rw [of_fst, filter.filter_admits] at h
  obtain ⟨o, hFirst, rfl⟩ := List.mem_map.1 h
  constructor
  · refine List.filter_congr fun p _ => ?_
    simp [groupOf, Occurrence.identity]
  · have hAdmitted : o ∈ filter.admitted occurrences := (firstPer_sublist _ _).subset hFirst
    exact List.ne_nil_of_mem (List.mem_filter.2 ⟨hAdmitted, by simp⟩)

/-- **Grouping parts the admitted occurrences and counts the others.** -/
theorem partitions_of (filter : Filter) (occurrences : List Occurrence) :
    Partitions filter occurrences (of filter occurrences).1 (of filter occurrences).2 := by
  have hBalanced := balanced_of filter occurrences
  have hDropped := droppedFor_of filter occurrences
  have hReason := filter.drop?_eq_some_iff
  refine
    { nodup := nodup_identity_of filter occurrences
      by_first := ?_
      members_eq := fun g hMem => (members_of_mem hMem).1
      members_ne_nil := fun g hMem => (members_of_mem hMem).2
      total_eq := hBalanced.total_eq
      admitted_eq := hBalanced.members_eq.symm
      droppedByKind_eq := ?_
      droppedByName_eq := ?_
      droppedInternal_eq := ?_
      admitted_add_dropped := hBalanced.admitted_add
      identities_eq := rfl
      repeated_eq := rfl }
  · rw [map_identity_of, firstPer_eq_earliest]
  · refine (hDropped .ignoredKind).trans (List.countP_congr fun o _ => ?_)
    simpa only [decide_eq_true_eq] using (hReason o).1
  · refine (hDropped .ignoredName).trans (List.countP_congr fun o _ => ?_)
    simpa only [decide_eq_true_eq] using (hReason o).2.1
  · refine (hDropped .internal).trans (List.countP_congr fun o _ => ?_)
    simpa only [decide_eq_true_eq] using (hReason o).2.2

end Grouping

end Homonym
