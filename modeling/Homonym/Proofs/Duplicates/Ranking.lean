import Homonym.Duplicates.Report

/-!
# The order of a report

A report lists the largest duplicates first, and duplicates of one size in the order in which their
groups come. The sort is stable, and that has two consequences here: whatever holds between the
groups, in their order, still holds between duplicates of one size
(`Report.pairwise_sortedDuplicates`), and leaving out some duplicates before the sort is leaving
them out of the sorted list (`Report.filter_sortedDuplicates`).

Both follow from where one more element at the front goes: behind those that come strictly before
it, and in front of all others (`mergeSort_cons_eq`).
-/

namespace Homonym

section StableSort

variable {α : Type} {le : α → α → Bool}
  (hTrans : ∀ a b c, le a b = true → le b c = true → le a c = true)
  (hTotal : ∀ a b, (le a b || le b a) = true)
include hTrans hTotal

theorem mergeSort_cons_eq (a : α) (l : List α) :
    (a :: l).mergeSort le =
      (l.mergeSort le).filter (fun b => !le a b) ++ a :: (l.mergeSort le).filter (le a) := by
  obtain ⟨before, behind, hCons, hRest, hBefore⟩ := List.mergeSort_cons hTrans hTotal a l
  have hBehind : ∀ b ∈ behind, le a b = true := by
    have hSorted := List.pairwise_mergeSort hTrans hTotal (a :: l)
    rw [hCons, List.pairwise_append] at hSorted
    exact (List.pairwise_cons.1 hSorted.2.1).1
  have hLess : behind.filter (fun b => !le a b) = [] :=
    List.filter_eq_nil_iff.2 fun b hb => by simp [hBehind b hb]
  have hMore : before.filter (le a) = [] :=
    List.filter_eq_nil_iff.2 fun b hb => by simpa using hBefore b hb
  rw [hCons, hRest, List.filter_append, List.filter_append, List.filter_eq_self.2 hBefore, hLess,
    hMore, List.filter_eq_self.2 hBehind, List.append_nil, List.nil_append]

/-- A stable sort and a selection may change places. -/
theorem filter_mergeSort (p : α → Bool) (l : List α) :
    (l.mergeSort le).filter p = (l.filter p).mergeSort le := by
  induction l with
  | nil => simp
  | cons a rest ih =>
    by_cases hKept : p a = true
    · have hSwap : ∀ q : α → Bool, ((rest.mergeSort le).filter q).filter p =
          ((rest.filter p).mergeSort le).filter q := by
        intro q
        rw [← ih, List.filter_filter, List.filter_filter]
        exact List.filter_congr fun b _ => Bool.and_comm _ _
      rw [mergeSort_cons_eq hTrans hTotal, List.filter_append, List.filter_cons_of_pos hKept,
        List.filter_cons_of_pos hKept, hSwap, hSwap, mergeSort_cons_eq hTrans hTotal]
    · obtain ⟨before, behind, hCons, hRest, -⟩ := List.mergeSort_cons hTrans hTotal a rest
      rw [List.filter_cons_of_neg hKept, ← ih, hCons, hRest, List.filter_append,
        List.filter_append, List.filter_cons_of_neg hKept]

/-- Elements of one rank keep what holds between them in the order before the sort. -/
theorem pairwise_mergeSort_of_pairwise {R : α → α → Prop} {l : List α} (hOrder : l.Pairwise R) :
    (l.mergeSort le).Pairwise fun a b => le a b = true ∧ (le b a = true → R a b) := by
  induction l with
  | nil => simp
  | cons a rest ih =>
    obtain ⟨hFirst, hRest⟩ := List.pairwise_cons.1 hOrder
    have hSorted := List.pairwise_mergeSort hTrans hTotal (a :: rest)
    obtain ⟨before, behind, hCons, hOld, hBefore⟩ := List.mergeSort_cons hTrans hTotal a rest
    have hMem : ∀ b ∈ behind, b ∈ rest := fun b hb =>
      List.mem_mergeSort.1 (hOld ▸ List.mem_append_right before hb)
    have hRanked := ih hRest
    rw [hOld, List.pairwise_append] at hRanked
    rw [hCons, List.pairwise_append, List.pairwise_cons] at hSorted ⊢
    obtain ⟨-, ⟨hBehind, -⟩, hAcross⟩ := hSorted
    refine ⟨hRanked.1, ⟨fun b hb => ⟨hBehind b hb, fun _ => hFirst b (hMem b hb)⟩, hRanked.2.1⟩,
      fun b hb c hc => ?_⟩
    rcases List.mem_cons.1 hc with rfl | hc
    -- What the sort puts in front of a new first element ranks strictly higher, so there is no tie.
    · exact ⟨hAcross b hb c (by simp), fun hTie => absurd (hBefore b hb) (by simp [hTie])⟩
    · exact hRanked.2.2 b hb c hc

end StableSort

namespace Report

/-- The first of two duplicates may stand before the second. -/
def ranks (a b : Duplicate) : Bool :=
  b.count ≤ a.count

theorem ranks_trans (a b c : Duplicate) (hab : ranks a b = true) (hbc : ranks b c = true) :
    ranks a c = true := by
  simp only [ranks, decide_eq_true_eq] at *
  omega

theorem ranks_total (a b : Duplicate) : (ranks a b || ranks b a) = true := by
  simp only [ranks, Bool.or_eq_true, decide_eq_true_eq]
  omega

/-- The largest duplicates come first, and in between those of one size what holds between their
groups. -/
theorem pairwise_sortedDuplicates {rules : RuleSet} {groups : List Group}
    {R : Duplicate → Duplicate → Prop} (hOrder : (groups.filterMap (duplicate? rules)).Pairwise R) :
    (sortedDuplicates rules groups).Pairwise fun a b =>
      b.count ≤ a.count ∧ (a.count = b.count → R a b) := by
  have hRanked := pairwise_mergeSort_of_pairwise ranks_trans ranks_total hOrder
  simp only [ranks, decide_eq_true_eq] at hRanked
  exact hRanked.imp fun ⟨hCount, hTie⟩ => ⟨hCount, fun hSame => hTie (Nat.le_of_eq hSame)⟩

/-- Duplicates may as well be left out before they are sorted. -/
theorem filter_sortedDuplicates (rules : RuleSet) (groups : List Group) (p : Duplicate → Bool) :
    (sortedDuplicates rules groups).filter p =
      ((groups.filterMap (duplicate? rules)).filter p).mergeSort ranks :=
  filter_mergeSort ranks_trans ranks_total p _

end Report

end Homonym
