import Mathlib.Data.List.Nodup
import Homonym.Proofs.Discovery.Reach
import Homonym.Proofs.Scan.Refinement

/-!
# The files that a scan walks

A walk goes down through directories and, if links are followed, through what they lead to, so it
may come to one file on several ways. Each way has a path of its own. In a proper tree, where a
directory gives each of its names once, the files of a walk therefore have different names
(`nodup_name_walkedFiles`), and sorting them puts them in strictly increasing order
(`pairwise_lt_walkedFiles`).

`Walk.successes_below_succ` takes a walk apart level by level, without the entries that cannot be
used.
-/

namespace Homonym

/-! ## Proper trees -/

namespace Node

/-- Every directory has proper names for its entries, and each name once. Links may lead
anywhere. -/
inductive Proper : Node → Prop where
  | file (content : Content) : Proper (.file content)
  | link (target : String) : Proper (.link target)
  | dir {entries : List (String × Node)} (hNames : ∀ e ∈ entries, Path.isName e.1 = true)
      (hDistinct : (entries.map Prod.fst).Nodup) (hInner : ∀ e ∈ entries, Proper e.2) :
      Proper (.dir entries)

theorem Proper.at? {node found : Node} {place : Place} (hProper : node.Proper)
    (hAt : node.at? place = some found) : found.Proper := by
  induction place generalizing node with
  | nil =>
    simp only [Node.at?, Option.some.injEq] at hAt
    exact hAt ▸ hProper
  | cons name rest ih =>
    cases hProper with
    | file content => simp [Node.at?] at hAt
    | link target => simp [Node.at?] at hAt
    | dir _ _ hInner =>
      simp only [Node.at?] at hAt
      split at hAt
      · rename_i child hEntry
        obtain ⟨e, hFind, rfl⟩ := Option.map_eq_some_iff.1 hEntry
        exact ih (hInner e (List.mem_of_find?_eq_some hFind)) hAt
      · cases hAt

theorem Proper.lookup {tree : FileTree} {path : String} {node : Node} (hProper : tree.Proper)
    (hLookup : tree.lookup path = .ok node) : node.Proper := by
  obtain ⟨-, -, place, -, hAt⟩ := FileTree.lookup_eq_ok hLookup
  exact hProper.at? hAt

end Node

open Scan (successes)

namespace Discovery.Walk

/-! ## One level -/

variable (w : Walk)

/-- The paths of the files at and below an entry, by what the entry stands for. -/
def pathsAt (bound : Nat) (above : List String) (path : String) :
    Except FileError Node → List String
  | .ok (.dir inner) => if w.enters path then successes (w.below bound above path inner) else []
  | .ok (.file _) => if w.wants path then [path] else []
  | .ok (.link _) => []
  | .error _ => []

/-- The paths of the files at and below an entry of a directory. -/
def pathsOf (bound : Nat) (above : List String) (dir : String) (e : String × Node) :
    List String :=
  w.pathsAt bound above (Path.join dir e.1) (w.resolveEntry above (Path.join dir e.1) e.2)

theorem successes_below_succ (bound : Nat) (above : List String) (dir : String)
    (entries : List (String × Node)) :
    successes (w.below (bound + 1) above dir entries) =
      (entries.filter fun e => !w.skips e.1).flatMap (w.pathsOf bound (above ++ [dir]) dir) := by
  rw [below, successes, List.filterMap_append]
  refine (congrArg₂ (· ++ ·) ?files ?errors).trans (List.append_nil _)
  case errors =>
    refine List.filterMap_eq_nil_iff.2 fun outcome hMem => ?_
    obtain ⟨⟨path, entry⟩, -, hEntry⟩ := List.mem_filterMap.1 hMem
    cases entry with
    | ok node => cases hEntry
    | error e =>
      cases hEntry
      rfl
  case files =>
    rw [List.filterMap_flatMap, entriesOf, List.flatMap_map]
    refine List.flatMap_congr fun e _ => ?_
    simp only [pathsOf]
    cases w.resolveEntry (above ++ [dir]) (Path.join dir e.1) e.2 with
    | error e => rfl
    | ok found =>
      cases found with
      | link target => rfl
      | file content =>
        simp only [pathsAt]
        split <;> rfl
      | dir inner =>
        simp only [pathsAt]
        split <;> rfl

/-! ## All levels -/

/-- The paths are those of different places below a directory. -/
def Apart (dir : String) (paths : List String) : Prop :=
  ∃ places : List Place, paths = places.map (Path.below dir) ∧ places.Nodup ∧
    ∀ place ∈ places, place ≠ [] ∧ ∀ name ∈ place, Path.isName name = true

/-- The paths are those of different places at and below an entry of a directory. -/
def ApartAt (dir name : String) (paths : List String) : Prop :=
  ∃ places : List Place, paths = places.map (fun place => Path.below dir (name :: place)) ∧
    places.Nodup ∧ ∀ place ∈ places, ∀ name ∈ place, Path.isName name = true

theorem Apart.nil (dir : String) : Apart dir [] :=
  ⟨[], rfl, .nil, by simp⟩

theorem ApartAt.nil (dir name : String) : ApartAt dir name [] :=
  ⟨[], rfl, .nil, by simp⟩

/-- Places below different entries are different. -/
theorem Apart.flatMap {dir : String} {entries : List (String × Node)}
    {paths : String × Node → List String} (hNames : ∀ e ∈ entries, Path.isName e.1 = true)
    (hDistinct : (entries.map Prod.fst).Nodup)
    (hApart : ∀ e ∈ entries, ApartAt dir e.1 (paths e)) : Apart dir (entries.flatMap paths) := by
  choose! places hPaths hNodup hPlaces using hApart
  refine ⟨entries.flatMap fun e => (places e).map (e.1 :: ·), ?_, ?_, ?_⟩
  · rw [List.map_flatMap]
    refine List.flatMap_congr fun e he => ?_
    rw [hPaths e he, List.map_map]
    rfl
  · refine List.nodup_flatMap.2 ⟨fun e he => (hNodup e he).map fun a b hEq => ?_, ?_⟩
    · exact (List.cons.inj hEq).2
    · refine (List.pairwise_map.1 hDistinct).imp fun {e e'} hNe place hLeft hRight => ?_
      obtain ⟨a, -, rfl⟩ := List.mem_map.1 hLeft
      obtain ⟨b, -, hEq⟩ := List.mem_map.1 hRight
      exact hNe (List.cons.inj hEq).1.symm
  · intro place hMem
    obtain ⟨e, he, hMem⟩ := List.mem_flatMap.1 hMem
    obtain ⟨more, hMore, rfl⟩ := List.mem_map.1 hMem
    exact ⟨List.cons_ne_nil _ _, List.forall_mem_cons.2 ⟨hNames e he, hPlaces e he more hMore⟩⟩

variable {w}

theorem proper_of_resolveEntry (hTree : w.tree.Proper) {node found : Node} (hNode : node.Proper)
    {above : List String} {path : String}
    (hEntry : w.resolveEntry above path node = .ok found) : found.Proper := by
  cases hNode with
  | file content =>
    cases hEntry
    exact .file content
  | dir hNames hDistinct hInner =>
    cases hEntry
    exact .dir hNames hDistinct hInner
  | link target =>
    simp only [resolveEntry] at hEntry
    split at hEntry
    · split at hEntry
      · cases hEntry
      · rename_i hLookup
        split at hEntry
        · cases hEntry
        · cases hEntry
          exact hTree.lookup hLookup
    · cases hEntry
      exact .link target

theorem apart_below (hTree : w.tree.Proper) (bound : Nat) (above : List String) (dir : String)
    {entries : List (String × Node)} (hProper : (Node.dir entries).Proper) :
    Apart dir (successes (w.below bound above dir entries)) := by
  induction bound generalizing above dir entries with
  | zero => exact .nil dir
  | succ bound ih =>
    obtain _ | _ | ⟨hNames, hDistinct, hInner⟩ := hProper
    have hKept : (entries.filter fun e => !w.skips e.1).Sublist entries := List.filter_sublist
    rw [successes_below_succ]
    refine Apart.flatMap (fun e he => hNames e (hKept.subset he))
      (hDistinct.sublist (hKept.map _)) fun e he => ?_
    have hNode : e.2.Proper := hInner e (hKept.subset he)
    rw [pathsOf]
    cases hEntry : w.resolveEntry (above ++ [dir]) (Path.join dir e.1) e.2 with
    | error failure => exact .nil dir e.1
    | ok found =>
      have hFound := proper_of_resolveEntry hTree hNode hEntry
      cases found with
      | link target => exact .nil dir e.1
      | file content =>
        rw [pathsAt]
        split
        · exact ⟨[[]], rfl, List.nodup_singleton _, by simp⟩
        · exact .nil dir e.1
      | dir inner =>
        rw [pathsAt]
        split
        -- The directory may be walked on another way too, but not below this entry's name.
        · obtain ⟨places, hPaths, hNodup, hPlaces⟩ := ih (above ++ [dir]) (Path.join dir e.1) hFound
          exact ⟨places, hPaths, hNodup, fun place hMem => (hPlaces place hMem).2⟩
        · exact .nil dir e.1

theorem apart_outcomes (hTree : w.tree.Proper) : Apart w.root (successes w.outcomes) := by
  unfold outcomes
  split
  · exact .nil _
  · rename_i hLookup
    split
    · exact .nil _
    · exact apart_below hTree _ _ _ (hTree.lookup hLookup)
  · exact .nil _

end Discovery.Walk

/-! ## Names -/

namespace Scan

open Discovery

theorem nodup_relative_of_apart {root : String} {paths : List String} (hRoot : root ≠ "")
    (hApart : Walk.Apart root paths) : (paths.map (Path.relative root)).Nodup := by
  obtain ⟨places, rfl, hNodup, hPlaces⟩ := hApart
  rw [List.map_map]
  refine List.Nodup.map_on ?_ hNodup
  intro a ha b hb hSame
  obtain ⟨hSome, hNames⟩ := hPlaces a ha
  obtain ⟨hSome', hNames'⟩ := hPlaces b hb
  simp only [Function.comp_apply, Path.relative_below hRoot hSome hNames,
    Path.relative_below hRoot hSome' hNames'] at hSame
  exact Path.intercalate_inj hSome hSome' hNames hNames' hSame

/-- What a walk finds in a proper tree has different paths from its root. -/
theorem nodup_relative_walk {tree : FileTree} (hProper : tree.Proper) (request : ScanRequest)
    (root : String) :
    ((successes (walk tree request.discovery root)).map (Path.relative root)).Nodup := by
  rw [walk, prepare_fst]
  cases hLookup : tree.lookup root with
  | ok node =>
    exact nodup_relative_of_apart (Walk.root_ne_empty hLookup) (Walk.apart_outcomes hProper)
  | error e =>
    rw [Walk.outcomes, hLookup]
    exact .nil

/-- **No two files of a scan have one name.** -/
theorem nodup_name_walkedFiles {tree : FileTree} (hProper : tree.Proper) (request : ScanRequest)
    (root : String) : ((walkedFiles tree request root).map SourceFile.name).Nodup := by
  have hPerm : ((walkedFiles tree request root).map SourceFile.name).Perm
      ((successes (walk tree request.discovery root)).map (Path.relative root)) := by
    rw [walkedFiles, sortFiles]
    refine ((List.mergeSort_perm _ _).map _).trans (List.Perm.of_eq ?_)
    rw [List.map_map]
    rfl
  exact hPerm.nodup_iff.2 (nodup_relative_walk hProper request root)

/-- **The files of a scan are in strictly increasing order of their names.** -/
theorem pairwise_lt_walkedFiles {tree : FileTree} (hProper : tree.Proper) (request : ScanRequest)
    (root : String) :
    (walkedFiles tree request root).Pairwise fun a b => a.name < b.name := by
  have hSorted : (walkedFiles tree request root).Pairwise fun a b => a.name ≤ b.name :=
    pairwise_sortFiles _
  have hDistinct := List.pairwise_map.1 (nodup_name_walkedFiles hProper request root)
  refine (hSorted.and hDistinct).imp fun ⟨hLe, hNe⟩ => ?_
  exact String.not_le.1 fun hGe => hNe (String.le_antisymm hLe hGe)

end Scan

end Homonym
