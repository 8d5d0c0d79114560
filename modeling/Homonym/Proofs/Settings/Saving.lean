import Homonym.Proofs.FileTree.FreshDirs
import Homonym.Settings.Write

/-!
# Saving without force

Saving without force is meant to leave alone what is there. Whether something is there is asked
before the directories above the path are made, and the file is written after that, so the two may
look at different places. A file that lies behind a new directory and a step up, as in
`new/../namedupe.toml`, is replaced.

* `keepsFiles_write_iff`: writing changes a file only if the path leads to one.
* `leadsBackTo_of_free`: with directories made, a path without steps up leads to no file that it did
  not lead to before.
* `Settings.save_without_force`: what saving does to a tree, whatever comes of the attempt, and
  exactly when it leaves every file as it was.
-/

namespace Homonym

namespace FileTree

variable {tree : FileTree} {path : String}

/-- Every file of a tree is in another one, and holds the same. -/
def KeepsFiles (tree after : FileTree) : Prop :=
  ∀ place content, tree.at? place = some (.file content) → after.at? place = some (.file content)

theorem keepsFiles_iff {after : FileTree} :
    tree.KeepsFiles after ↔ ∀ place content, tree.form? place = some (.file content) →
      after.form? place = some (.file content) := by
  simp only [KeepsFiles, form?_eq_file_iff]

theorem KeepsFiles.refl (tree : FileTree) : tree.KeepsFiles tree :=
  fun _ _ hAt => hAt

theorem GainsDirs.keepsFiles {grown : FileTree} (hGains : tree.GainsDirs grown) :
    tree.KeepsFiles grown :=
  keepsFiles_iff.2 fun _ _ => hGains.file_iff.2

/-- New directories hide no file from what comes after. -/
theorem GainsDirs.keepsFiles_iff {grown after : FileTree} (hGains : tree.GainsDirs grown) :
    tree.KeepsFiles after ↔ grown.KeepsFiles after := by
  simp only [FileTree.keepsFiles_iff, hGains.file_iff]

/-! ## Writing over a file -/

/-- A path that leads to a file can be written to. -/
theorem write_of_read {old : Content} (hRead : tree.read path = .ok old) (content : Content) :
    ∃ after, tree.write path content = .ok after := by
  obtain ⟨place, hResolve, hFile⟩ := read_eq_ok_iff.1 hRead
  obtain ⟨hRefusal, hRelative, hLeads⟩ := resolve_eq_ok_iff.1 hResolve
  have hMake : tree.resolve .make path = .ok (.found place) :=
    resolve_eq_ok_iff.2 ⟨hRefusal, hRelative, hLeads.make rfl hFile⟩
  have hAt := form?_eq_file_iff.1 hFile
  rw [write, hMake]
  cases hLast : place.getLast? with
  | some name => simp [hAt, hLast]
  | none =>
    -- The first move is taken from the top, which is no file then.
    obtain ⟨move, rest, hMoves⟩ : ∃ move rest, moves path = move :: rest :=
      List.exists_cons_of_ne_nil (by simp [moves, Path.split_ne_nil])
    have hTop := (hMoves ▸ hLeads).form?_start
    rw [List.getLast?_eq_none_iff.1 hLast, hTop] at hFile
    cases hFile

/-- **Writing keeps all files, unless the path leads to one that holds something else.** -/
theorem keepsFiles_write_iff {content : Content} {after : FileTree}
    (hWrite : tree.write path content = .ok after) :
    tree.KeepsFiles after ↔ ∀ old, tree.read path = .ok old → old = content := by
  obtain ⟨spot, dir, name, hResolve, hPlace, hDir, hFree, rfl⟩ := write_cases hWrite
  obtain ⟨hRefusal, hRelative, hLeads⟩ := resolve_eq_ok_iff.1 hResolve
  have hLook := resolve_eq_ok_iff.2 ⟨hRefusal, hRelative, hLeads.look⟩
  have hWritten : form? (tree.insert dir name (.file content)) (dir ++ [name]) =
      some (.file content) := form?_insert_under hDir name _ []
  have hRead : ∀ old, tree.read path = .ok old ↔
      tree.form? (dir ++ [name]) = some (.file old) := by
    intro old
    rw [read_eq_ok_iff]
    constructor
    · rintro ⟨place, hFound, hFile⟩
      rw [hLook, Except.ok.injEq] at hFound
      rw [← hPlace, hFound]
      exact hFile
    · intro hFile
      rcases hFree with hNone | ⟨rfl, -⟩
      · rw [hNone] at hFile
        cases hFile
      · exact ⟨_, hLook, hFile⟩
  rw [keepsFiles_iff]
  constructor
  · intro hKeeps old hOld
    have hKept := hKeeps _ _ ((hRead old).1 hOld)
    rw [hWritten] at hKept
    cases hKept
    rfl
  · intro hSame place old hOld
    by_cases hUnder : IsUnder dir name place
    · obtain ⟨rest, rfl⟩ := hUnder
      rw [List.append_assoc, List.singleton_append] at hOld ⊢
      cases rest with
      | nil => rwa [hSame old ((hRead old).2 hOld)]
      | cons first rest =>
        rw [← List.singleton_append, ← List.append_assoc] at hOld
        rcases hFree with hNone | ⟨-, own, hFile⟩
        · simp [form?_front hOld] at hNone
        · simp [form?_front hOld] at hFile
    · exact (form?_insert_apart hDir _ hUnder).trans hOld

/-! ## Making directories -/

theorem makeDirsWithin_of_makeDir {made : FileTree} (hPath : path.isEmpty = false)
    (hMake : tree.makeDir path = .ok made) (bound : Nat) :
    tree.makeDirsWithin (bound + 1) path = (.ok (), made) := by
  simp only [makeDirsWithin, hPath, Bool.false_eq_true, if_false, hMake]

end FileTree

namespace Settings

open FileTree

variable {tree : FileTree} {path : String}

/-! ## Making room -/

theorem gainsDirs_makeRoom (tree : FileTree) (path : String) :
    tree.GainsDirs (makeRoom tree path).2 := by
  rw [makeRoom]
  cases Path.parent? path with
  | none => exact .refl tree
  | some parent => exact gainsDirs_makeDirsWithin _ tree parent

/-- Room is there already, or directories are made. -/
theorem makeRoom_cases {room : FileTree} (hRoom : makeRoom tree path = (.ok (), room)) :
    room = tree ∨ ∃ parent, Path.parent? path = some parent ∧ parent ≠ "" ∧
      tree.makeDirs parent = (.ok (), room) := by
  rw [makeRoom] at hRoom
  cases hParent : Path.parent? path with
  | none =>
    rw [hParent] at hRoom
    cases hRoom
    exact .inl rfl
  | some parent =>
    have hMade : (tree.makeDirs parent).2 = room := by
      rw [hParent] at hRoom
      exact congrArg Prod.snd hRoom
    by_cases hTop : parent = ""
    · subst hTop
      exact .inl hMade.symm
    · refine .inr ⟨parent, rfl, hTop, Prod.ext ?_ hMade⟩
      have hOk : (tree.makeDirs parent).1.mapError (fun e => WriteFailure.io parent e.message) =
          .ok () := by
        rw [hParent] at hRoom
        exact congrArg Prod.fst hRoom
      cases hResult : (tree.makeDirs parent).1 with
      | ok => rfl
      | error e =>
        rw [hResult] at hOk
        cases hOk

/-- Room is made by making the directories above. -/
theorem makeRoom_of_makeDirs {parent : String} {room : FileTree}
    (hParent : Path.parent? path = some parent) (hDirs : tree.makeDirs parent = (.ok (), room)) :
    makeRoom tree path = (.ok (), room) := by
  simp only [makeRoom, hParent, hDirs]
  rfl

/-- With the directories above it made, the path leads to a file with this content. -/
def LeadsBackTo (tree : FileTree) (path : String) (content : Content) : Prop :=
  ∃ room, makeRoom tree path = (.ok (), room) ∧ room.read path = .ok content

/-- Without steps up, the path leads to no file that it did not lead to before. -/
theorem pathExists_of_leadsBackTo (hUp : .up ∉ Path.components path) {content : Content}
    (hBack : LeadsBackTo tree path content) : tree.pathExists path = true := by
  obtain ⟨room, hRoom, hRead⟩ := hBack
  obtain ⟨place, hResolve, -⟩ := read_eq_ok_iff.1 hRead
  rcases makeRoom_cases hRoom with rfl | ⟨parent, hParent, hTop, hMake⟩
  · exact pathExists_of_read hRead
  · have hUpAbove : .up ∉ Path.components parent := by
      rw [Path.components_parent? hParent]
      exact fun hMem => hUp ((List.dropLast_sublist _).subset hMem)
    rcases leadsToEmpty_makeDirsWithin _ tree parent hUpAbove hMake with rfl | hEmpty
    · exact pathExists_of_read hRead
    · exact absurd hResolve (hEmpty.not_found hParent hTop hUp place)

/-! ## Saving -/

/-- What comes of saving at a path that may be written to. -/
inductive Attempt (s : Settings) (tree : FileTree) (path : String) :
    Except WriteFailure Unit × FileTree → Prop
  /-- A directory could not be made. Others may have been. -/
  | noRoom {e : WriteFailure} {room : FileTree} (hRoom : makeRoom tree path = (.error e, room)) :
      Attempt s tree path (.error e, room)
  | unwritten {e : OsError} {room : FileTree} (hRoom : makeRoom tree path = (.ok (), room))
      (hWrite : room.write path (.text s.toToml) = .error e) :
      Attempt s tree path (.error (.io path e.message), room)
  | written {room after : FileTree} (hRoom : makeRoom tree path = (.ok (), room))
      (hWrite : room.write path (.text s.toToml) = .ok after) :
      Attempt s tree path (.ok (), after)

theorem save_of_not_mayWrite (s : Settings) {force : Bool}
    (hMay : mayWrite tree path force = false) :
    s.save tree path force = (.error (.alreadyExists path), tree) := by
  rw [save, hMay]
  rfl

theorem attempt_save (s : Settings) {force : Bool} (hMay : mayWrite tree path force = true) :
    Attempt s tree path (s.save tree path force) := by
  rw [save, hMay, if_neg (by simp)]
  rcases hRoom : makeRoom tree path with ⟨e | ⟨⟩, room⟩
  · exact .noRoom hRoom
  · simp only
    cases hWrite : room.write path (.text s.toToml) with
    | error e => exact .unwritten hRoom hWrite
    | ok after => exact .written hRoom hWrite

/-- An attempt that fails makes directories at most. -/
theorem Attempt.gainsDirs {s : Settings} {attempt : Except WriteFailure Unit × FileTree}
    (hAttempt : Attempt s tree path attempt) {e : WriteFailure} (hError : attempt.1 = .error e) :
    tree.GainsDirs attempt.2 := by
  have hGains := gainsDirs_makeRoom tree path
  cases hAttempt with
  | noRoom hRoom | unwritten hRoom => rwa [hRoom] at hGains
  | written => cases hError

/-- The text of the settings is read back from the path. -/
theorem Attempt.readText {s : Settings} {attempt : Except WriteFailure Unit × FileTree}
    (hAttempt : Attempt s tree path attempt) (hOk : attempt.1 = .ok ()) :
    attempt.2.readText path = .ok s.toToml := by
  cases hAttempt with
  | noRoom | unwritten => cases hOk
  | written _ hWrite => exact readText_write hWrite

/-- An attempt changes a file only if new directories lead the path back to it. -/
theorem Attempt.keepsFiles_iff {s : Settings} {attempt : Except WriteFailure Unit × FileTree}
    (hAttempt : Attempt s tree path attempt) :
    tree.KeepsFiles attempt.2 ↔
      ∀ content, LeadsBackTo tree path content → content = .text s.toToml := by
  have hGains := gainsDirs_makeRoom tree path
  cases hAttempt with
  | noRoom hRoom =>
    rw [hRoom] at hGains
    refine iff_of_true hGains.keepsFiles ?_
    rintro content ⟨other, hOther, -⟩
    rw [hRoom] at hOther
    cases hOther
  | unwritten hRoom hWrite =>
    rw [hRoom] at hGains
    refine iff_of_true hGains.keepsFiles ?_
    rintro content ⟨other, hOther, hRead⟩
    rw [hRoom] at hOther
    cases hOther
    obtain ⟨after, hAfter⟩ := write_of_read hRead (.text s.toToml)
    rw [hWrite] at hAfter
    cases hAfter
  | @written room after hRoom hWrite =>
    rw [hRoom] at hGains
    have hBack : ∀ content, LeadsBackTo tree path content ↔ room.read path = .ok content := by
      intro content
      simp only [LeadsBackTo, hRoom, Prod.mk.injEq, true_and, exists_eq_left']
    rw [hGains.keepsFiles_iff, keepsFiles_write_iff hWrite]
    simp only [hBack]

/-- Settings that were saved are read back as their text. -/
theorem readText_of_save {s : Settings} {force : Bool} {after : FileTree}
    (hSave : s.save tree path force = (.ok (), after)) : after.readText path = .ok s.toToml := by
  cases hMay : mayWrite tree path force with
  | false =>
    rw [save_of_not_mayWrite s hMay] at hSave
    cases hSave
  | true =>
    have hAttempt := attempt_save s hMay
    rw [hSave] at hAttempt
    exact hAttempt.readText rfl

/-- **Saving without force.** What the path leads to is refused, and then the tree is as it was.
What was saved is read back. A failed attempt changes no file. Any attempt leaves all files as they
were if and only if it is refused, or the directories that it makes do not lead the path back to a
file with another text. In particular it does so if the path has no steps up. -/
theorem save_without_force (s : Settings) (tree : FileTree) (path : String) :
    let attempt := s.save tree path false
    (tree.pathExists path = true → attempt = (.error (.alreadyExists path), tree)) ∧
      (attempt.1 = .ok () → attempt.2.readText path = .ok s.toToml) ∧
      (∀ e, attempt.1 = .error e → tree.KeepsFiles attempt.2) ∧
      (tree.KeepsFiles attempt.2 ↔ tree.pathExists path = true ∨
        ∀ content, LeadsBackTo tree path content → content = .text s.toToml) ∧
      (.up ∉ Path.components path → tree.KeepsFiles attempt.2) := by
  intro attempt
  cases hExists : tree.pathExists path with
  | true =>
    have hSave : attempt = (.error (.alreadyExists path), tree) :=
      save_of_not_mayWrite s (by simp [mayWrite, hExists])
    rw [hSave]
    exact ⟨fun _ => rfl, nofun, fun _ _ => .refl tree,
      iff_of_true (.refl tree) (.inl rfl), fun _ => .refl tree⟩
  | false =>
    have hAttempt : Attempt s tree path attempt := attempt_save s (by simp [mayWrite, hExists])
    refine ⟨nofun, hAttempt.readText, fun e hError => (hAttempt.gainsDirs hError).keepsFiles, ?_,
      fun hUp => hAttempt.keepsFiles_iff.2 fun content hBack => ?_⟩
    · rw [hAttempt.keepsFiles_iff]
      simp
    · have hBefore := pathExists_of_leadsBackTo hUp hBack
      rw [hExists] at hBefore
      cases hBefore

section BesideFile

variable {content : Content}

theorem makeDir_beside_file : FileTree.makeDir (.dir [("a", .file content)]) "b" =
    .ok (.dir [("a", .file content), ("b", .dir [])]) := by
  have hMoves : moves (trimSlashes "b") = [.down "b"] := by decide
  simp only [makeDir, resolveParent, hMoves, List.dropLast, follow]
  rfl

/-- The new directory is stepped into. -/
theorem leads_into_room {purpose : Purpose} {links : Nat} {rest : List Move} {spot : Spot}
    (hBarred : purpose.isBarred rest = false)
    (hRest : Leads (.dir [("a", .file content), ("b", .dir [])]) purpose links ["b"] rest spot) :
    Leads (.dir [("a", .file content), ("b", .dir [])]) purpose links [] (.down "b" :: rest) spot :=
  .down (by decide) hBarred rfl (by simp [Node.form]) hRest

/-- The step up needs the directory before it, which is made first. -/
theorem makeDirs_step_up : FileTree.makeDirs (.dir [("a", .file content)]) "b/.." =
    (.ok (), .dir [("a", .file content), ("b", .dir [])]) := by
  have hTrimmed : moves (trimSlashes "b/..") = [.down "b", .up] := by decide
  have hMissing : FileTree.makeDir (.dir [("a", .file content)]) "b/.." = .error .notFound := by
    simp only [makeDir, resolveParent, hTrimmed, List.dropLast, follow]
    rfl
  let room : FileTree := .dir [("a", .file content), ("b", .dir [])]
  have hThere : room.makeDir "b/.." = .error .exists := by
    have hFollow : room.follow .look linkLimit [] [.down "b"] = .ok (.found ["b"]) :=
      follow_eq_ok_iff.2 (leads_into_room rfl .nil)
    simp only [makeDir, resolveParent, hTrimmed, List.dropLast, hFollow]
    rfl
  have hIsDir : room.isDir "b/.." = true := by
    have hMoves : moves "b/.." = [.down "b", .up] := by decide
    have hResolve : room.resolve .look "b/.." = .ok (.found []) := by
      rw [resolve_eq_ok_iff, hMoves]
      exact ⟨by decide, by decide, leads_into_room rfl (.up rfl .nil)⟩
    simp only [isDir, lookup, hResolve]
    rfl
  have hAbove : Path.parent? "b/.." = some "b" := by decide
  have hLength : "b/..".length = 3 + 1 := by decide
  rw [makeDirs, makeDirsWithin, if_neg (by decide), hMissing]
  simp only [hAbove, hLength]
  rw [makeDirsWithin_of_makeDir (by decide) makeDir_beside_file]
  simp only [room] at hThere hIsDir
  simp only [hThere, hIsDir, if_true]

end BesideFile

/-- Settings saved in a new directory, next to a file. -/
theorem save_in_new_directory :
    let s : Settings := { includeInternal := true }
    let tree : FileTree := .dir [("a", .file (.text "mine"))]
    let attempt := s.save tree "b/a" false
    .up ∉ Path.components "b/a" ∧ attempt.1 = .ok () ∧
      attempt.2.readText "b/a" = .ok s.toToml ∧ tree.KeepsFiles attempt.2 := by
  intro s tree attempt
  have hUp : .up ∉ Path.components "b/a" := by decide
  have hMoves : moves "b/a" = [.down "b", .down "a"] := by decide
  have hFree : tree.pathExists "b/a" = false := by
    rw [pathExists, lookup, resolve_eq_follow (by decide) (by decide), hMoves, follow]
    rfl
  let room : FileTree := .dir [("a", .file (.text "mine")), ("b", .dir [])]
  have hRoom : makeRoom tree "b/a" = (.ok (), room) :=
    makeRoom_of_makeDirs (by decide) (makeDirsWithin_of_makeDir (by decide) makeDir_beside_file _)
  have hResolve : room.resolve .make "b/a" = .ok (.vacant ["b"] "a") := by
    rw [resolve_eq_ok_iff, hMoves]
    exact ⟨by decide, by decide, leads_into_room rfl (.vacant rfl (by decide) rfl)⟩
  have hOk : attempt.1 = .ok () := by
    simp only [attempt, save, mayWrite, hFree, hRoom, write, hResolve]
    rfl
  obtain ⟨-, hRead, -, -, hKeeps⟩ := save_without_force s tree "b/a"
  exact ⟨hUp, hOk, hRead hOk, hKeeps hUp⟩

/-- A file behind a new directory and a step up is overwritten. -/
theorem save_overwrites_behind_step_up :
    let s : Settings := {}
    let tree : FileTree := .dir [("a", .file (.text "mine"))]
    let attempt := s.save tree "b/../a" false
    tree.pathExists "b/../a" = false ∧ attempt.1 = .ok () ∧
      tree.at? ["a"] = some (.file (.text "mine")) ∧
      attempt.2.at? ["a"] = some (.file (.text s.toToml)) ∧ s.toToml ≠ "mine" := by
  intro s tree attempt
  have hMoves : moves "b/../a" = [.down "b", .up, .down "a"] := by decide
  have hFree : tree.pathExists "b/../a" = false := by
    rw [pathExists, lookup, resolve_eq_follow (by decide) (by decide), hMoves, follow]
    rfl
  let room : FileTree := .dir [("a", .file (.text "mine")), ("b", .dir [])]
  have hRoom : makeRoom tree "b/../a" = (.ok (), room) :=
    makeRoom_of_makeDirs (by decide) makeDirs_step_up
  have hResolve : room.resolve .make "b/../a" = .ok (.found ["a"]) := by
    have hFile : room.form? ["a"] = some (.file (.text "mine")) := rfl
    have hNoLink : ∀ target, Form.file (.text "mine") ≠ .link target := by simp
    rw [resolve_eq_ok_iff, hMoves]
    exact ⟨by decide, by decide,
      leads_into_room rfl (.up rfl (.down (by decide) rfl hFile hNoLink .nil))⟩
  have hSave : attempt = (.ok (), .dir [("a", .file (.text s.toToml)), ("b", .dir [])]) := by
    simp only [attempt, save, mayWrite, hFree, hRoom, write, hResolve]
    rfl
  have hText : s.toToml ≠ "mine" := fun hMine => by
    have hHead := congrArg (·.toList.head?) hMine
    simp only [toToml, Toml.entry, String.toList_append, List.append_assoc] at hHead
    cases hHead
  rw [hSave]
  exact ⟨hFree, rfl, rfl, rfl, hText⟩

end Settings

end Homonym
