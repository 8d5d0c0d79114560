import Homonym.Proofs.Render.Outline

/-!
# Colour is only decoration

A terminal shows a text without its style sequences: escape, bracket, digits and semicolons, `m`.
What is left when all of them are deleted is said twice, by a relation (`Stripped`) and by a
function (`strip`), which agree (`stripped_iff`).

A coloured report without its sequences is the report without colour (`strip_console`). A painted
text decorates the plain one (`Decorates`): whatever follows, it is stripped to the plain text, and
stripping goes on behind it as from the start. That is kept by putting texts behind one another,
so it goes from the painted words up to the report. The texts of a report must not hold an escape
of their own, or it could begin a sequence with what follows, or be one.
-/

namespace Homonym.Render

/-! ## Style sequences -/

/-- The character may stand between the bracket and the end of a sequence. -/
def isParameter (c : Char) : Bool :=
  c.isDigit || c == ';'

/-- A sequence that sets the style of what follows. -/
inductive Sequence : List Char → Prop where
  | mk {parameters : List Char} (h : ∀ c ∈ parameters, isParameter c = true) :
      Sequence ('\x1b' :: '[' :: (parameters ++ ['m']))

/-- The second text is the first one with all sequences deleted, from left to right. -/
inductive Stripped : List Char → List Char → Prop where
  | nil : Stripped [] []
  | sequence {s rest out : List Char} (hs : Sequence s) (h : Stripped rest out) :
      Stripped (s ++ rest) out
  | keep {c : Char} {rest out : List Char} (hc : ∀ s, Sequence s → ¬s <+: c :: rest)
      (h : Stripped rest out) : Stripped (c :: rest) (c :: out)

/-- What follows the sequence that a text begins with. -/
def afterSequence? : List Char → Option (List Char)
  | '\x1b' :: '[' :: rest =>
    match rest.dropWhile isParameter with
    | 'm' :: after => some after
    | _ => none
  | _ => none

theorem afterSequence?_append {s : List Char} (hs : Sequence s) (rest : List Char) :
    afterSequence? (s ++ rest) = some rest := by
  obtain ⟨hParameters⟩ := hs
  rename_i parameters
  have hDrop : (parameters ++ 'm' :: rest).dropWhile isParameter = 'm' :: rest := by
    rw [List.dropWhile_append_of_pos hParameters]
    rfl
  simp [afterSequence?, hDrop]

theorem exists_sequence {text after : List Char} (h : afterSequence? text = some after) :
    ∃ s, Sequence s ∧ text = s ++ after := by
  unfold afterSequence? at h
  split at h
  · rename_i rest
    split at h
    · rename_i hDrop
      cases h
      have hParameters : ∀ c ∈ rest.takeWhile isParameter, isParameter c = true :=
        List.all_eq_true.1 List.all_takeWhile
      refine ⟨_, .mk hParameters, ?_⟩
      rw [List.cons_append, List.cons_append, List.append_assoc, List.singleton_append, ← hDrop,
        List.takeWhile_append_dropWhile]
    · cases h
  · cases h

theorem length_afterSequence? {text after : List Char} (h : afterSequence? text = some after) :
    after.length < text.length := by
  obtain ⟨s, ⟨_⟩, rfl⟩ := exists_sequence h
  simp only [List.cons_append, List.length_cons, List.length_append]
  omega

/-- The text without its sequences. -/
def strip : List Char → List Char
  | [] => []
  | c :: rest =>
    match _hAfter : afterSequence? (c :: rest) with
    | some after => strip after
    | none => c :: strip rest
termination_by text => text.length
decreasing_by
  · exact length_afterSequence? _hAfter
  · exact Nat.lt_succ_self _

theorem strip_cons_of_none {c : Char} {rest : List Char} (h : afterSequence? (c :: rest) = none) :
    strip (c :: rest) = c :: strip rest := by
  rw [strip]
  split
  · rename_i hSome
    rw [h] at hSome
    cases hSome
  · rfl

theorem strip_sequence {s : List Char} (hs : Sequence s) (rest : List Char) :
    strip (s ++ rest) = strip rest := by
  have hAfter := afterSequence?_append hs rest
  obtain ⟨hParameters⟩ := hs
  rw [List.cons_append] at hAfter ⊢
  rw [strip]
  split
  · rename_i hSome
    rw [hAfter] at hSome
    cases hSome
    rfl
  · rename_i hNone
    rw [hAfter] at hNone
    cases hNone

theorem stripped_strip (text : List Char) : Stripped text (strip text) := by
  fun_induction strip text with
  | case1 => exact .nil
  | case2 c rest after hAfter ih =>
    obtain ⟨s, hs, hText⟩ := exists_sequence hAfter
    rw [hText]
    exact .sequence hs ih
  | case3 c rest hAfter ih =>
    refine .keep (fun s hs hFront => ?_) ih
    obtain ⟨more, hMore⟩ := hFront
    rw [← hMore, afterSequence?_append hs] at hAfter
    cases hAfter

/-- **There is one way to delete all sequences.** -/
theorem stripped_iff {text out : List Char} : Stripped text out ↔ strip text = out := by
  refine ⟨fun h => ?_, fun h => h ▸ stripped_strip text⟩
  induction h with
  | nil => rw [strip]
  | sequence hs _ ih => rw [strip_sequence hs, ih]
  | @keep c rest out hc _ ih =>
    have hNone : afterSequence? (c :: rest) = none := by
      rw [Option.eq_none_iff_forall_ne_some]
      intro after hAfter
      obtain ⟨s, hs, hText⟩ := exists_sequence hAfter
      exact hc s hs ⟨after, hText.symm⟩
    rw [strip_cons_of_none hNone, ih]

/-! ## Decorated texts -/

/-- The painted text is the plain one but for sequences, whatever follows. -/
def Decorates (painted plain : String) : Prop :=
  ∀ rest out, Stripped rest out → Stripped (painted.toList ++ rest) (plain.toList ++ out)

theorem Decorates.append {a b c d : String} (h : Decorates a b) (h' : Decorates c d) :
    Decorates (a ++ c) (b ++ d) := by
  intro rest out hRest
  rw [String.toList_append, String.toList_append, List.append_assoc, List.append_assoc]
  exact h _ _ (h' _ _ hRest)

/-- A text without an escape stays as it is. -/
theorem decorates_plain {text : String} (h : Lacks '\x1b' text) : Decorates text text := by
  intro rest out hRest
  unfold Lacks at h
  generalize text.toList = chars at h ⊢
  induction chars with
  | nil => exact hRest
  | cons c chars ih =>
    obtain ⟨hc, hChars⟩ := not_or.1 (List.mem_cons.not.1 h)
    refine .keep (fun s hs hFront => ?_) (ih hChars)
    obtain ⟨_⟩ := hs
    exact hc (List.cons_prefix_cons.1 hFront).1

theorem isParameter_code (style : Style) : ∀ c ∈ style.code.toList, isParameter c = true := by
  refine List.all_eq_true.1 ?_
  cases style with
  | bold => decide
  | dim => decide
  | color c => cases c <;> decide

/-- A painted text decorates the text. -/
theorem decorates_paint (style : Style) {text : String} (h : Lacks '\x1b' text) :
    Decorates (paint true style text) (paint false style text) := by
  intro rest out hRest
  have hCode : Sequence ('\x1b' :: '[' :: (style.code.toList ++ ['m'])) :=
    .mk (isParameter_code style)
  have hReset : Sequence ('\x1b' :: '[' :: (['0'] ++ ['m'])) :=
    .mk (List.all_eq_true.1 (by decide))
  have hText := decorates_plain h _ _ (.sequence hReset hRest)
  simpa [paint] using Stripped.sequence hCode hText

/-! ## Reports -/

namespace Console

theorem decorates_head (s : Summary) : Decorates (head true s) (head false s) := by
  have hNumber : ∀ n : Nat, Lacks '\x1b' (toString n) := lacks_toString rfl
  unfold head
  simp only [String.append_assoc]
  refine .append (decorates_paint .bold (by decide)) (.append (decorates_plain (by decide))
    (.append (decorates_paint (.color .cyan) (by decide)) (decorates_plain ?_)))
  simp only [lacks_append, hNumber, true_and]
  decide

theorem decorates_location {l : Location} (h : ∀ text ∈ l.texts, Lacks '\x1b' text)
    (isLast : Bool) : Decorates (location true isLast l) (location false isLast l) := by
  obtain ⟨hFile, hContext⟩ := List.forall_mem_cons.1 h
  have hPlace : Lacks '\x1b' (position l) := lacks_position rfl (by decide) hFile
  have hMark : Lacks '\x1b' ("   " ++ (if isLast then "└─" else "├─") ++ " ") := by
    cases isLast <;> decide
  unfold location
  refine .append (.append (.append (decorates_plain hMark) (decorates_paint .dim hPlace))
    (decorates_plain (by decide))) ?_
  cases hSome : l.context with
  | none => exact decorates_plain (by decide)
  | some context =>
    have hText : Lacks '\x1b' context := hContext context (by simp [hSome])
    exact .append (.append (decorates_plain (by decide)) (decorates_paint .dim hText))
      (decorates_plain (by decide))

theorem decorates_locations {ls : List Location}
    (h : ∀ text ∈ ls.flatMap Location.texts, Lacks '\x1b' text) :
    Decorates (locations true ls) (locations false ls) := by
  induction ls with
  | nil => exact decorates_plain (by decide)
  | cons l rest ih =>
    rw [List.flatMap_cons, List.forall_mem_append] at h
    obtain ⟨hFirst, hRest⟩ := h
    cases rest with
    | nil => exact decorates_location hFirst true
    | cons next rest => exact (decorates_location hFirst false).append (ih hRest)

theorem decorates_duplicate {d : Duplicate} (h : ∀ text ∈ d.texts, Lacks '\x1b' text)
    (number : Nat) : Decorates (duplicate true number d) (duplicate false number d) := by
  obtain ⟨hName, hLocations⟩ := List.forall_mem_cons.1 h
  have hNumber : ∀ n : Nat, Decorates (toString n) (toString n) := fun n =>
    decorates_plain (lacks_toString rfl n)
  have hKind := decorates_paint (.color (kindColor d.kind)) (lacks_label (c := '\x1b') rfl d.kind)
  have hName := decorates_paint (.color .yellow) hName
  have hLocations := decorates_locations hLocations
  unfold duplicate
  simp only [String.append_assoc]
  refine (hNumber number).append (.append ?_ (hKind.append (.append ?_ (hName.append (.append ?_
    ((hNumber d.count).append (.append ?_ (hLocations.append ?_))))))))
  all_goals exact decorates_plain (by decide)

theorem decorates_duplicates {ds : List Duplicate}
    (h : ∀ text ∈ ds.flatMap Duplicate.texts, Lacks '\x1b' text) (number : Nat) :
    Decorates (duplicates true number ds) (duplicates false number ds) := by
  induction ds generalizing number with
  | nil => exact decorates_plain (show Lacks '\x1b' "" by decide)
  | cons d rest ih =>
    rw [List.flatMap_cons, List.forall_mem_append] at h
    exact (decorates_duplicate h.1 number).append (ih h.2 (number + 1))

end Console

/-- A coloured report decorates the report without colour. -/
theorem decorates_console {r : Report} (h : ∀ text ∈ r.texts, Lacks '\x1b' text) :
    Decorates (console true r) (console false r) := by
  have hFeeds : Decorates "\n\n" "\n\n" := decorates_plain (by decide)
  unfold console
  refine (Console.decorates_head r.summary).append ?_
  split
  · exact .append (decorates_paint _ (by decide)) (decorates_plain (by decide))
  · have hFound : Lacks '\x1b'
        ("Found " ++ toString r.duplicates.length ++ " duplicate groups:") := by
      simp only [lacks_append, lacks_toString (c := '\x1b') rfl, and_true]
      decide
    exact .append (.append (decorates_paint _ hFound) hFeeds) (Console.decorates_duplicates h 1)

/-- **Colour is only decoration.** A coloured report whose style sequences are deleted is the report
without colour, if its names, files and excerpts hold no escape. There is no other way to delete
them. -/
theorem strip_console {r : Report} (h : ∀ text ∈ r.texts, '\x1b' ∉ text.toList) :
    strip (console true r).toList = (console false r).toList ∧
      ∀ out, Stripped (console true r).toList out ↔ out = (console false r).toList := by
  have hStripped := decorates_console h [] [] .nil
  rw [List.append_nil, List.append_nil] at hStripped
  have hStrip := stripped_iff.1 hStripped
  refine ⟨hStrip, fun out => ?_⟩
  rw [stripped_iff, hStrip]
  exact eq_comm

/-- A duplicate without a name, in a file whose name is the inside of a sequence. -/
theorem strip_console_odd_names :
    let r : Report :=
      ⟨⟨1, 2, 1, 2⟩, [⟨"", .nameSpace, 2, [⟨"[31m", 1, 1, some ""⟩, ⟨"[0;1", 2, 1, none⟩]⟩]⟩
    (∀ text ∈ r.texts, '\x1b' ∉ text.toList) ∧
      strip (console true r).toList = (console false r).toList := by
  intro r
  have h : ∀ text ∈ r.texts, '\x1b' ∉ text.toList := by decide
  exact ⟨h, (strip_console h).1⟩

end Homonym.Render
