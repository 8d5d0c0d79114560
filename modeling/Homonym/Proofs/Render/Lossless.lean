import Homonym.Proofs.Render.Outline
import Homonym.Render.Markdown

/-!
# Readable reports lose nothing

A report for the terminal and one in Markdown hold all there is to know: two reports with the same
text are the same report (`readable_texts_tell_all`), if their names, files and excerpts are single
lines. Both are texts of an `Outline` (`console_eq`, `markdown_eq`), and both outlines are faithful:

* a heading gives back its kind from the left, since no label holds the mark behind it, and its
  count and name from the right (`heading_inj`);
* a position gives back its column, line and file from the right (`position_inj`);
* an excerpt is indented where the line of a location has a mark.
-/

namespace Homonym.Render

/-! ## Single lines -/

theorem not_isDigit_of_getLast? {front mark : String} {c : Char}
    (hMark : mark.toList.getLast? = some c) (hc : c.isDigit = false) :
    ∀ d ∈ (front ++ mark).toList.getLast?, d.isDigit = false := by
  intro d hd
  rw [String.toList_append, List.getLast?_append, hMark] at hd
  cases hd
  exact hc

/-- A position gives back what it was made of, whatever the file is called. -/
theorem position_inj {l l' : Location} (h : position l = position l') :
    l.file = l'.file ∧ l.line = l'.line ∧ l.column = l'.column := by
  have hColon : ∀ front : String, ∀ d ∈ (front ++ ":").toList.getLast?, d.isDigit = false :=
    fun front => not_isDigit_of_getLast? (c := ':') rfl rfl
  obtain ⟨hFront, hColumn⟩ := append_toString_inj (hColon _) (hColon _) h
  obtain ⟨hFront, hLine⟩ :=
    append_toString_inj (hColon _) (hColon _) ((String.append_left_inj _).1 hFront)
  exact ⟨(String.append_left_inj _).1 hFront, hLine, hColumn⟩

/-- The heading of a duplicate, with what stands in front of its kind and before its name. -/
def heading (front between : String) (d : Duplicate) : String :=
  front ++ d.kind.label ++ between ++ d.name ++ "\" (" ++ toString d.count ++ " occurrences)"

/-- A heading gives back what it was made of, whatever the name is. -/
theorem heading_inj {front between : String} (mark : Char)
    (hBetween : between.toList.head? = some mark) (hMark : mark.isLower = false) {d e : Duplicate}
    (h : heading front between d = heading front between e) :
    d.name = e.name ∧ d.kind = e.kind ∧ d.count = e.count := by
  have hParen : ∀ front : String, ∀ c ∈ (front ++ "\" (").toList.getLast?, c.isDigit = false :=
    fun front => not_isDigit_of_getLast? (c := '(') rfl rfl
  obtain ⟨hFront, hCount⟩ :=
    append_toString_inj (hParen _) (hParen _) ((String.append_left_inj _).1 h)
  have hFront := (String.append_left_inj _).1 hFront
  simp only [String.append_assoc, String.append_right_inj] at hFront
  have hChars := congrArg String.toList hFront
  simp only [String.toList_append] at hChars
  have hStop : ∀ name : List Char, ∀ c ∈ (between.toList ++ name).head?, (c != mark) = false := by
    intro name c hc
    rw [List.head?_append, hBetween] at hc
    cases hc
    exact bne_self_eq_false mark
  obtain ⟨hKind, hName⟩ :=
    append_inj_of_front (lacks_label hMark _).forall_ne (lacks_label hMark _).forall_ne
      (hStop _) (hStop _) hChars
  exact ⟨String.toList_inj.1 (List.append_cancel_left hName),
    Kind.label_injective (String.toList_inj.1 hKind), hCount⟩

theorem lacks_heading {front between : String} (hFront : Lacks '\n' front)
    (hBetween : Lacks '\n' between) {d : Duplicate} (hName : Lacks '\n' d.name) :
    Lacks '\n' (heading front between d) := by
  have hNumber : Lacks '\n' (toString d.count) := lacks_toString rfl d.count
  have hLabel : Lacks '\n' d.kind.label := lacks_label rfl d.kind
  simp only [heading, lacks_append, hNumber, hLabel, hFront, hBetween, hName, true_and, and_true]
  decide

/-- The lines of the totals, each behind its words, and an empty one. -/
def totals (files declarations groups members : String) (s : Summary) : List String :=
  [files ++ toString s.totalFiles, declarations ++ toString s.totalDeclarations,
    groups ++ toString s.duplicateGroups, members ++ toString s.duplicateDeclarations, ""]

theorem totals_inj {files declarations groups members : String} {s t : Summary}
    {x y : List String}
    (h : totals files declarations groups members s ++ x =
      totals files declarations groups members t ++ y) : s = t ∧ x = y := by
  obtain ⟨files, declarations, groups, members⟩ := s
  obtain ⟨files', declarations', groups', members'⟩ := t
  simpa [totals, and_assoc] using h

theorem lacks_totals {files declarations groups members : String} (hFiles : Lacks '\n' files)
    (hDeclarations : Lacks '\n' declarations) (hGroups : Lacks '\n' groups)
    (hMembers : Lacks '\n' members) (s : Summary) :
    ∀ line ∈ totals files declarations groups members s, Lacks '\n' line := by
  have hNumber : ∀ n : Nat, Lacks '\n' (toString n) := lacks_toString rfl
  simp only [totals, List.forall_mem_cons, lacks_append, hNumber, hFiles, hDeclarations,
    hGroups, hMembers, and_self, true_and]
  exact ⟨by decide, List.forall_mem_nil _⟩

/-! ## The terminal -/

namespace Console

/-- The lines of a report for the terminal. -/
def outline : Outline where
  top s :=
    ["Duplicate Declaration Report", "", "Summary:"] ++
      totals "  Files scanned:          " "  Declarations:           " "  Duplicate groups:       "
        "  Duplicate declarations: " s
  nothing := ["No duplicate declarations found."]
  found n := ["Found " ++ toString n ++ " duplicate groups:", ""]
  heading number d := [heading (toString number ++ ". ") " \"" d]
  place isLast l := "   " ++ (if isLast then "└─" else "├─") ++ " " ++ position l
  excerpt context := ["      " ++ context]

theorem faithful_outline : outline.Faithful where
  top_inj h := by
    simp only [outline, List.append_assoc] at h
    exact totals_inj (List.append_cancel_left h)
  nothing_ne n x h := by simp [outline] at h
  found_inj h := (List.cons.inj (List.cons.inj h).2).2
  heading_inj h := by
    obtain ⟨hHeading, hRest⟩ := List.cons.inj h
    exact ⟨heading_inj ' ' rfl rfl hHeading, hRest⟩
  place_inj {isLast isLast' l l'} h := by
    have hMark : isLast = isLast' := by
      have hChars := congrArg String.toList h
      cases isLast <;> cases isLast' <;> simp [outline] at hChars ⊢
    subst hMark
    exact position_inj ((String.append_right_inj _).1 h)
  place_ne isLast l h := by simp [outline] at h
  excerpt_inj h := by
    obtain ⟨hText, hRest⟩ := List.cons.inj h
    exact ⟨(String.append_right_inj _).1 hText, hRest⟩
  excerpt_apart c := by
    refine ⟨_, [], rfl, by simp, fun isLast l h => ?_⟩
    -- The excerpt has a blank where the location has its mark.
    have hChars := congrArg String.toList h
    cases isLast <;> simp [outline] at hChars

theorem keepsLines_outline : outline.KeepsLines where
  top s := by
    rw [outline, List.forall_mem_append]
    exact ⟨by decide, lacks_totals (by decide) (by decide) (by decide) (by decide) s⟩
  nothing := by decide
  found n := by
    have hFound : Lacks '\n' ("Found " ++ toString n ++ " duplicate groups:") := by
      simp only [lacks_append, lacks_toString (c := '\n') rfl, and_true]
      decide
    simpa [outline, Lacks] using hFound
  heading n hName := by
    refine List.forall_mem_singleton.2 (lacks_heading ?_ (by decide) hName)
    exact lacks_append.2 ⟨lacks_toString rfl n, by decide⟩
  place isLast hFile := by
    have hMark : Lacks '\n' (if isLast then "└─" else "├─") := by cases isLast <;> decide
    simp only [outline, lacks_append, hMark, lacks_position rfl (by decide) hFile, and_true]
    decide
  excerpt hText := List.forall_mem_singleton.2 (lacks_append.2 ⟨by decide, hText⟩)

theorem text_place (isLast : Bool) (l : Location) :
    text (outline.place isLast l :: outline.excerpt? l.context) = location false isLast l := by
  cases hContext : l.context <;>
    simp [text, outline, Outline.excerpt?, location, paint, hContext, String.append_assoc]

theorem text_locations (ls : List Location) :
    text (outline.locations ls) = locations false ls := by
  induction ls with
  | nil => rfl
  | cons l rest ih =>
    rw [Outline.locations, ← List.cons_append, text_append, text_place, ih]
    cases rest with
    | nil => simp [locations]
    | cons next rest => rfl

theorem text_duplicates (number : Nat) (ds : List Duplicate) :
    text (outline.duplicates number ds) = duplicates false number ds := by
  induction ds generalizing number with
  | nil => rfl
  | cons d rest ih =>
    rw [Outline.duplicates, text_append, text_append, text_locations, text, ih, duplicates]
    unfold duplicate
    simp [text, outline, heading, paint, String.append_assoc]

/-- A report for the terminal is the text of its lines. -/
theorem console_eq (r : Report) : console false r = text (outline.lines r) := by
  have hTop : text (outline.top r.summary) = head false r.summary := by
    unfold head
    simp [text, outline, totals, paint, ← String.toList_inj]
  have hFound : ∀ n, text (outline.found n) =
      "Found " ++ toString n ++ " duplicate groups:" ++ "\n\n" := by
    intro n
    simp [text, outline, String.append_assoc]
  rw [console, Outline.lines, text_append, hTop]
  split
  · rfl
  · rw [text_append, hFound, text_duplicates]
    rfl

end Console

/-! ## Markdown -/

namespace Markdown

/-- The lines of a report in Markdown. -/
def outline : Outline where
  top s :=
    ["# Duplicate Declaration Report", "", "## Summary", ""] ++
      totals "- Files scanned: " "- Declarations: " "- Duplicate groups: "
        "- Duplicate declarations: " s
  nothing := ["**No duplicate declarations found.**"]
  found _ := ["## Duplicates", ""]
  heading number d := [heading ("### " ++ toString number ++ ". `") "` \"" d, ""]
  place _ l := "- `" ++ position l ++ "`"
  excerpt context := ["  ```typescript", "  " ++ context, "  ```"]

theorem faithful_outline : outline.Faithful where
  top_inj h := by
    simp only [outline, List.append_assoc] at h
    exact totals_inj (List.append_cancel_left h)
  nothing_ne n x h := by simp [outline] at h
  found_inj h := List.append_cancel_left h
  heading_inj h := by
    obtain ⟨hHeading, hRest⟩ := List.cons.inj h
    exact ⟨heading_inj '\x60' rfl rfl hHeading, (List.cons.inj hRest).2⟩
  place_inj h :=
    position_inj ((String.append_right_inj _).1 ((String.append_left_inj _).1 h))
  place_ne isLast l h := by simp [outline] at h
  excerpt_inj h := by
    obtain ⟨hText, hRest⟩ := List.cons.inj (List.cons.inj h).2
    exact ⟨(String.append_right_inj _).1 hText, (List.cons.inj hRest).2⟩
  excerpt_apart c := by
    refine ⟨_, _, rfl, by decide, fun isLast l h => ?_⟩
    have hChars := congrArg String.toList h
    simp [outline] at hChars

theorem keepsLines_outline : outline.KeepsLines where
  top s := by
    rw [outline, List.forall_mem_append]
    exact ⟨by decide, lacks_totals (by decide) (by decide) (by decide) (by decide) s⟩
  nothing := by decide
  found _ := List.forall_mem_cons.2 ⟨by decide, by decide⟩
  heading n hName := by
    have hFront : Lacks '\n' ("### " ++ toString n ++ ". `") := by
      simp only [lacks_append, lacks_toString (c := '\n') rfl, and_true]
      decide
    have hBetween : Lacks '\n' "` \"" := by decide
    have hHeading := lacks_heading hFront hBetween hName
    simpa [outline, Lacks] using hHeading
  place isLast hFile := by
    simp only [outline, lacks_append, lacks_position rfl (by decide) hFile, and_true]
    decide
  excerpt {c} hText := by
    have hIndented : Lacks '\n' ("  " ++ c) := lacks_append.2 ⟨by decide, hText⟩
    refine List.forall_mem_cons.2 ⟨by decide, List.forall_mem_cons.2 ⟨hIndented, by decide⟩⟩

theorem text_locations (ls : List Location) :
    text (outline.locations ls) = locations ls := by
  induction ls with
  | nil => rfl
  | cons l rest ih =>
    rw [Outline.locations, ← List.cons_append, text_append, ih, locations]
    cases hContext : l.context <;>
      simp [text, outline, Outline.excerpt?, location, hContext, ← String.toList_inj]

theorem text_duplicates (number : Nat) (ds : List Duplicate) :
    text (outline.duplicates number ds) = duplicates number ds := by
  induction ds generalizing number with
  | nil => rfl
  | cons d rest ih =>
    rw [Outline.duplicates, text_append, text_append, text_locations, text, ih, duplicates]
    unfold duplicate
    simp [text, outline, heading, String.append_assoc]

/-- A report in Markdown is the text of its lines. -/
theorem markdown_eq (r : Report) : markdown r = text (outline.lines r) := by
  have hTop : text (outline.top r.summary) = head r.summary := by
    unfold head
    simp [text, outline, totals, ← String.toList_inj]
  rw [markdown, Outline.lines, text_append, hTop]
  split
  · rfl
  · rw [text_append, text_duplicates]
    rfl

end Markdown

/-! ## Both -/

/-- **Readable reports lose nothing.** Two reports whose names, files and excerpts hold no line feed
are the same if their texts for the terminal are the same, without colour, or their texts in
Markdown. -/
theorem readable_texts_tell_all {r s : Report} (hr : ∀ text ∈ r.texts, '\n' ∉ text.toList)
    (hs : ∀ text ∈ s.texts, '\n' ∉ text.toList) :
    (console false r = console false s → r = s) ∧ (markdown r = markdown s → r = s) := by
  constructor
  · intro h
    rw [Console.console_eq, Console.console_eq] at h
    exact Outline.text_lines_inj Console.faithful_outline Console.keepsLines_outline hr hs h
  · intro h
    rw [Markdown.markdown_eq, Markdown.markdown_eq] at h
    exact Outline.text_lines_inj Markdown.faithful_outline Markdown.keepsLines_outline hr hs h

/-- A duplicate with one location whose excerpt looks like a second one, and a duplicate that has
the second one and is named like a heading. -/
theorem imitations_told_apart :
    let r : Report :=
      ⟨⟨1, 2, 1, 2⟩, [⟨"A", .classType, 2, [⟨"a.ts", 1, 1, some "└─ b.ts:1:1"⟩]⟩]⟩
    let s : Report :=
      ⟨⟨1, 2, 1, 2⟩,
        [⟨"A\" (2 occurrences)", .classType, 2, [⟨"a.ts", 1, 1, none⟩, ⟨"b.ts", 1, 1, none⟩]⟩]⟩
    (∀ text ∈ r.texts, '\n' ∉ text.toList) ∧ (∀ text ∈ s.texts, '\n' ∉ text.toList) ∧
      console false r ≠ console false s ∧ markdown r ≠ markdown s := by
  intro r s
  have hr : ∀ text ∈ r.texts, '\n' ∉ text.toList := by decide
  have hs : ∀ text ∈ s.texts, '\n' ∉ text.toList := by decide
  have hOther : r ≠ s := by decide
  obtain ⟨hConsole, hMarkdown⟩ := readable_texts_tell_all hr hs
  exact ⟨hr, hs, fun h => hOther (hConsole h), fun h => hOther (hMarkdown h)⟩

end Homonym.Render
