import Mathlib.Data.List.Basic
import Homonym.Render.Console

/-!
# Reports in lines

A report that is made to be read is a row of lines: its totals, then for every duplicate a heading,
the line of every location with the lines of its excerpt, and an empty line. `Outline` says how each
of these is written.

Names, files and excerpts are free text and may look like any part of a report, so it is not the
words of an outline that keep reports apart. It is enough that the lines of an excerpt do not begin
as an empty line or a location does, and that each single line gives back what it was made of:
`Outline.Faithful` collects what is asked of the parts, and `Outline.Faithful.lines_inj` puts them
together. Where no line holds a line feed, the text has the same information as its lines
(`text_inj`).
-/

namespace Homonym

/-! ## The texts of a report -/

/-- The file and the excerpt of a location. -/
def Location.texts (l : Location) : List String :=
  l.file :: l.context.toList

/-- The name of a duplicate, and the texts of its locations. -/
def Duplicate.texts (d : Duplicate) : List String :=
  d.name :: d.locations.flatMap Location.texts

/-- The names, files and excerpts of a report. -/
def Report.texts (r : Report) : List String :=
  r.duplicates.flatMap Duplicate.texts

namespace Render

/-- The text does not hold a character. -/
def Lacks (c : Char) (text : String) : Prop :=
  c ∉ text.toList

instance (c : Char) (text : String) : Decidable (Lacks c text) :=
  inferInstanceAs (Decidable (c ∉ text.toList))

theorem Lacks.forall_ne {c : Char} {text : String} (h : Lacks c text) :
    ∀ d ∈ text.toList, (d != c) = true := by
  intro d hd
  exact bne_iff_ne.2 fun hSame => h (hSame ▸ hd)

theorem lacks_append {c : Char} {a b : String} : Lacks c (a ++ b) ↔ Lacks c a ∧ Lacks c b := by
  simp [Lacks]

/-! ## Cutting texts -/

/-- Two texts that are cut behind the longest front of one kind have the same pieces. -/
theorem append_inj_of_front {p : Char → Bool} {a b x y : List Char} (ha : ∀ c ∈ a, p c = true)
    (hb : ∀ c ∈ b, p c = true) (hx : ∀ c ∈ x.head?, p c = false)
    (hy : ∀ c ∈ y.head?, p c = false) (h : a ++ x = b ++ y) : a = b ∧ x = y := by
  have hFront : ∀ {a x : List Char}, (∀ c ∈ a, p c = true) → (∀ c ∈ x.head?, p c = false) →
      (a ++ x).takeWhile p = a := by
    intro a x ha hx
    rw [List.takeWhile_append_of_pos ha]
    cases x with
    | nil => simp
    | cons c x => simp [hx c rfl]
  have hSame : a = b := by rw [← hFront ha hx, h, hFront hb hy]
  subst hSame
  exact ⟨rfl, List.append_cancel_left h⟩

/-- Two texts that are cut in front of the longest end of one kind have the same pieces. -/
theorem append_inj_of_end {p : Char → Bool} {a b x y : List Char} (hx : ∀ c ∈ x, p c = true)
    (hy : ∀ c ∈ y, p c = true) (ha : ∀ c ∈ a.getLast?, p c = false)
    (hb : ∀ c ∈ b.getLast?, p c = false) (h : a ++ x = b ++ y) : a = b ∧ x = y := by
  have hReverse : x.reverse ++ a.reverse = y.reverse ++ b.reverse := by
    rw [← List.reverse_append, h, List.reverse_append]
  obtain ⟨hEnd, hFront⟩ := append_inj_of_front (p := p) (by simpa using hx) (by simpa using hy)
    (by simpa using ha) (by simpa using hb) hReverse
  exact ⟨List.reverse_injective hFront, List.reverse_injective hEnd⟩

theorem isDigit_of_mem_toString {n : Nat} {c : Char} (h : c ∈ (toString n).toList) :
    c.isDigit = true := by
  rw [Nat.toString_eq_repr, Nat.toList_repr] at h
  exact Nat.isDigit_of_mem_toDigits (by decide) (by decide) h

theorem lacks_toString {c : Char} (hc : c.isDigit = false) (n : Nat) : Lacks c (toString n) :=
  fun hMem => Bool.false_ne_true (hc.symm.trans (isDigit_of_mem_toString hMem))

theorem lacks_label {c : Char} (hc : c.isLower = false) (kind : Kind) : Lacks c kind.label := by
  have hLower : kind.label.toList.all Char.isLower = true := by cases kind <;> decide
  exact fun hMem => Bool.false_ne_true (hc.symm.trans (List.all_eq_true.1 hLower c hMem))

theorem lacks_position {c : Char} (hDigit : c.isDigit = false) (hColon : c ≠ ':') {l : Location}
    (hFile : Lacks c l.file) : Lacks c (position l) := by
  have hMark : Lacks c ":" := by simpa [Lacks] using hColon
  simp only [position, lacks_append, lacks_toString hDigit, hFile, hMark, and_self]

@[simp]
theorem repr_inj {m n : Nat} : m.repr = n.repr ↔ m = n := by
  refine ⟨fun h => ?_, congrArg Nat.repr⟩
  have hDigits : Nat.toDigits 10 m = Nat.toDigits 10 n := by
    rw [← Nat.toList_repr, h, Nat.toList_repr]
  calc
    m = Nat.ofDigitChars 10 (Nat.toDigits 10 m) 0 := Nat.ofDigitChars_ten_toDigits.symm
    _ = Nat.ofDigitChars 10 (Nat.toDigits 10 n) 0 := by rw [hDigits]
    _ = n := Nat.ofDigitChars_ten_toDigits

/-- A number at the end of a text is told from what is in front of it. -/
theorem append_toString_inj {a b : String} {m n : Nat}
    (ha : ∀ c ∈ a.toList.getLast?, c.isDigit = false)
    (hb : ∀ c ∈ b.toList.getLast?, c.isDigit = false)
    (h : a ++ toString m = b ++ toString n) : a = b ∧ m = n := by
  have hChars := congrArg String.toList h
  rw [String.toList_append, String.toList_append] at hChars
  obtain ⟨hFront, hEnd⟩ := append_inj_of_end (fun c => isDigit_of_mem_toString)
    (fun c => isDigit_of_mem_toString) ha hb hChars
  exact ⟨String.toList_inj.1 hFront, repr_inj.1 (String.toList_inj.1 hEnd)⟩

/-! ## Texts of whole lines -/

/-- Lines as a text, every one with its line feed. -/
def text : List String → String
  | [] => ""
  | line :: rest => line ++ "\n" ++ text rest

theorem text_append (a b : List String) : text (a ++ b) = text a ++ text b := by
  induction a with
  | nil => simp [text]
  | cons line a ih => simp [text, ih, String.append_assoc]

/-- **Lines come back from their text.** -/
theorem text_inj {a b : List String} (ha : ∀ line ∈ a, Lacks '\n' line)
    (hb : ∀ line ∈ b, Lacks '\n' line) (h : text a = text b) : a = b := by
  induction a generalizing b with
  | nil =>
    cases b with
    | nil => rfl
    | cons line b => simp [text] at h
  | cons first a ih =>
    cases b with
    | nil => simp [text] at h
    | cons second b =>
      obtain ⟨hFirst, ha⟩ := List.forall_mem_cons.1 ha
      obtain ⟨hSecond, hb⟩ := List.forall_mem_cons.1 hb
      have hChars : first.toList ++ '\n' :: (text a).toList =
          second.toList ++ '\n' :: (text b).toList := by
        simpa [text] using congrArg String.toList h
      obtain ⟨hLine, hRest⟩ := append_inj_of_front hFirst.forall_ne hSecond.forall_ne (by simp)
        (by simp) hChars
      rw [String.toList_inj.1 hLine, ih ha hb (String.toList_inj.1 (List.cons.inj hRest).2)]

/-! ## Outlines -/

/-- How a report is set out in lines. -/
structure Outline where
  /-- The title and the totals. -/
  top : Summary → List String
  /-- What stands for duplicates where there are none. -/
  nothing : List String
  /-- What stands in front of so many duplicates. -/
  found : Nat → List String
  /-- The heading of a duplicate under its number. -/
  heading : Nat → Duplicate → List String
  /-- The line of a location, as the last of its duplicate or not. -/
  place : Bool → Location → String
  excerpt : String → List String

namespace Outline

variable (o : Outline)

/-- The lines of an excerpt, if there is one. -/
def excerpt? : Option String → List String
  | none => []
  | some context => o.excerpt context

/-- The lines of some locations. -/
def locations : List Location → List String
  | [] => []
  | l :: rest => o.place rest.isEmpty l :: (o.excerpt? l.context ++ locations rest)

/-- The lines of some duplicates, numbered from `number` on. -/
def duplicates : Nat → List Duplicate → List String
  | _, [] => []
  | number, d :: rest =>
    o.heading number d ++ (o.locations d.locations ++ "" :: duplicates (number + 1) rest)

/-- The lines of a report. -/
def lines (r : Report) : List String :=
  o.top r.summary ++
    if r.duplicates.isEmpty then o.nothing
    else o.found r.duplicates.length ++ o.duplicates 1 r.duplicates

/-- What an outline must not do for its reports to be told apart: leave something out, or let the
excerpt of a location begin as the line of another one or as the end of the duplicate. -/
structure Faithful : Prop where
  top_inj {s t : Summary} {x y : List String} : o.top s ++ x = o.top t ++ y → s = t ∧ x = y
  nothing_ne (n : Nat) (x : List String) : o.nothing ≠ o.found n ++ x
  found_inj {m n : Nat} {x y : List String} : o.found m ++ x = o.found n ++ y → x = y
  heading_inj {n : Nat} {d e : Duplicate} {x y : List String} :
    o.heading n d ++ x = o.heading n e ++ y →
      (d.name = e.name ∧ d.kind = e.kind ∧ d.count = e.count) ∧ x = y
  place_inj {isLast isLast' : Bool} {l l' : Location} :
    o.place isLast l = o.place isLast' l' →
      l.file = l'.file ∧ l.line = l'.line ∧ l.column = l'.column
  place_ne (isLast : Bool) (l : Location) : o.place isLast l ≠ ""
  excerpt_inj {c d : String} {x y : List String} :
    o.excerpt c ++ x = o.excerpt d ++ y → c = d ∧ x = y
  excerpt_apart (c : String) : ∃ first more, o.excerpt c = first :: more ∧ first ≠ "" ∧
    ∀ isLast l, first ≠ o.place isLast l

/-- Every part of an outline is in lines where its texts are. -/
structure KeepsLines : Prop where
  top (s : Summary) : ∀ line ∈ o.top s, Lacks '\n' line
  nothing : ∀ line ∈ o.nothing, Lacks '\n' line
  found (n : Nat) : ∀ line ∈ o.found n, Lacks '\n' line
  heading {d : Duplicate} (n : Nat) (hName : Lacks '\n' d.name) :
    ∀ line ∈ o.heading n d, Lacks '\n' line
  place {l : Location} (isLast : Bool) (hFile : Lacks '\n' l.file) : Lacks '\n' (o.place isLast l)
  excerpt {c : String} (hText : Lacks '\n' c) : ∀ line ∈ o.excerpt c, Lacks '\n' line

variable {o}

namespace KeepsLines

variable (hKeeps : o.KeepsLines)
include hKeeps

theorem locations {ls : List Location}
    (h : ∀ text ∈ ls.flatMap Location.texts, Lacks '\n' text) :
    ∀ line ∈ o.locations ls, Lacks '\n' line := by
  induction ls with
  | nil => simp [Outline.locations]
  | cons l rest ih =>
    rw [List.flatMap_cons, List.forall_mem_append, Location.texts, List.forall_mem_cons] at h
    obtain ⟨⟨hFile, hContext⟩, hRest⟩ := h
    rw [Outline.locations, List.forall_mem_cons, List.forall_mem_append]
    refine ⟨hKeeps.place _ hFile, ?_, ih hRest⟩
    cases hSome : l.context with
    | none => simp [excerpt?]
    | some context => exact hKeeps.excerpt (hContext context (by simp [hSome]))

theorem duplicates {ds : List Duplicate}
    (h : ∀ text ∈ ds.flatMap Duplicate.texts, Lacks '\n' text) (number : Nat) :
    ∀ line ∈ o.duplicates number ds, Lacks '\n' line := by
  induction ds generalizing number with
  | nil => simp [Outline.duplicates]
  | cons d rest ih =>
    rw [List.flatMap_cons, List.forall_mem_append, Duplicate.texts, List.forall_mem_cons] at h
    obtain ⟨⟨hName, hLocations⟩, hRest⟩ := h
    rw [Outline.duplicates, List.forall_mem_append, List.forall_mem_append, List.forall_mem_cons]
    exact ⟨hKeeps.heading number hName, hKeeps.locations hLocations, by decide,
      ih hRest (number + 1)⟩

theorem lines {r : Report} (h : ∀ text ∈ r.texts, Lacks '\n' text) :
    ∀ line ∈ o.lines r, Lacks '\n' line := by
  rw [Outline.lines, List.forall_mem_append]
  refine ⟨hKeeps.top _, ?_⟩
  split
  · exact hKeeps.nothing
  · rw [List.forall_mem_append]
    exact ⟨hKeeps.found _, hKeeps.duplicates h 1⟩

end KeepsLines

namespace Faithful

variable (hFaithful : o.Faithful)
include hFaithful

/-- An excerpt is told from the end of the duplicate and from the next location. -/
theorem excerpt_ne_locations (c : String) (ls : List Location) (x y : List String) :
    o.excerpt c ++ x ≠ o.locations ls ++ "" :: y := by
  obtain ⟨first, more, hExcerpt, hEmpty, hPlace⟩ := hFaithful.excerpt_apart c
  rw [hExcerpt]
  intro h
  cases ls with
  | nil => exact hEmpty (List.cons.inj h).1
  | cons l rest => exact hPlace _ _ (List.cons.inj h).1

/-- What follows the line of a location gives back its excerpt, and the rest. -/
theorem excerpt?_inj {c d : Option String} {ls ls' : List Location} {x y : List String}
    (h : o.excerpt? c ++ (o.locations ls ++ "" :: x) =
      o.excerpt? d ++ (o.locations ls' ++ "" :: y)) :
    c = d ∧ o.locations ls ++ "" :: x = o.locations ls' ++ "" :: y := by
  cases c with
  | none =>
    cases d with
    | none => exact ⟨rfl, h⟩
    | some d => exact absurd h.symm (hFaithful.excerpt_ne_locations d ls _ x)
  | some c =>
    cases d with
    | none => exact absurd h (hFaithful.excerpt_ne_locations c ls' _ y)
    | some d =>
      obtain ⟨rfl, hRest⟩ := hFaithful.excerpt_inj h
      exact ⟨rfl, hRest⟩

/-- The lines of locations up to an empty one give back the locations. -/
theorem locations_inj {ls ls' : List Location} {x y : List String}
    (h : o.locations ls ++ "" :: x = o.locations ls' ++ "" :: y) : ls = ls' ∧ x = y := by
  induction ls generalizing ls' with
  | nil =>
    cases ls' with
    | nil => exact ⟨rfl, (List.cons.inj h).2⟩
    | cons l' rest' => exact absurd (List.cons.inj h).1.symm (hFaithful.place_ne _ l')
  | cons l rest ih =>
    cases ls' with
    | nil => exact absurd (List.cons.inj h).1 (hFaithful.place_ne _ l)
    | cons l' rest' =>
      simp only [locations, List.cons_append, List.append_assoc, List.cons.injEq] at h
      obtain ⟨hPlace, h⟩ := h
      obtain ⟨hContext, h⟩ := hFaithful.excerpt?_inj h
      obtain ⟨hRest, hMore⟩ := ih h
      obtain ⟨file, line, column, context⟩ := l
      obtain ⟨file', line', column', context'⟩ := l'
      obtain ⟨rfl, rfl, rfl⟩ := hFaithful.place_inj hPlace
      cases hContext
      exact ⟨by rw [hRest], hMore⟩

theorem duplicates_inj {ds ds' : List Duplicate} {number : Nat}
    (h : o.duplicates number ds = o.duplicates number ds') : ds = ds' := by
  induction ds generalizing ds' number with
  | nil =>
    cases ds' with
    | nil => rfl
    | cons d' rest' => simp [duplicates] at h
  | cons d rest ih =>
    cases ds' with
    | nil => simp [duplicates] at h
    | cons d' rest' =>
      obtain ⟨⟨hName, hKind, hCount⟩, h⟩ := hFaithful.heading_inj h
      obtain ⟨hLocations, hRest⟩ := hFaithful.locations_inj h
      obtain ⟨name, kind, count, locations⟩ := d
      obtain ⟨name', kind', count', locations'⟩ := d'
      cases hName
      cases hKind
      cases hCount
      cases hLocations
      rw [ih hRest]

/-- **Reports come back from their lines.** -/
theorem lines_inj {r s : Report} (h : o.lines r = o.lines s) : r = s := by
  obtain ⟨summary, ds⟩ := r
  obtain ⟨summary', ds'⟩ := s
  obtain ⟨rfl, h⟩ := hFaithful.top_inj h
  cases ds with
  | nil =>
    cases ds' with
    | nil => rfl
    | cons d' rest' => exact absurd h (hFaithful.nothing_ne _ _)
  | cons d rest =>
    cases ds' with
    | nil => exact absurd h.symm (hFaithful.nothing_ne _ _)
    | cons d' rest' =>
      have hSame : d :: rest = d' :: rest' := hFaithful.duplicates_inj (hFaithful.found_inj h)
      rw [hSame]

end Faithful

/-- **Reports come back from their text**, if their own texts are single lines. -/
theorem text_lines_inj (hFaithful : o.Faithful) (hKeeps : o.KeepsLines) {r s : Report}
    (hr : ∀ text ∈ r.texts, Lacks '\n' text) (hs : ∀ text ∈ s.texts, Lacks '\n' text)
    (h : text (o.lines r) = text (o.lines s)) : r = s :=
  hFaithful.lines_inj (text_inj (hKeeps.lines hr) (hKeeps.lines hs) h)

end Outline

end Render

end Homonym
