import Mathlib.Data.List.Basic
import Homonym.Source.Extraction

/-!
# The moments of a scan

A scan reads a text line by line, one character or two at a time. What is left of a line behind a
line comment's `//` is passed over without a look at it. `Reaches` lists the moments that a scan
comes to in this way, each with the state there, what of the line is still ahead, and the number of
the characters scanned so far.

Brackets may close out of order, and then an entry for a template stays on the stack although the
code that it stands for was left long ago. Nothing ties the entries to the depth. Still, an entry is
pushed right behind the bracket that it counts, and a bracket is a character of the text. So every
entry is positive and the depth is at most the number of the characters scanned (`Nesting.Sound`).
One step keeps this (`Nesting.Sound.changes`), hence it holds at every moment (`Reaches.sound`). The
brace that goes back to a template takes off one bracket without asking whether there is one; since
it does so only at a depth that is on the stack, there always is (`Nesting.Sound.depth_pos`).

* `Nesting.scan_induction`: a scan of a line, step by step.
* `Reaches.scan`: from a moment, a scan comes to the end of the line.
* `reaches_front`: a scan comes to the front of every line.
-/

namespace Homonym.Source

/-! ## What a step reads -/

namespace Step

/-- What a step reads at the front of a line: the character there, and the one behind it if the step
is wide and there is one. -/
def taken (t : Step) (c : Char) (rest : List Char) : List Char :=
  if t.wide then c :: rest.take 1 else [c]

/-- What a step leaves of the line. -/
def behind (t : Step) (rest : List Char) : List Char :=
  if t.wide then rest.drop 1 else rest

theorem taken_append_behind (t : Step) (c : Char) (rest : List Char) :
    t.taken c rest ++ t.behind rest = c :: rest := by
  rw [taken, behind]
  split
  · rw [List.cons_append, List.take_append_drop]
  · rfl

theorem length_taken_pos (t : Step) (c : Char) (rest : List Char) :
    0 < (t.taken c rest).length := by
  rw [taken]
  split <;> exact Nat.succ_pos _

theorem taken_ne_nil (t : Step) (c : Char) (rest : List Char) : t.taken c rest ≠ [] :=
  List.ne_nil_of_length_pos (t.length_taken_pos c rest)

theorem length_behind_le (t : Step) (rest : List Char) : (t.behind rest).length ≤ rest.length := by
  rw [behind]
  split
  · exact (List.drop_sublist 1 rest).length_le
  · exact Nat.le_refl _

end Step

/-! ## A line, step by step -/

namespace Nesting

theorem scan_cons (s : Nesting) (c : Char) (rest : List Char) :
    let t := s.step c rest.head?
    s.scan (c :: rest) = ((t.next.scan (t.behind rest)).1,
      startIf t.boundary (t.behind rest) (t.next.scan (t.behind rest)).2) := by
  cases rest with
  | nil => simp [scan, Step.behind]
  | cons d rest =>
    simp only [scan, Step.behind, List.head?_cons, List.drop_one, List.tail_cons]
    split <;> rfl

/-- A property of all states and texts that each step hands back from what is behind it. -/
theorem scan_induction {P : Nesting → List Char → Prop} (hNil : ∀ s, P s [])
    (hStep : ∀ s c rest, P (s.step c rest.head?).next ((s.step c rest.head?).behind rest) →
      P s (c :: rest)) (s : Nesting) (text : List Char) : P s text := by
  induction hLength : text.length using Nat.strongRecOn generalizing s text with
  | ind n ih =>
    cases text with
    | nil => exact hNil s
    | cons c rest =>
      have hShorter := (s.step c rest.head?).length_behind_le rest
      refine hStep s c rest (ih _ ?_ _ _ rfl)
      rw [← hLength, List.length_cons]
      exact Nat.lt_succ_of_le hShorter

/-- The places of a line lie behind some of it. -/
theorem exists_front_of_mem_scan {s : Nesting} {text start : List Char}
    (h : start ∈ (s.scan text).2) : ∃ front, front ≠ [] ∧ text = front ++ start := by
  induction s, text using scan_induction with
  | hNil s => cases h
  | hStep s c rest ih =>
    have hText := (s.step c rest.head?).taken_append_behind c rest
    have hTaken := (s.step c rest.head?).taken_ne_nil c rest
    have hLater : start ∈ ((s.step c rest.head?).next.scan ((s.step c rest.head?).behind rest)).2 →
        ∃ front, front ≠ [] ∧ c :: rest = front ++ start := by
      intro hMem
      obtain ⟨front, -, hFront⟩ := ih hMem
      refine ⟨(s.step c rest.head?).taken c rest ++ front, ?_, ?_⟩
      · exact List.append_ne_nil_of_left_ne_nil hTaken front
      · rw [List.append_assoc, ← hFront, hText]
    rw [scan_cons, startIf] at h
    split at h
    · rcases List.mem_cons.1 h with rfl | hMem
      · exact ⟨_, hTaken, hText.symm⟩
      · exact hLater hMem
    · exact hLater h

/-- Each place of a line lies behind some of what the earlier ones have ahead. -/
theorem pairwise_scan (s : Nesting) (text : List Char) :
    (s.scan text).2.Pairwise fun first later => ∃ front, front ≠ [] ∧ first = front ++ later := by
  induction s, text using scan_induction with
  | hNil s => exact .nil
  | hStep s c rest ih =>
    rw [scan_cons, startIf]
    split
    · exact .cons (fun start hMem => exists_front_of_mem_scan hMem) ih
    · exact ih

/-! ## What a step changes -/

/-- Here the character is a brace that goes back from code to the template around it. -/
def Resumes (s : Nesting) (c : Char) : Prop :=
  s.region = .code ∧ c = '\x7d' ∧ s.resume.head? = some s.depth

instance (s : Nesting) (c : Char) : Decidable (s.Resumes c) :=
  inferInstanceAs (Decidable (_ ∧ _ ∧ _))

/-- All that a step may do to a state. -/
inductive Changes (s : Nesting) (c : Char) : Step → Prop where
  | region {region : Region} {wide boundary : Bool}
      (hQuiet : region = .lineComment → boundary = false) :
      Changes s c { next := { s with region }, wide, boundary }
  | opens (hCode : s.region = .code) : Changes s c { next := s.openBracket }
  | closes {boundary : Bool} (hCode : s.region = .code) :
      Changes s c { next := s.closeBracket, boundary }
  | substitutes : Changes s c
      { next := ⟨.code, s.depth + 1, (s.depth + 1) :: s.resume⟩, wide := true }
  | resumes (hResumes : s.Resumes c) :
      Changes s c { next := ⟨.template, s.depth - 1, s.resume.tail⟩ }

theorem changes_same (s : Nesting) (c : Char) {wide boundary : Bool}
    (hQuiet : s.region = .lineComment → boundary = false) :
    s.Changes c { next := s, wide, boundary } :=
  .region hQuiet

theorem changes_stepCode {s : Nesting} (hCode : s.region = .code) (c : Char)
    (ahead : Option Char) : s.Changes c (s.stepCode c ahead) := by
  have hLoud : s.region ≠ .lineComment := by simp [hCode]
  rw [stepCode]
  split
  · exact .region fun _ => rfl
  split
  · exact .region fun _ => rfl
  split
  · exact .region fun _ => rfl
  split
  · exact .region fun _ => rfl
  split
  · exact .opens hCode
  split
  · next hBrace =>
    rw [stepBrace]
    split
    · next hHead => exact .resumes ⟨hCode, hBrace, hHead⟩
    · exact .closes hCode
  split
  · exact .closes hCode
  split
  · exact changes_same s c fun h => absurd h hLoud
  · exact changes_same s c fun _ => rfl

theorem changes_stepQuoted (s : Nesting) (quote c : Char) :
    s.Changes c (s.stepQuoted quote c) := by
  rw [stepQuoted]
  split
  · exact changes_same s c fun _ => rfl
  split
  · exact .region fun _ => rfl
  · exact changes_same s c fun _ => rfl

theorem changes_stepTemplate (s : Nesting) (c : Char) (ahead : Option Char) :
    s.Changes c (s.stepTemplate c ahead) := by
  rw [stepTemplate]
  split
  · exact changes_same s c fun _ => rfl
  split
  · exact .region fun _ => rfl
  split
  · exact .substitutes
  · exact changes_same s c fun _ => rfl

theorem changes_stepBlockComment (s : Nesting) (c : Char) (ahead : Option Char) :
    s.Changes c (s.stepBlockComment c ahead) := by
  rw [stepBlockComment]
  split
  · exact .region fun h => by cases h
  · exact changes_same s c fun _ => rfl

theorem changes_step (s : Nesting) (c : Char) (ahead : Option Char) :
    s.Changes c (s.step c ahead) := by
  rw [step]
  split
  · next hCode => exact changes_stepCode hCode c ahead
  · exact changes_stepQuoted s _ c
  · exact changes_stepTemplate s c ahead
  · exact changes_same s c fun _ => rfl
  · exact changes_stepBlockComment s c ahead

/-! ## Line comments -/

theorem step_of_lineComment {s : Nesting} (h : s.region = .lineComment) (c : Char)
    (ahead : Option Char) : s.step c ahead = { next := s } := by
  rw [step, h]

/-- A line comment goes on to the end of the line, and no statement begins in it. -/
theorem scan_of_lineComment {s : Nesting} (h : s.region = .lineComment) (text : List Char) :
    s.scan text = (s, []) := by
  induction text with
  | nil => rfl
  | cons c rest ih =>
    rw [scan_cons, step_of_lineComment h]
    exact congrArg (fun line => (line.1, line.2)) ih

/-- A step into a line comment changes nothing else, and no statement begins behind it. -/
theorem Changes.into_lineComment {s : Nesting} {c : Char} {t : Step} (h : s.Changes c t)
    (hStops : t.next.region = .lineComment) :
    t.next = { s with region := .lineComment } ∧ t.boundary = false := by
  cases h with
  | region hQuiet =>
    cases hStops
    exact ⟨rfl, hQuiet rfl⟩
  | opens hCode => cases hCode.symm.trans hStops
  | closes hCode => cases hCode.symm.trans hStops
  | substitutes => cases hStops
  | resumes => cases hStops

/-! ## Brackets -/

/-- Behind some characters of a text: the code in a template began behind a bracket, and each open
bracket is one of the characters. -/
structure Sound (s : Nesting) (scanned : Nat) : Prop where
  resume_pos : ∀ depth ∈ s.resume, 1 ≤ depth
  depth_le : s.depth ≤ scanned

namespace Sound

variable {s : Nesting} {scanned : Nat}

theorem start : ({} : Nesting).Sound 0 :=
  ⟨fun _ h => absurd h List.not_mem_nil, Nat.le_refl 0⟩

theorem mono {more : Nat} (h : s.Sound scanned) (hMore : scanned ≤ more) : s.Sound more :=
  ⟨h.resume_pos, Nat.le_trans h.depth_le hMore⟩

theorem endLine (h : s.Sound scanned) : s.endLine.Sound scanned := by
  have hSame : s.endLine.depth = s.depth ∧ s.endLine.resume = s.resume := by
    obtain ⟨region, depth, resume⟩ := s
    cases region <;> exact ⟨rfl, rfl⟩
  exact ⟨hSame.2 ▸ h.resume_pos, hSame.1 ▸ h.depth_le⟩

/-- One step opens at most one bracket, and scans at least one character. -/
theorem changes (h : s.Sound scanned) {c : Char} {t : Step} (hChanges : s.Changes c t) :
    t.next.Sound (scanned + 1) := by
  have hMore : s.depth + 1 ≤ scanned + 1 := Nat.succ_le_succ h.depth_le
  have hLess : s.depth - 1 ≤ scanned + 1 := by omega
  cases hChanges with
  | region _ => exact ⟨h.resume_pos, Nat.le_of_succ_le hMore⟩
  | opens _ => exact ⟨h.resume_pos, hMore⟩
  | closes _ => exact ⟨h.resume_pos, hLess⟩
  | substitutes => exact ⟨List.forall_mem_cons.2 ⟨Nat.succ_pos _, h.resume_pos⟩, hMore⟩
  | resumes _ => exact ⟨fun d hMem => h.resume_pos d (List.mem_of_mem_tail hMem), hLess⟩

/-- The brace that goes back to a template has a bracket to take off. -/
theorem depth_pos (h : s.Sound scanned) {c : Char} (hResumes : s.Resumes c) : 1 ≤ s.depth :=
  h.resume_pos s.depth (List.mem_of_mem_head? hResumes.2.2)

end Sound

end Nesting

/-! ## The moments -/

open Nesting

/-- A moment of a scan: where it stands in a text, and what it stands in. -/
structure Moment where
  /-- The number of the lines behind. -/
  line : Nat
  nesting : Nesting
  /-- The number of the characters that were scanned. -/
  scanned : Nat
  /-- What of the line is ahead. -/
  ahead : List Char

/-- The moments of the scan of some lines. -/
inductive Reaches (text : List (List Char)) : Moment → Prop where
  | start {line : List Char} (hLine : text[0]? = some line) : Reaches text ⟨0, {}, 0, line⟩
  | step {k scanned : Nat} {s : Nesting} {c : Char} {rest : List Char} {t : Step}
      (hReached : Reaches text ⟨k, s, scanned, c :: rest⟩) (hStep : s.step c rest.head? = t)
      (hGoesOn : t.next.region ≠ .lineComment) :
      Reaches text ⟨k, t.next, scanned + (t.taken c rest).length, t.behind rest⟩
  | comment {k scanned : Nat} {s : Nesting} {c : Char} {rest : List Char} {t : Step}
      (hReached : Reaches text ⟨k, s, scanned, c :: rest⟩) (hStep : s.step c rest.head? = t)
      (hStops : t.next.region = .lineComment) : Reaches text ⟨k, t.next, scanned, []⟩
  | lineEnd {k scanned : Nat} {s : Nesting} {line : List Char}
      (hReached : Reaches text ⟨k, s, scanned, []⟩) (hLine : text[k + 1]? = some line) :
      Reaches text ⟨k + 1, s.endLine, scanned, line⟩

/-- The nesting in front of the line of the given number, counted from `0`. -/
def nestingBefore (text : List (List Char)) (k : Nat) : Nesting :=
  (text.take k).foldl (fun s line => (startsOf s line).1) {}

namespace Reaches

variable {text : List (List Char)}

/-- **At every moment of a scan**, the entries of the stack are positive, and the depth is at most
the number of the characters scanned. -/
theorem sound {m : Moment} (h : Reaches text m) : m.nesting.Sound m.scanned := by
  induction h with
  | start _ => exact .start
  | @step _ _ s c rest t _ hStep _ ih =>
    have hChanges : s.Changes c t := hStep ▸ s.changes_step c rest.head?
    exact (ih.changes hChanges).mono (Nat.add_le_add_left (t.length_taken_pos c rest) _)
  | @comment _ _ s c rest t _ hStep hStops ih =>
    have hChanges : s.Changes c t := hStep ▸ s.changes_step c rest.head?
    rw [(hChanges.into_lineComment hStops).1]
    exact ⟨ih.resume_pos, ih.depth_le⟩
  | lineEnd _ _ ih => exact ih.endLine

-- The parenthesis takes the bracket of `${` off, and its entry stays on the stack.
example : ({} : Nesting).scan "\x60$\x7b)\x7d;".toList = (⟨.code, 0, [1]⟩, [[';'], []]) := by decide

/-- From each moment, a scan comes to the end of the line. -/
theorem scan {k scanned : Nat} {s : Nesting} {ahead : List Char}
    (h : Reaches text ⟨k, s, scanned, ahead⟩) :
    ∃ total, Reaches text ⟨k, (s.scan ahead).1, total, []⟩ := by
  induction s, ahead using scan_induction generalizing scanned with
  | hNil s => exact ⟨scanned, h⟩
  | hStep s c rest ih =>
    rw [scan_cons]
    by_cases hComment : (s.step c rest.head?).next.region = .lineComment
    · rw [scan_of_lineComment hComment]
      exact ⟨scanned, h.comment rfl hComment⟩
    · exact ih (h.step rfl hComment)

end Reaches

theorem nestingBefore_succ {text : List (List Char)} {k : Nat} {line : List Char}
    (hLine : text[k]? = some line) :
    nestingBefore text (k + 1) = ((nestingBefore text k).scan line).1.endLine := by
  rw [nestingBefore, List.take_add_one, hLine, Option.toList_some, List.foldl_append]
  rfl

/-- A scan comes to the front of every line. -/
theorem reaches_front {text : List (List Char)} {k : Nat} {line : List Char}
    (hLine : text[k]? = some line) :
    ∃ scanned, Reaches text ⟨k, nestingBefore text k, scanned, line⟩ := by
  induction k generalizing line with
  | zero => exact ⟨0, .start hLine⟩
  | succ k ih =>
    obtain ⟨hShort, -⟩ := List.getElem?_eq_some_iff.1 hLine
    obtain ⟨scanned, hFront⟩ := ih (List.getElem?_eq_getElem (Nat.lt_of_succ_lt hShort))
    obtain ⟨total, hEnd⟩ := hFront.scan
    rw [nestingBefore_succ (List.getElem?_eq_getElem (Nat.lt_of_succ_lt hShort))]
    exact ⟨total, hEnd.lineEnd hLine⟩

end Homonym.Source
