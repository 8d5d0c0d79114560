import Mathlib.Tactic.SplitIfs
import Homonym.Source.Nesting

/-!
# Reading a source text character by character

`Automaton` is the plain view of nesting. It reads a text from its front one character at a time,
without looking ahead and without regard to lines but for the line feed, which ends strings and line
comments. Where two characters belong together, a mode of its own says that the first of them has
been read.

`Nesting.scan`, which reads a line at a time and looks one character ahead, does the same:
`scan_eq` says that it gives the automaton's state at the end of the line and exactly the ends of
the line at whose front the automaton may begin a statement.
-/

namespace Homonym.Source

/-- What the automaton is inside of, and which character it has just read where that matters. -/
inductive Mode where
  | code
  /-- Code behind a slash, which may be the first half of a comment's front. -/
  | slash
  | quoted (quote : Char)
  | quotedEscape (quote : Char)
  | lineComment
  | blockComment
  /-- A block comment behind a star, which may be the first half of its end. -/
  | star
  | template
  | templateEscape
  /-- A template behind a dollar sign. -/
  | dollar
deriving DecidableEq

/-- The state of a reader of source text. -/
structure Automaton where
  mode : Mode := .code
  /-- The number of open brackets. -/
  depth : Nat := 0
  /-- The depths of the substitutions that are open, innermost first. -/
  resume : List Nat := []
deriving DecidableEq

namespace Automaton

/-- A line feed: it ends strings and line comments, and whatever a pair of characters began. -/
def readBreak (a : Automaton) : Automaton :=
  match a.mode with
  | .code | .slash | .quoted _ | .quotedEscape _ | .lineComment => { a with mode := .code }
  | .blockComment | .star => { a with mode := .blockComment }
  | .template | .templateEscape | .dollar => { a with mode := .template }

/-- A closing brace in code: it ends a substitution that began at this depth, or a block. -/
def readBrace (a : Automaton) : Automaton :=
  if a.resume.head? = some a.depth then ⟨.template, a.depth - 1, a.resume.tail⟩
  else { a with mode := .code, depth := a.depth - 1 }

/-- A character of code. -/
def readCode (a : Automaton) (c : Char) : Automaton :=
  if c = '/' then { a with mode := .slash }
  else if c = '\'' ∨ c = '"' then { a with mode := .quoted c }
  else if c = '\x60' then { a with mode := .template }
  else if c = '(' ∨ c = '[' ∨ c = '\x7b' then { a with mode := .code, depth := a.depth + 1 }
  else if c = '\x7d' then a.readBrace
  else if c = ')' ∨ c = ']' then { a with mode := .code, depth := a.depth - 1 }
  else { a with mode := .code }

/-- A character of template text. -/
def readTemplate (a : Automaton) (c : Char) : Automaton :=
  if c = '\\' then { a with mode := .templateEscape }
  else if c = '\x60' then { a with mode := .code }
  else if c = '$' then { a with mode := .dollar }
  else { a with mode := .template }

/-- The state behind one character more. -/
def read (a : Automaton) (c : Char) : Automaton :=
  if c = '\n' then a.readBreak
  else
    match a.mode with
    | .code => a.readCode c
    | .slash =>
      if c = '/' then { a with mode := .lineComment }
      else if c = '*' then { a with mode := .blockComment }
      else a.readCode c
    | .quoted quote =>
      if c = '\\' then { a with mode := .quotedEscape quote }
      else if c = quote then { a with mode := .code }
      else a
    | .quotedEscape quote => { a with mode := .quoted quote }
    | .lineComment => a
    | .blockComment => if c = '*' then { a with mode := .star } else a
    | .star =>
      if c = '/' then { a with mode := .code }
      else if c = '*' then a
      else { a with mode := .blockComment }
    | .template => a.readTemplate c
    | .templateEscape => { a with mode := .template }
    | .dollar =>
      if c = '\x7b' then ⟨.code, a.depth + 1, (a.depth + 1) :: a.resume⟩ else a.readTemplate c

/-- The state behind some more text. -/
def run (a : Automaton) (text : List Char) : Automaton :=
  text.foldl read a

/-- Code outside every bracket. -/
def AtTop (a : Automaton) : Prop :=
  a.mode = .code ∧ a.depth = 0

instance (a : Automaton) : Decidable a.AtTop :=
  inferInstanceAs (Decidable (_ ∧ _))

/-- The character ends a line, a statement, a block or a block comment. -/
def ends (a : Automaton) (c : Char) : Bool :=
  match a.mode with
  | .code | .slash => c == '\n' || c == ';' || c == '\x7d'
  | .star => c == '\n' || c == '/'
  | _ => c == '\n'

/-- A top-level statement may begin behind the character. -/
def opens (a : Automaton) (c : Char) : Bool :=
  a.ends c && decide (a.read c).AtTop

/-- The ends of a text at whose front a statement may begin, but for the text itself. -/
def starts : Automaton → List Char → List (List Char)
  | _, [] => []
  | a, c :: rest => Nesting.startIf (a.opens c) rest ((a.read c).starts rest)

@[simp]
theorem run_nil (a : Automaton) : a.run [] = a := rfl

@[simp]
theorem run_cons (a : Automaton) (c : Char) (text : List Char) :
    a.run (c :: text) = (a.read c).run text := rfl

theorem run_append (a : Automaton) (front back : List Char) :
    a.run (front ++ back) = (a.run front).run back :=
  List.foldl_append

theorem atTop_of_opens {a : Automaton} {c : Char} (h : a.opens c = true) : (a.read c).AtTop := by
  simp only [opens, Bool.and_eq_true, decide_eq_true_eq] at h
  exact h.2

/-- A character that means nothing in code. -/
def isPlain (c : Char) : Bool :=
  c ∉ ['/', '\'', '"', '\x60', '(', '[', '\x7b', ')', ']', '\x7d']

theorem read_of_isPlain {a : Automaton} (hMode : a.mode = .code) {c : Char} (hc : isPlain c) :
    a.read c = a := by
  obtain ⟨mode, depth, resume⟩ := a
  obtain rfl : mode = .code := hMode
  by_cases hBreak : c = '\n'
  · subst hBreak
    rfl
  · simp only [isPlain, List.mem_cons, List.not_mem_nil, or_false, not_or,
      decide_eq_true_eq] at hc
    simp only [read, readCode, hBreak, hc, if_false, or_self]

theorem run_of_isPlain {a : Automaton} (hMode : a.mode = .code) {text : List Char}
    (hText : ∀ c ∈ text, isPlain c) : a.run text = a := by
  induction text with
  | nil => rfl
  | cons c text ih =>
    rw [run_cons, read_of_isPlain hMode (hText c List.mem_cons_self)]
    exact ih fun d hd => hText d (List.mem_cons_of_mem _ hd)

/-! ## Nesting and the automaton -/

/-- The nesting that a state stands for. -/
def nesting (a : Automaton) : Nesting :=
  match a.mode with
  | .code | .slash => ⟨.code, a.depth, a.resume⟩
  | .quoted quote | .quotedEscape quote => ⟨.quoted quote, a.depth, a.resume⟩
  | .lineComment => ⟨.lineComment, a.depth, a.resume⟩
  | .blockComment | .star => ⟨.blockComment, a.depth, a.resume⟩
  | .template | .templateEscape | .dollar => ⟨.template, a.depth, a.resume⟩

/-- The state that stands for a nesting when no pair of characters has begun. -/
def ofNesting (s : Nesting) : Automaton :=
  match s.region with
  | .code => ⟨.code, s.depth, s.resume⟩
  | .quoted quote => ⟨.quoted quote, s.depth, s.resume⟩
  | .template => ⟨.template, s.depth, s.resume⟩
  | .lineComment => ⟨.lineComment, s.depth, s.resume⟩
  | .blockComment => ⟨.blockComment, s.depth, s.resume⟩

@[simp]
theorem nesting_ofNesting (s : Nesting) : (ofNesting s).nesting = s := by
  obtain ⟨region, depth, resume⟩ := s
  cases region <;> rfl

@[simp]
theorem depth_nesting (a : Automaton) : a.nesting.depth = a.depth := by
  obtain ⟨mode, depth, resume⟩ := a
  cases mode <;> rfl

@[simp]
theorem resume_nesting (a : Automaton) : a.nesting.resume = a.resume := by
  obtain ⟨mode, depth, resume⟩ := a
  cases mode <;> rfl

/-! ## Pairs of characters -/

/-- The character is the second of a pair that the state has begun. -/
def completes (a : Automaton) (d : Char) : Bool :=
  match a.mode with
  | .slash => d == '/' || d == '*'
  | .quotedEscape _ | .templateEscape => true
  | .star => d == '/'
  | .dollar => d == '\x7b'
  | _ => false

/-- A pair that is not completed leaves no trace. -/
theorem read_of_not_completes {a : Automaton} {d : Char} (h : a.completes d = false) :
    a.read d = (ofNesting a.nesting).read d ∧ a.opens d = (ofNesting a.nesting).opens d := by
  obtain ⟨mode, depth, resume⟩ := a
  cases mode with
  | slash =>
    simp only [completes, Bool.or_eq_false_iff, beq_eq_false_iff_ne, ne_eq] at h
    have hRead : read ⟨.slash, depth, resume⟩ d = read ⟨.code, depth, resume⟩ d := by
      simp only [read, h.1, h.2, if_false]
      rfl
    exact ⟨hRead, by rw [opens, hRead]; rfl⟩
  | star =>
    simp only [completes, beq_eq_false_iff_ne, ne_eq] at h
    have hRead : read ⟨.star, depth, resume⟩ d = read ⟨.blockComment, depth, resume⟩ d := by
      simp only [read, readBreak, h, if_false]
    have hEnds : ends ⟨.star, depth, resume⟩ d = ends ⟨.blockComment, depth, resume⟩ d := by
      simp only [ends, beq_false_of_ne h, Bool.or_false]
    exact ⟨hRead, by rw [opens, hRead, hEnds]; rfl⟩
  | dollar =>
    simp only [completes, beq_eq_false_iff_ne, ne_eq] at h
    have hRead : read ⟨.dollar, depth, resume⟩ d = read ⟨.template, depth, resume⟩ d := by
      simp only [read, readBreak, h, if_false, readTemplate]
    exact ⟨hRead, by rw [opens, hRead]; rfl⟩
  | quotedEscape _ => cases h
  | templateEscape => cases h
  | _ => exact ⟨rfl, rfl⟩

/-- Behind a pair nothing is begun. -/
theorem ofNesting_read_of_completes {a : Automaton} {d : Char} (hd : d ≠ '\n')
    (h : a.completes d = true) : ofNesting (a.read d).nesting = a.read d := by
  obtain ⟨mode, depth, resume⟩ := a
  cases mode with
  | slash =>
    simp only [completes, Bool.or_eq_true, beq_iff_eq] at h
    rcases h with rfl | rfl <;> rfl
  | star =>
    simp only [completes, beq_iff_eq] at h
    subst h
    rfl
  | dollar =>
    simp only [completes, beq_iff_eq] at h
    subst h
    rfl
  | quotedEscape _ =>
    simp only [read, if_neg hd]
    rfl
  | templateEscape =>
    simp only [read, if_neg hd]
    rfl
  | _ => cases h

theorem completes_readCode {a : Automaton} {c : Char} (hSlash : c ≠ '/') (d : Char) :
    (a.readCode c).completes d = false := by
  rw [readCode, if_neg hSlash]
  split_ifs with hQuote hTick hOpen hBrace hClose
  · rfl
  · rfl
  · rfl
  · rw [readBrace]
    split <;> rfl
  · rfl
  · rfl

/-! ## Steps of a scan

What `Nesting.step` does with a character and the one ahead of it is what the automaton does with
the one, or with both where they are a pair. -/

theorem opens_code {depth : Nat} {resume : List Nat} {c : Char} (hc : c ≠ '\n') :
    opens ⟨.code, depth, resume⟩ c =
      ((c == ';' || c == '\x7d') && decide (readCode ⟨.code, depth, resume⟩ c).AtTop) := by
  have hRead : read ⟨.code, depth, resume⟩ c = readCode ⟨.code, depth, resume⟩ c := if_neg hc
  rw [opens, hRead]
  simp only [ends, beq_false_of_ne hc, Bool.false_or]

theorem stepBrace_eq (depth : Nat) (resume : List Nat) :
    Nesting.stepBrace ⟨.code, depth, resume⟩ =
      { next := (readBrace ⟨.code, depth, resume⟩).nesting
        boundary := decide (readBrace ⟨.code, depth, resume⟩).AtTop } := by
  rw [Nesting.stepBrace, readBrace]
  split
  · rfl
  · simp only [AtTop, true_and]
    rfl

theorem stepCode_eq {depth : Nat} {resume : List Nat} {c : Char} (hc : c ≠ '\n')
    (hSlash : c ≠ '/') (ahead : Option Char) :
    Nesting.stepCode ⟨.code, depth, resume⟩ c ahead =
      { next := (readCode ⟨.code, depth, resume⟩ c).nesting
        boundary := opens ⟨.code, depth, resume⟩ c } := by
  rw [opens_code hc, Nesting.stepCode, if_neg (fun h => hSlash h.1), if_neg (fun h => hSlash h.1)]
  rw [readCode, if_neg hSlash]
  split_ifs with hQuote hTick hOpen hBrace hClose hSemi
  · rcases hQuote with rfl | rfl <;> rfl
  · subst hTick
    rfl
  · rcases hOpen with rfl | rfl | rfl <;> rfl
  · subst hBrace
    exact stepBrace_eq depth resume
  · rcases hClose with rfl | rfl <;> rfl
  · subst hSemi
    simp only [AtTop, true_and]
    rfl
  · simp only [beq_false_of_ne hSemi, beq_false_of_ne hBrace]
    rfl

/-- Where no code is read, only a line feed and the end of a block comment may open a statement. -/
theorem opens_eq_false {a : Automaton} {c : Char} (hc : c ≠ '\n') (hCode : a.mode ≠ .code)
    (hSlash : a.mode ≠ .slash) (hStar : a.mode ≠ .star) : a.opens c = false := by
  obtain ⟨mode, depth, resume⟩ := a
  have hEnds : ends ⟨mode, depth, resume⟩ c = false := by
    cases mode with
    | code => exact absurd rfl hCode
    | slash => exact absurd rfl hSlash
    | star => exact absurd rfl hStar
    | _ => exact beq_false_of_ne hc
  rw [opens, hEnds, Bool.false_and]

/-- What a scan's step should be: the automaton reads the character, and the one ahead of it as
well if the two are a pair. -/
def pairStep (a : Automaton) (c d : Char) : Step :=
  if (a.read c).completes d then
    { next := ((a.read c).read d).nesting, wide := true, boundary := (a.read c).opens d }
  else { next := (a.read c).nesting, boundary := a.opens c }

theorem pairStep_wide (a : Automaton) (c d : Char) :
    (a.pairStep c d).wide = (a.read c).completes d := by
  rw [pairStep]
  split <;> simp [*]

theorem stepCode_slash (depth : Nat) (resume : List Nat) (d : Char) :
    Nesting.stepCode ⟨.code, depth, resume⟩ '/' (some d) =
      pairStep ⟨.code, depth, resume⟩ '/' d := by
  by_cases hLine : d = '/'
  · subst hLine
    rfl
  · by_cases hBlock : d = '*'
    · subst hBlock
      rfl
    · have hNot : (read ⟨.code, depth, resume⟩ '/').completes d = false := by
        show (d == '/' || d == '*') = false
        rw [beq_false_of_ne hLine, beq_false_of_ne hBlock, Bool.or_self]
      rw [pairStep, hNot, Nesting.stepCode, if_neg (fun h => hLine (Option.some.inj h.2)),
        if_neg (fun h => hBlock (Option.some.inj h.2))]
      rfl

theorem stepQuoted_eq (quote : Char) (depth : Nat) (resume : List Nat) {c d : Char}
    (hc : c ≠ '\n') (hd : d ≠ '\n') :
    Nesting.stepQuoted ⟨.quoted quote, depth, resume⟩ quote c =
      pairStep ⟨.quoted quote, depth, resume⟩ c d := by
  have hClosed : opens ⟨.quoted quote, depth, resume⟩ c = false :=
    opens_eq_false hc (by simp) (by simp) (by simp)
  rw [pairStep, hClosed]
  by_cases hEscape : c = '\\'
  · subst hEscape
    have hPair : opens ⟨.quotedEscape quote, depth, resume⟩ d = false :=
      opens_eq_false hd (by simp) (by simp) (by simp)
    show _ = Step.mk (read ⟨.quotedEscape quote, depth, resume⟩ d).nesting true
      (opens ⟨.quotedEscape quote, depth, resume⟩ d)
    rw [hPair, read, if_neg hd]
    rfl
  · by_cases hQuote : c = quote
    · subst hQuote
      have hRead : read ⟨.quoted c, depth, resume⟩ c = ⟨.code, depth, resume⟩ := by
        simp only [read, if_neg hc, if_neg hEscape, if_true]
      rw [hRead, Nesting.stepQuoted, if_neg hEscape, if_pos rfl]
      rfl
    · have hRead : read ⟨.quoted quote, depth, resume⟩ c = ⟨.quoted quote, depth, resume⟩ := by
        simp only [read, if_neg hc, if_neg hEscape, if_neg hQuote]
      rw [hRead, Nesting.stepQuoted, if_neg hEscape, if_neg hQuote]
      rfl

theorem stepTemplate_eq (depth : Nat) (resume : List Nat) {c d : Char} (hc : c ≠ '\n')
    (hd : d ≠ '\n') :
    Nesting.stepTemplate ⟨.template, depth, resume⟩ c (some d) =
      pairStep ⟨.template, depth, resume⟩ c d := by
  have hClosed : opens ⟨.template, depth, resume⟩ c = false :=
    opens_eq_false hc (by simp) (by simp) (by simp)
  have hRead : read ⟨.template, depth, resume⟩ c = readTemplate ⟨.template, depth, resume⟩ c :=
    if_neg hc
  rw [pairStep, hClosed, hRead, Nesting.stepTemplate, readTemplate]
  by_cases hEscape : c = '\\'
  · rw [if_pos hEscape, if_pos hEscape]
    have hPair : opens ⟨.templateEscape, depth, resume⟩ d = false :=
      opens_eq_false hd (by simp) (by simp) (by simp)
    show _ = Step.mk (read ⟨.templateEscape, depth, resume⟩ d).nesting true
      (opens ⟨.templateEscape, depth, resume⟩ d)
    rw [hPair, read, if_neg hd]
    rfl
  · by_cases hTick : c = '\x60'
    · subst hTick
      rfl
    · rw [if_neg hEscape, if_neg hEscape, if_neg hTick, if_neg hTick]
      by_cases hDollar : c = '$'
      · rw [if_pos hDollar]
        by_cases hBrace : d = '\x7b'
        · subst hDollar hBrace
          rfl
        · have hNot : completes ⟨.dollar, depth, resume⟩ d = false := beq_false_of_ne hBrace
          rw [if_neg (fun h => hBrace (Option.some.inj h.2))]
          simp only [hNot]
          rfl
      · rw [if_neg hDollar, if_neg (fun h => hDollar h.1)]
        rfl

theorem stepBlockComment_eq (depth : Nat) (resume : List Nat) {c : Char} (hc : c ≠ '\n')
    (d : Char) :
    Nesting.stepBlockComment ⟨.blockComment, depth, resume⟩ c (some d) =
      pairStep ⟨.blockComment, depth, resume⟩ c d := by
  have hClosed : opens ⟨.blockComment, depth, resume⟩ c = false :=
    opens_eq_false hc (by simp) (by simp) (by simp)
  rw [pairStep, hClosed, Nesting.stepBlockComment]
  by_cases hStar : c = '*'
  · subst hStar
    by_cases hSlash : d = '/'
    · subst hSlash
      show _ = Step.mk _ true (decide (AtTop ⟨.code, depth, resume⟩))
      simp only [AtTop, true_and]
      rfl
    · have hNot : completes ⟨.star, depth, resume⟩ d = false := beq_false_of_ne hSlash
      rw [if_neg (fun h => hSlash (Option.some.inj h.2))]
      show _ = if completes ⟨.star, depth, resume⟩ d = true then _ else _
      rw [hNot]
      rfl
  · have hRead : read ⟨.blockComment, depth, resume⟩ c = ⟨.blockComment, depth, resume⟩ := by
      simp only [read, if_neg hc, if_neg hStar]
    rw [hRead, if_neg (fun h => hStar h.1)]
    rfl

theorem step_some (s : Nesting) {c d : Char} (hc : c ≠ '\n') (hd : d ≠ '\n') :
    s.step c (some d) = (ofNesting s).pairStep c d := by
  obtain ⟨region, depth, resume⟩ := s
  cases region with
  | code =>
    by_cases hSlash : c = '/'
    · subst hSlash
      exact stepCode_slash depth resume d
    · have hRead : read ⟨.code, depth, resume⟩ c = readCode ⟨.code, depth, resume⟩ c := if_neg hc
      show Nesting.stepCode _ _ _ = pairStep ⟨.code, depth, resume⟩ c d
      rw [stepCode_eq hc hSlash, pairStep, hRead, completes_readCode hSlash]
      rfl
  | quoted quote => exact stepQuoted_eq quote depth resume hc hd
  | template => exact stepTemplate_eq depth resume hc hd
  | lineComment =>
    have hClosed : opens ⟨.lineComment, depth, resume⟩ c = false :=
      opens_eq_false hc (by simp) (by simp) (by simp)
    have hRead : read ⟨.lineComment, depth, resume⟩ c = ⟨.lineComment, depth, resume⟩ := if_neg hc
    show _ = pairStep ⟨.lineComment, depth, resume⟩ c d
    rw [pairStep, hRead, hClosed]
    rfl
  | blockComment => exact stepBlockComment_eq depth resume hc d

/-- A character that begins a pair opens no statement. -/
theorem opens_eq_false_of_completes {a : Automaton} {c d : Char}
    (h : (a.read c).completes d = true) : a.opens c = false := by
  cases hOpens : a.opens c with
  | false => rfl
  | true =>
    rw [completes, (atTop_of_opens hOpens).1] at h
    cases h

/-- At the end of a line nothing is ahead. What is read there counts, not how far. -/
theorem step_none (s : Nesting) {c : Char} (hc : c ≠ '\n') :
    (s.step c none).next = ((ofNesting s).read c).nesting ∧
      (s.step c none).boundary = (ofNesting s).opens c := by
  -- A letter ahead completes no pair but an escape, which goes on as it began.
  have hLetter : s.step c none = (ofNesting s).pairStep c 'a' := by
    rw [← step_some s hc (by decide)]
    obtain ⟨region, depth, resume⟩ := s
    cases region <;>
      simp [Nesting.step, Nesting.stepCode, Nesting.stepTemplate, Nesting.stepBlockComment]
  rw [hLetter, pairStep]
  split
  · next hPair =>
    rw [opens_eq_false_of_completes hPair]
    generalize (ofNesting s).read c = a at hPair
    obtain ⟨mode, depth, resume⟩ := a
    cases mode <;> first | exact ⟨rfl, rfl⟩ | cases hPair
  · exact ⟨rfl, rfl⟩

/-- **A scan is a run.** Over one line, `Nesting.scan` and the automaton agree on the state at the
end and on the places where a statement may begin. -/
theorem scan_eq (s : Nesting) {line : List Char} (h : '\n' ∉ line) :
    s.scan line = (((ofNesting s).run line).nesting, (ofNesting s).starts line) := by
  fun_induction Nesting.scan s line with
  | case1 s => simp [starts]
  | case2 s c t =>
    have hc : c ≠ '\n' := fun hc => h (by simp [hc])
    obtain ⟨hNext, hBoundary⟩ := step_none s hc
    simp only [t, hNext, hBoundary, starts, run_cons, run_nil]
  | case3 s c d rest t hWide last starts' hScan ih =>
    have hc : c ≠ '\n' := fun hc => h (by simp [hc])
    have hd : d ≠ '\n' := fun hd => h (by simp [hd])
    have hRest : '\n' ∉ rest := fun hRest => h (by simp [hRest])
    have hStep : t = (ofNesting s).pairStep c d := step_some s hc hd
    have hPair : ((ofNesting s).read c).completes d = true := by
      rw [← pairStep_wide, ← hStep, hWide]
    rw [pairStep, if_pos hPair] at hStep
    have hState : ofNesting t.next = ((ofNesting s).read c).read d := by
      rw [hStep, ofNesting_read_of_completes hd hPair]
    have hPairs := hScan.symm.trans (ih hRest)
    rw [hState, Prod.mk.injEq] at hPairs
    simp only [starts, run_cons, opens_eq_false_of_completes hPair, hPairs.1, hPairs.2, hStep]
    rfl
  | case4 s c d rest t hWide last starts' hScan ih =>
    have hc : c ≠ '\n' := fun hc => h (by simp [hc])
    have hd : d ≠ '\n' := fun hd => h (by simp [hd])
    have hRest : '\n' ∉ d :: rest := fun hRest => h (List.mem_cons_of_mem _ hRest)
    have hStep : t = (ofNesting s).pairStep c d := step_some s hc hd
    have hNot : ((ofNesting s).read c).completes d = false := by
      rw [← pairStep_wide, ← hStep, Bool.eq_false_iff]
      exact hWide
    rw [pairStep, hNot] at hStep
    obtain ⟨hRead, hOpens⟩ := read_of_not_completes hNot
    have hPairs := hScan.symm.trans (ih hRest)
    rw [hStep] at hPairs
    simp only [Bool.false_eq_true, if_false, starts, run_cons, ← hRead, ← hOpens,
      Prod.mk.injEq] at hPairs
    simp only [starts, run_cons, hPairs.1, hPairs.2, hStep]
    rfl

end Automaton

end Homonym.Source
