/-!
# Nesting of source text

What a position of a source text is inside of: code, a quoted string, a template literal or a
comment, and how many brackets are open around it. `Nesting.scan` carries this state over one line
and collects the places where a new top-level statement may begin.

A template literal may hold code between `${` and its closing brace. The depth at which each such
piece of code began is kept on a stack, so that the brace that closes it goes back to template text
instead of closing a block. Strings and line comments end with their line (`Nesting.endLine`);
templates and block comments go on.

Brackets are counted without regard to their shape, and a closing bracket too many is ignored.
-/

namespace Homonym.Source

/-- The kind of text that a position is in. -/
inductive Region where
  | code
  | quoted (quote : Char)
  | template
  | lineComment
  | blockComment
deriving DecidableEq

/-- What a position of a source text is inside of. -/
structure Nesting where
  region : Region := .code
  /-- The number of open brackets. -/
  depth : Nat := 0
  /-- The depths at which code inside a template began, innermost first. -/
  resume : List Nat := []
deriving DecidableEq

/-- One step of a scan. -/
structure Step where
  /-- The state behind what the step reads. -/
  next : Nesting
  /-- The step reads the following character as well. -/
  wide : Bool := false
  /-- A top-level statement may begin behind what the step reads. -/
  boundary : Bool := false

namespace Nesting

/-- Code outside every bracket. -/
def isTop (s : Nesting) : Bool :=
  s.depth == 0 && s.region == .code

/-- One bracket more. -/
def openBracket (s : Nesting) : Nesting :=
  { s with depth := s.depth + 1 }

/-- One bracket less, if there is one. -/
def closeBracket (s : Nesting) : Nesting :=
  { s with depth := s.depth - 1 }

/-- A step in a block comment, which ends behind `*/`. -/
def stepBlockComment (s : Nesting) (c : Char) (ahead : Option Char) : Step :=
  if c = '*' ∧ ahead = some '/' then
    { next := { s with region := .code }, wide := true, boundary := s.depth == 0 }
  else { next := s }

/-- A step in template text, which ends at a backtick and gives way to code at `${`. -/
def stepTemplate (s : Nesting) (c : Char) (ahead : Option Char) : Step :=
  if c = '\\' then { next := s, wide := true }
  else if c = '\x60' then { next := { s with region := .code } }
  else if c = '$' ∧ ahead = some '\x7b' then
    { next := ⟨.code, s.depth + 1, (s.depth + 1) :: s.resume⟩, wide := true }
  else { next := s }

/-- A step in a string, which ends at the quote that opened it. -/
def stepQuoted (s : Nesting) (quote c : Char) : Step :=
  if c = '\\' then { next := s, wide := true }
  else if c = quote then { next := { s with region := .code } }
  else { next := s }

/-- A closing brace in code: it ends the code inside a template if that began at this depth, and a
block otherwise. -/
def stepBrace (s : Nesting) : Step :=
  if s.resume.head? = some s.depth then
    { next := ⟨.template, s.depth - 1, s.resume.tail⟩ }
  else
    { next := s.closeBracket, boundary := s.depth - 1 == 0 }

/-- A step in code. -/
def stepCode (s : Nesting) (c : Char) (ahead : Option Char) : Step :=
  if c = '/' ∧ ahead = some '/' then { next := { s with region := .lineComment }, wide := true }
  else if c = '/' ∧ ahead = some '*' then
    { next := { s with region := .blockComment }, wide := true }
  else if c = '\'' ∨ c = '"' then { next := { s with region := .quoted c } }
  else if c = '\x60' then { next := { s with region := .template } }
  else if c = '(' ∨ c = '[' ∨ c = '\x7b' then { next := s.openBracket }
  else if c = '\x7d' then s.stepBrace
  else if c = ')' ∨ c = ']' then { next := s.closeBracket }
  else if c = ';' then { next := s, boundary := s.depth == 0 }
  else { next := s }

/-- One step from a state, given the character read and the one ahead of it on the line. -/
def step (s : Nesting) (c : Char) (ahead : Option Char) : Step :=
  match s.region with
  | .code => s.stepCode c ahead
  | .quoted quote => s.stepQuoted quote c
  | .template => s.stepTemplate c ahead
  | .lineComment => { next := s }
  | .blockComment => s.stepBlockComment c ahead

/-- The part of a line behind a step, if a statement may begin there. -/
def startIf (boundary : Bool) (rest : List Char) (starts : List (List Char)) : List (List Char) :=
  if boundary then rest :: starts else starts

/-- Carries the state over one line. Gives the state at its end, and the ends of the line at whose
front a top-level statement may begin. -/
def scan : Nesting → List Char → Nesting × List (List Char)
  | s, [] => (s, [])
  | s, [c] =>
    let t := s.step c none
    (t.next, startIf t.boundary [] [])
  | s, c :: d :: rest =>
    let t := s.step c (some d)
    if t.wide then
      let (last, starts) := scan t.next rest
      (last, startIf t.boundary rest starts)
    else
      let (last, starts) := scan t.next (d :: rest)
      (last, startIf t.boundary (d :: rest) starts)

/-- The state behind a line end: strings and line comments are over. -/
def endLine (s : Nesting) : Nesting :=
  match s.region with
  | .quoted _ => { s with region := .code }
  | .lineComment => { s with region := .code }
  | _ => s

end Nesting

end Homonym.Source
