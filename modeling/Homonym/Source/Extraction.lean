import Homonym.Source.Nesting
import Homonym.Source.Statement

/-!
# Declarations of a source text

`extract` finds the top-level declarations of a source text. Each line is looked at from its front,
if that is outside all nesting, and from every place behind which the nesting is left again; what
stands there after blanks is read as a statement, unless it is empty or a comment. Occurrences come
in the order of the text.

A byte order mark at the very front is no part of the text.
-/

namespace Homonym.Source

open Text

/-- The text does not begin a statement: nothing is there, or a comment. -/
def isIdle (text : List Char) : Bool :=
  text.isEmpty || (after? ['/', '/'] text).isSome || (after? ['/', '*'] text).isSome

/-- The occurrences of the statement at the front of `start`, which is an end of `line`. -/
def statementAt (file : String) (number : Nat) (line start : List Char) : List Occurrence :=
  let statement := trimStart start
  if isIdle statement then []
  else
    let (exported, names) := declared statement
    if names.isEmpty then []
    else
      let column := line.length - statement.length + 1
      let context := String.ofList (lineExcerpt statement)
      names.map fun (kind, name) =>
        { name := String.ofList name, kind, file, line := number, column, context, exported }

/-- The places of a line where statements may begin, and the nesting behind its line end. -/
def startsOf (s : Nesting) (line : List Char) : Nesting × List (List Char) :=
  let (last, starts) := s.scan line
  (last.endLine, if s.isTop then line :: starts else starts)

/-- The occurrences of some lines, of which the first has the given number and nesting. -/
def extractLines (file : String) : Nat → Nesting → List (List Char) → List Occurrence
  | _, _, [] => []
  | number, s, line :: rest =>
    let (next, starts) := startsOf s line
    starts.flatMap (statementAt file number line) ++ extractLines file (number + 1) next rest

/-- A text without the byte order mark at its front. -/
def dropMark : List Char → List Char
  | '\uFEFF' :: rest => rest
  | text => text

/-- The top-level declarations of a source text, as occurrences in a file. -/
def extract (source file : String) : List Occurrence :=
  extractLines file 1 {} (lines (dropMark source.toList))

end Homonym.Source
