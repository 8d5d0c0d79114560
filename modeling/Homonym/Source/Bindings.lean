import Homonym.Text.Lines
import Homonym.Text.Words

/-!
# Lists of bindings

The text behind `const`, `let` or `var` is a list of bindings, divided by the commas that stand
outside brackets and literals and ended by the first such semicolon. A binding declares a name if
the name is followed by its type, its value, a mark or nothing; one that takes a value apart
declares none here.
-/

namespace Homonym.Source

/-- What a position of a binding list is inside of. -/
structure BindingState where
  depth : Nat := 0
  /-- The quote that opened the literal around the position. -/
  quote : Option Char := none
  /-- The character before the position is a backslash that escapes what follows. -/
  escaped : Bool := false

namespace BindingState

/-- A character outside literals. -/
def stepPlain (s : BindingState) (c : Char) : BindingState :=
  if c = '\'' ∨ c = '"' ∨ c = '\x60' then { s with quote := some c }
  else if c = '(' ∨ c = '[' ∨ c = '\x7b' then { s with depth := s.depth + 1 }
  else if c = ')' ∨ c = ']' ∨ c = '\x7d' then { s with depth := s.depth - 1 }
  else s

/-- A character in a literal that `quote` opened. -/
def stepLiteral (s : BindingState) (quote c : Char) : BindingState :=
  if s.escaped then { s with escaped := false }
  else if c = '\\' then { s with escaped := true }
  else if c = quote then { s with quote := none }
  else s

end BindingState

/-- The bindings of a list from a state on. -/
def bindings (s : BindingState) : List Char → List (List Char)
  | [] => [[]]
  | c :: rest =>
    match s.quote with
    | some quote => Text.consFirst c (bindings (s.stepLiteral quote c) rest)
    | none =>
      if c = ',' ∧ s.depth = 0 then [] :: bindings s rest
      else if c = ';' ∧ s.depth = 0 then [[]]
      else Text.consFirst c (bindings (s.stepPlain c) rest)

/-- What may stand behind the name of a binding. -/
def endsName (rest : List Char) : Bool :=
  match rest with
  | [] => true
  | c :: _ => c == '=' || c == ':' || c == ',' || c == ';' || c == '!'

/-- The name that one binding declares. -/
def bindingName? (binding : List Char) : Option (List Char) :=
  match Text.identifier? (Text.trimStart binding) with
  | some (name, rest) => if endsName (Text.trimStart rest) then some name else none
  | none => none

/-- The names that a list of bindings declares. -/
def boundNames (list : List Char) : List (List Char) :=
  (bindings {} list).filterMap bindingName?

end Homonym.Source
