/-!
# Text without escape sequences

`plain` takes out of a text what would steer a terminal: sequences that an escape begins, and all
controls but blanks. A sequence ends with its final character, or a string in it with a bell or
another sequence; two controls cancel every sequence.
-/

namespace Homonym.Log

/-- Where in a sequence a text stands. -/
inductive Steering where
  | outside
  /-- Behind the escape. -/
  | begun
  /-- Behind the escape and characters that do not end the sequence. -/
  | pending
  /-- In the parameters of a control sequence. -/
  | parameters
  /-- In a string, which a bell ends or not. -/
  | string (endsWithBell : Bool)
deriving DecidableEq

namespace Steering

/-- The character is a control that counts as a blank. -/
def isBlankControl (c : Char) : Bool :=
  c == '\t' || c == '\n' || c == '\x0c' || c == '\r'

/-- What a character behind the escape leads to. -/
def begin (c : Char) : Steering :=
  if c = '[' then .parameters
  else if c = ']' then .string true
  else if c = 'P' || c = 'X' || c = '^' || c = '_' then .string false
  else if ' ' ≤ c && c ≤ '/' then .pending
  else if '0' ≤ c && c ≤ '~' then .outside
  else .begun

/-- What a character leads to. -/
def next (s : Steering) (c : Char) : Steering :=
  if c = '\x18' || c = '\x1a' then .outside
  else if c = '\x1b' then .begun
  else
    match s with
    | .outside => .outside
    | .begun => begin c
    | .pending => if '0' ≤ c && c ≤ '~' then .outside else .pending
    | .parameters => if '@' ≤ c && c ≤ '~' then .outside else .parameters
    | .string endsWithBell => if endsWithBell && c = '\x07' then .outside else s

/-- The character stays in the text. -/
def keeps (s : Steering) (c : Char) : Bool :=
  match s with
  | .outside => isBlankControl c || (' ' ≤ c && c != '\x7f')
  | .string _ => false
  | _ => isBlankControl c

end Steering

/-- The text without escape sequences, from a place in a sequence on. -/
def plainFrom : Steering → List Char → List Char
  | _, [] => []
  | s, c :: rest => if s.keeps c then c :: plainFrom (s.next c) rest else plainFrom (s.next c) rest

/-- The text without escape sequences and controls. -/
def plain (text : List Char) : List Char :=
  plainFrom .outside text

end Homonym.Log
