import Homonym.Pattern.Glob

/-!
# Reading globs

`Glob.parse` reads the text of a glob. A question mark and stars are wild, brackets hold the
characters of one byte, braces hold alternatives divided by commas, and a backslash takes the
meaning from the character behind it. A bracket that is never closed stands for itself, and so does
every bracket after it.

A double star is a token of its own where it stands for whole directories: at the front, or behind a
slash, and before a slash or the end. Everywhere else it is two single stars.
-/

namespace Homonym.Pattern

/-- What is wrong with a glob. -/
inductive GlobError where
  | unopenedGroup
  | unclosedGroup
  | danglingEscape
  | reversedRange (first last : Char)
deriving DecidableEq

/-- The fault in words. -/
def GlobError.message : GlobError → String
  | .unopenedGroup =>
    "unopened alternate group; missing '\x7b' (maybe escape '\x7d' with '[\x7d]'?)"
  | .unclosedGroup =>
    "unclosed alternate group; missing '\x7d' (maybe escape '\x7b' with '[\x7b]'?)"
  | .danglingEscape => "dangling '\\'"
  | .reversedRange first last =>
    "invalid range; '" ++ String.singleton first ++ "' > '" ++ String.singleton last ++ "'"

/-- A group of alternatives that is still open: the tokens before it and its finished branches, both
last first. -/
structure OpenGroup where
  before : List Token
  branches : List (List Token)

/-- A glob that is being read. -/
structure Draft where
  /-- The tokens of the innermost branch, last first. -/
  tokens : List Token := []
  /-- The open groups, innermost first. -/
  groups : List OpenGroup := []
  /-- The character that was read last. -/
  last : Option Char := none
  /-- Brackets stand for themselves. -/
  plainBrackets : Bool := false

/-- The draft with one more token. -/
def Draft.push (d : Draft) (token : Token) : Draft :=
  { d with tokens := token :: d.tokens }

/-- The draft with its last token replaced. -/
def Draft.replaceLast (d : Draft) (f : Option Token → Token) : Draft :=
  { d with tokens := f d.tokens.head? :: d.tokens.tail }

/-- The draft with two stars at its end. -/
def Draft.pushStars (d : Draft) : Draft :=
  (d.push .star).push .star

/-- The token takes nothing and asks for nothing. -/
def Token.isVoid : Token → Bool
  | .alternates [] => true
  | _ => false

/-- The draft with a group opened. -/
def Draft.openGroup (d : Draft) : Draft :=
  { d with tokens := [], groups := ⟨d.tokens, []⟩ :: d.groups }

/-- The draft with the next branch of the innermost group begun; outside all groups a comma stands
for itself. -/
def Draft.nextBranch (d : Draft) : Draft :=
  match d.groups with
  | [] => d.push (.literal ',')
  | g :: outer => { d with tokens := [], groups := ⟨g.before, d.tokens :: g.branches⟩ :: outer }

/-- The draft with the innermost group closed. Branches that ask for nothing are left out. -/
def Draft.closeGroup (d : Draft) : Except GlobError Draft :=
  match d.groups with
  | [] => .error .unopenedGroup
  | g :: outer =>
    let branches := (d.tokens :: g.branches).reverse.map List.reverse
    let kept := branches.filter fun branch => !branch.all Token.isVoid
    .ok { d with tokens := .alternates kept :: g.before, groups := outer }

/-- The token of a double star behind a slash. One that follows another double star adds nothing to
it, unless it changes where that one stands. -/
def doubleStar (atEnd : Bool) : Option Token → Token
  | some .leading => .leading
  | some .trailing => .trailing
  | _ => if atEnd then .trailing else .between

/-- The draft with the stars at the front of a text, of which the first has been read, and the
number of characters taken besides it. -/
def Draft.stars (d : Draft) (rest : List Char) : Draft × Nat :=
  match rest with
  | '*' :: after =>
    if d.tokens.isEmpty then
      match after with
      | [] => (d.push .leading, 1)
      | '/' :: _ => (d.push .leading, 2)
      | _ => (d.pushStars, 1)
    else if d.last = some '/' ∨
        (¬ d.groups.isEmpty ∧ (d.last = some ',' ∨ d.last = some '\x7b')) then
      match after with
      | [] => (d.replaceLast (doubleStar true), 1)
      | '/' :: _ => (d.replaceLast (doubleStar false), 2)
      | c :: _ =>
        if ¬ d.groups.isEmpty ∧ (c = ',' ∨ c = '\x7d') then (d.replaceLast (doubleStar true), 1)
        else (d.pushStars, 1)
    else (d.pushStars, 1)
  | _ => (d.push .star, 0)

/-- The ranges of a bracket up to its end, and the number of characters they take. At the front
neither the closing bracket nor the hyphen has its meaning. `ranges` are those read before, last
first, and `isOpen` says that a hyphen waits for the end of the last one. -/
def classRanges (ranges : List (Char × Char)) (atFront isOpen : Bool) :
    List Char → Except GlobError (Option (List (Char × Char) × Nat))
  | [] => .ok none
  | c :: rest =>
    let onward (ranges : List (Char × Char)) (isOpen : Bool) :=
      (classRanges ranges false isOpen rest).map
        (Option.map fun (found, taken) => (found, taken + 1))
    if c = ']' && !atFront then
      .ok (some ((if isOpen then ('-', '-') :: ranges else ranges).reverse, 1))
    else if c = '-' && !atFront && !isOpen then onward ranges true
    else if isOpen then
      match ranges with
      | (first, _) :: more =>
        if c < first then .error (.reversedRange first c) else onward ((first, c) :: more) false
      | [] => onward [(c, c)] false
    else onward ((c, c) :: ranges) false

/-- The draft with the bracket whose inside is at the front of a text, and the number of characters
taken. -/
def Draft.bracket (d : Draft) (rest : List Char) : Except GlobError (Draft × Nat) :=
  let negated := rest.head? == some '!' || rest.head? == some '^'
  let mark := if negated then 1 else 0
  match classRanges [] true false (rest.drop mark) with
  | .error e => .error e
  | .ok none => .ok ({ d.push (.literal '[') with plainBrackets := true }, 0)
  | .ok (some (ranges, taken)) => .ok (d.push (.oneOf negated ranges), mark + taken)

/-- The draft with a character and what belongs to it, and the number of characters of the rest that
this takes. -/
def Draft.step (d : Draft) (c : Char) (rest : List Char) : Except GlobError (Draft × Nat) :=
  match c with
  | '?' => .ok (d.push .any, 0)
  | '*' => .ok (d.stars rest)
  | '[' => if d.plainBrackets then .ok (d.push (.literal '['), 0) else d.bracket rest
  | '\x7b' => .ok (d.openGroup, 0)
  | '\x7d' => d.closeGroup.map (·, 0)
  | ',' => .ok (d.nextBranch, 0)
  | '\\' =>
    match rest with
    | [] => .error .danglingEscape
    | e :: _ => .ok (d.push (.literal e), 1)
  | c => .ok (d.push (.literal c), 0)

/-- The draft with a whole text, of which the first characters have been taken already. -/
def Draft.read (d : Draft) : Nat → List Char → Except GlobError Draft
  | _, [] => .ok d
  | taken + 1, c :: rest => read { d with last := some c } taken rest
  | 0, c :: rest =>
    match d.step c rest with
    | .error e => .error e
    | .ok (next, taken) => read { next with last := some c } taken rest

/-- Reads a glob. -/
def Glob.parse (text : List Char) : Except GlobError Glob :=
  match Draft.read {} 0 text with
  | .error e => .error e
  | .ok d => if d.groups.isEmpty then .ok ⟨d.tokens.reverse⟩ else .error .unclosedGroup

end Homonym.Pattern
