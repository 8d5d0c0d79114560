import Homonym.Expression.CharClass
import Homonym.Text.Hex

/-!
# Reading regular expressions

`Expression.parse?` reads the text of an expression. Outside brackets a dot, brackets,
parentheses, bars, anchors, repetitions and backslashes have a meaning; inside brackets also
ranges, nested brackets and the operators for intersection and difference. Modes such as `(?i)`
hold up to the end of the group in which they are set.

Sets are sets of characters. In the mode without Unicode they are sets of ASCII characters, and
everything that could take part of a character is refused, a negation above all.

The readers work on the front of a text and give what follows. Those that call themselves carry a
bound on the number of calls, and every call consumes a character.
-/

namespace Homonym.Expression

open Text

/-- How the text of an expression is understood. -/
structure Modes where
  /-- Letters stand for both cases. -/
  anyCase : Bool := false
  /-- The anchors hold at every line. -/
  byLine : Bool := false
  /-- The dot takes line feeds. -/
  dotAll : Bool := false
  /-- A carriage return ends a line as well. -/
  carriageReturns : Bool := false
  /-- Classes are those of all scripts. -/
  unicode : Bool := true
  /-- Blanks and comments mean nothing. -/
  spaced : Bool := false

/-! ## Blanks and comments -/

/-- The text behind blanks and comments at its front. -/
def dropComments (inComment : Bool) : List Char → List Char
  | [] => []
  | c :: rest =>
    if inComment then dropComments (c != '\n') rest
    else if isBlank c then dropComments false rest
    else if c = '#' then dropComments true rest
    else c :: rest

/-- The text from its first character that means something. -/
def Modes.skip (m : Modes) (text : List Char) : List Char :=
  if m.spaced then dropComments false text else text

/-! ## Assertions -/

/-- The character belongs to a word. -/
def Modes.isWord (m : Modes) (c : Option Char) : Bool :=
  c.any (if m.unicode then isWordChar else CharSet.asciiWord)

/-- The start of the text, or of a line. -/
def Modes.lineStart (m : Modes) : Look := fun before after =>
  before.isNone || (m.byLine &&
    (before == some '\n' || (m.carriageReturns && before == some '\r' && after != some '\n')))

/-- The end of the text, or of a line. -/
def Modes.lineEnd (m : Modes) : Look := fun before after =>
  after.isNone || (m.byLine &&
    if m.carriageReturns then after == some '\r' || (after == some '\n' && before != some '\r')
    else after == some '\n')

/-- The named assertions on word boundaries. -/
def Modes.boundary? (m : Modes) : String → Option Look
  | "start" => some fun before after => !m.isWord before && m.isWord after
  | "end" => some fun before after => m.isWord before && !m.isWord after
  | "start-half" => some fun before _ => !m.isWord before
  | "end-half" => some fun _ after => !m.isWord after
  | _ => none

/-! ## Sets -/

/-- A set with its room. -/
structure Sized where
  set : CharSet
  room : Nat

/-- A set with the other cases of its characters, where letters stand for both cases. -/
def Modes.fold (m : Modes) (set : CharSet) : CharSet :=
  if !m.anyCase then set
  else if m.unicode then set.anyCase
  else set.anyAsciiCase

/-- The complement of a set. Without Unicode it would hold parts of characters. -/
def Modes.negate? (m : Modes) (negated : Bool) (sized : Sized) : Option Sized :=
  if !negated then some sized
  else if m.unicode then some { set := sized.set.compl, room := sized.room + wideRoom }
  else none

/-- What a backslash and a letter, or a single character, stand for. -/
inductive Atom where
  /-- A character; `isByte` says that it is written as a byte. -/
  | literal (c : Char) (isByte : Bool)
  | set (sized : Sized)
  | look (holds : Look)

/-- A character as a set. Without Unicode a byte must be a whole character. -/
def Modes.literalSet? (m : Modes) (c : Char) (isByte : Bool) : Option CharSet :=
  if !m.unicode && isByte && 0x80 ≤ c.toNat then none else some (m.fold (· == c))

/-- The room of a character. -/
def literalRoom (c : Char) : Nat :=
  stateRoom * (String.utf8EncodeChar c).length

/-- A character in brackets. Without Unicode it must be ASCII. -/
def Modes.member? (m : Modes) (c : Char) : Option Char :=
  if !m.unicode && 0x80 ≤ c.toNat then none else some c

/-! ## Escapes -/

/-- The number of hexadecimal digits. -/
def hexNumber? (digits : List Char) : Option Nat :=
  digits.foldl (fun number c => do return 16 * (← number) + (← hexValue? c)) (some 0)

/-- The character with a number. -/
def charOfNumber? (n : Nat) : Option Char :=
  if n.isValidChar then some (Char.ofNat n) else none

/-- Characters up to a closing brace, without those that mean nothing, and what follows. The bound
is on the number of characters. -/
def Modes.braced? (m : Modes) : Nat → List Char → Option (List Char × List Char)
  | 0, _ => none
  | bound + 1, text =>
    match m.skip text with
    | [] => none
    | '\x7d' :: rest => some ([], rest)
    | c :: rest => (braced? m bound rest).map fun (inside, after) => (c :: inside, after)

/-- So many characters, each behind what means nothing, and what follows them. -/
def Modes.several? (m : Modes) : Nat → List Char → Option (List Char × List Char)
  | 0, text => some ([], text)
  | n + 1, text =>
    match m.skip text with
    | [] => none
    | c :: rest => (several? m n rest).map fun (found, after) => (c :: found, after)

/-- A character by its number in hexadecimal digits, of which there are `width` outside braces. -/
def Modes.hexEscape? (m : Modes) (width : Nat) (isByte : Bool) (text : List Char) :
    Option (Atom × List Char) :=
  match m.skip text with
  | '\x7b' :: rest => do
    let (digits, after) ← m.braced? (rest.length + 1) rest
    if digits.isEmpty then none
    else
      let c ← charOfNumber? (← hexNumber? digits)
      return (.literal c false, m.skip after)
  | other => do
    let (digits, after) ← m.several? width other
    let c ← charOfNumber? (← hexNumber? digits)
    return (.literal c isByte, m.skip after)

/-- The text before a mark and behind it, if it holds the mark. -/
def cutAt? (mark : List Char) : List Char → Option (List Char × List Char)
  | [] => none
  | c :: rest =>
    if mark.isPrefixOf (c :: rest) then some ([], (c :: rest).drop mark.length)
    else (cutAt? mark rest).map fun (front, after) => (c :: front, after)

/-- The set that the inside of a property's braces stands for, and whether it is negated. -/
def namedProperty? (text : List Char) : Option (CharSet × Bool) :=
  match cutAt? ['!', '='] text with
  | some (property, value) => (CharSet.propertyValue? property value).map (·, true)
  | none =>
    match cutAt? [':'] text with
    | some (property, value) => (CharSet.propertyValue? property value).map (·, false)
    | none =>
      match cutAt? ['='] text with
      | some (property, value) => (CharSet.propertyValue? property value).map (·, false)
      | none => (CharSet.property? text).map (·, false)

/-- The set of a property, which there is only with Unicode. -/
def Modes.propertySet? (m : Modes) (negated : Bool) (name : List Char) : Option Atom := do
  let (set, reversed) ← namedProperty? name
  if !m.unicode then none
  else
    let sized ← m.negate? (negated != reversed) { set := m.fold set, room := scatteredRoom }
    return .set sized

/-- A Unicode property, with its name behind the letter. -/
def Modes.property? (m : Modes) (negated : Bool) (text : List Char) : Option (Atom × List Char) :=
  match m.skip text with
  | [] => none
  | '\x7b' :: rest => do
    let (name, after) ← m.braced? (rest.length + 1) rest
    return (← m.propertySet? negated name, after)
  | '\\' :: _ => none
  | c :: rest => do return (← m.propertySet? negated [c], m.skip rest)

/-- The class of a letter, of ASCII or of all scripts. -/
def Modes.letterClass? (m : Modes) (letter : Char) : Option Sized :=
  match letter with
  | 'd' => some (if m.unicode then ⟨CharSet.digit, 4000⟩ else ⟨Char.isDigit, smallRoom⟩)
  | 's' => some (if m.unicode then ⟨isBlank, wideRoom⟩ else ⟨CharSet.asciiSpace, smallRoom⟩)
  | 'w' =>
    some (if m.unicode then ⟨isWordChar, scatteredRoom⟩ else ⟨CharSet.asciiWord, smallRoom⟩)
  | _ => none

/-- The control that a backslash and a letter stand for. -/
def control? : Char → Option Char
  | 'a' => some '\x07'
  | 'f' => some '\x0c'
  | 't' => some '\t'
  | 'n' => some '\n'
  | 'r' => some '\r'
  | 'v' => some '\x0b'
  | _ => none

/-- A character that a backslash does not change. -/
def isEscapable (c : Char) : Bool :=
  c.toNat < 0x80 && !c.isAlphanum && c != '<' && c != '>'

/-- A character of the name of a word boundary. -/
def isBoundaryChar (c : Char) : Bool :=
  c.isAlpha || c == '-'

/-- A word boundary, which may have a name in braces. Braces that hold no name belong to a
repetition. -/
def Modes.wordBoundary? (m : Modes) (text : List Char) : Option (Atom × List Char) :=
  let plain : Look := fun before after => m.isWord before != m.isWord after
  match text with
  | '\x7b' :: rest =>
    match m.skip rest with
    | [] => none
    | c :: more =>
      if !isBoundaryChar c then some (.look plain, text)
      else do
        let (name, after) ← m.braced? (more.length + 2) (c :: more)
        return (.look (← m.boundary? (String.ofList name)), after)
  | _ => some (.look plain, text)

/-- What a backslash and the text behind it stand for. -/
def Modes.escape? (m : Modes) (text : List Char) : Option (Atom × List Char) :=
  match text with
  | [] => none
  | 'x' :: rest => m.hexEscape? 2 true rest
  | 'u' :: rest => m.hexEscape? 4 false rest
  | 'U' :: rest => m.hexEscape? 8 false rest
  | 'p' :: rest => m.property? false rest
  | 'P' :: rest => m.property? true rest
  | 'A' :: rest => some (.look fun before _ => before.isNone, rest)
  | 'z' :: rest => some (.look fun _ after => after.isNone, rest)
  | 'b' :: rest => m.wordBoundary? rest
  | 'B' :: rest => some (.look fun before after => m.isWord before == m.isWord after, rest)
  | '<' :: rest => (m.boundary? "start").map fun holds => (.look holds, rest)
  | '>' :: rest => (m.boundary? "end").map fun holds => (.look holds, rest)
  | c :: rest =>
    match m.letterClass? c.toLower with
    | some sized => (m.negate? c.isUpper sized).map fun found => (.set found, rest)
    | none =>
      match control? c with
      | some control => some (.literal control false, rest)
      | none => if isEscapable c then some (.literal c false, rest) else none

/-! ## Brackets -/

/-- An operator between sets. -/
inductive SetOperator where
  | inter
  | diff
  | symmDiff

/-- The set that an operator makes of two. -/
def SetOperator.apply : SetOperator → CharSet → CharSet → CharSet
  | .inter => CharSet.inter
  | .diff => CharSet.diff
  | .symmDiff => CharSet.symmDiff

/-- An operator at the front. -/
def setOperator? : List Char → Option (SetOperator × List Char)
  | '&' :: '&' :: rest => some (.inter, rest)
  | '-' :: '-' :: rest => some (.diff, rest)
  | '~' :: '~' :: rest => some (.symmDiff, rest)
  | _ => none

/-- A bracket that is being read: what waits on the left of an operator, and the union of what has
been read since. -/
structure OpenBracket where
  left : Option (SetOperator × CharSet) := none
  union : CharSet := CharSet.none
  room : Nat := smallRoom

/-- The bracket with one more set. -/
def OpenBracket.add (b : OpenBracket) (sized : Sized) : OpenBracket :=
  { b with union := b.union.union sized.set, room := b.room + sized.room }

/-- The bracket with one more character. -/
def OpenBracket.addChar (b : OpenBracket) (c : Char) : OpenBracket :=
  b.add ⟨(· == c), 8⟩

/-- What has been read of a bracket, as one set. -/
def OpenBracket.value (m : Modes) (b : OpenBracket) : CharSet :=
  match b.left with
  | none => b.union
  | some (operator, left) => operator.apply (m.fold left) (m.fold b.union)

/-- The bracket with all that has been read on the left of an operator. -/
def OpenBracket.operate (m : Modes) (b : OpenBracket) (operator : SetOperator) : OpenBracket :=
  { b with left := some (operator, b.value m), union := CharSet.none }

/-- A class between colons at the front, behind its opening bracket: its name and whether it is
negated. -/
def colonClass? (text : List Char) : Option (CharSet × Bool × List Char) :=
  match text with
  | ':' :: rest =>
    let negated := rest.head? == some '^'
    let named := if negated then rest.drop 1 else rest
    match named.dropWhile (· != ':') with
    | ':' :: ']' :: after =>
      (CharSet.asciiClass? (String.ofList (named.takeWhile (· != ':')))).map (·, negated, after)
    | _ => none
  | _ => none

/-- One character or class in brackets. -/
def Modes.bracketAtom? (m : Modes) : List Char → Option (Atom × List Char)
  | [] => none
  | '\\' :: rest => m.escape? rest
  | c :: rest => some (.literal c false, rest)

/-- A range, a character or a class in brackets. -/
def Modes.bracketItem? (m : Modes) (text : List Char) : Option (Sized × List Char) := do
  let (first, after) ← m.bracketAtom? text
  let single : Option (Sized × List Char) :=
    match first with
    | .literal c _ => (m.member? c).map fun c => (⟨(· == c), 8⟩, m.skip after)
    | .set sized => some (sized, m.skip after)
    | .look _ => none
  match m.skip after with
  | [] => none
  | '-' :: rest =>
    match m.skip rest with
    | [] => none
    | ']' :: _ => single
    | '-' :: _ => single
    | next => do
      let (last, after) ← m.bracketAtom? next
      match first, last with
      | .literal a _, .literal b _ =>
        let a ← m.member? a
        let b ← m.member? b
        if b < a then none else return (⟨CharSet.range a b, 8⟩, after)
      | _, _ => none
  | _ => single

/-- Hyphens at the front of a bracket, which stand for themselves. The bound is on their number. -/
def Modes.leadingHyphens (m : Modes) : Nat → OpenBracket → List Char → OpenBracket × List Char
  | 0, b, text => (b, text)
  | bound + 1, b, text =>
    match text with
    | '-' :: rest => leadingHyphens m bound (b.addChar '-') (m.skip rest)
    | _ => (b, text)

/-- The start of a bracket behind its opening: whether it is negated, and what stands at its
front. A closing bracket there stands for itself. -/
def Modes.bracketStart (m : Modes) (text : List Char) : Bool × OpenBracket × List Char :=
  let text := m.skip text
  let negated := text.head? == some '^'
  let text := if negated then m.skip (text.drop 1) else text
  match text with
  | ']' :: rest => (negated, ({} : OpenBracket).addChar ']', m.skip rest)
  | _ => (negated, m.leadingHyphens text.length {} text)

/-- Reads a bracket up to its end. The bound is on the number of calls. -/
def Modes.bracketRest? (m : Modes) :
    Nat → Bool → OpenBracket → List Char → Option (Sized × List Char)
  | 0, _, _, _ => none
  | bound + 1, negated, b, text =>
    match m.skip text with
    | [] => none
    | ']' :: rest =>
      (m.negate? negated ⟨m.fold (b.value m), b.room⟩).map fun found => (found, rest)
    | '[' :: rest =>
      match colonClass? rest with
      | some (set, reversed, after) => do
        let sized ← m.negate? reversed ⟨m.fold set, smallRoom⟩
        bracketRest? m bound negated (b.add sized) after
      | none => do
        let (inner, start, after) := m.bracketStart rest
        let (sized, after) ← bracketRest? m bound inner start after
        bracketRest? m bound negated (b.add sized) after
    | other =>
      match setOperator? other with
      | some (operator, after) => bracketRest? m bound negated (b.operate m operator) after
      | none => do
        let (sized, after) ← m.bracketItem? other
        bracketRest? m bound negated (b.add sized) after

/-- Reads a bracket behind its opening. -/
def Modes.bracket? (m : Modes) (text : List Char) : Option (Expression × List Char) := do
  let (negated, start, rest) := m.bracketStart text
  let (found, after) ← m.bracketRest? (rest.length + 1) negated start rest
  return (.choice [.one found.set found.room], after)

/-! ## Repetitions -/

/-- A decimal number with blanks around it. -/
def Modes.count? (m : Modes) (text : List Char) : Option (Nat × List Char) :=
  let start := text.dropWhile isBlank
  let digits := start.takeWhile Char.isDigit
  let after := m.skip ((start.dropWhile Char.isDigit).dropWhile isBlank)
  if digits.isEmpty then none
  else
    let n := Nat.ofDigitChars 10 digits 0
    if n ≤ 4294967295 then some (n, after) else none

/-- The numbers of a repetition behind its opening brace. -/
def Modes.counts? (m : Modes) (text : List Char) : Option ((Nat × Option Nat) × List Char) := do
  let (least, after) ← m.count? (m.skip text)
  match after with
  | '\x7d' :: rest => return ((least, some least), m.skip rest)
  | ',' :: rest =>
    match m.skip rest with
    | '\x7d' :: after => return ((least, none), m.skip after)
    | other => do
      let (most, after) ← m.count? other
      match after with
      | '\x7d' :: rest => if most < least then none else return ((least, some most), m.skip rest)
      | _ => none
  | _ => none

/-- The text without a question mark at its front, which says which stretch to prefer. -/
def dropPreference : List Char → List Char
  | '?' :: rest => rest
  | text => text

/-- Repeats the last of some parts, last first. What takes nothing and asks for nothing cannot be
repeated. -/
def repeatLast? (least : Nat) (most : Option Nat) : List Expression → Option (List Expression)
  | [] => none
  | part :: before => if part.isNothing then none else some (.repeated part least most :: before)

/-! ## Groups -/

/-- The modes with one of them set, by its letter. -/
def Modes.set? (m : Modes) (letter : Char) (value : Bool) : Option Modes :=
  match letter with
  | 'i' => some { m with anyCase := value }
  | 'm' => some { m with byLine := value }
  | 's' => some { m with dotAll := value }
  | 'R' => some { m with carriageReturns := value }
  | 'u' => some { m with unicode := value }
  | 'x' => some { m with spaced := value }
  | 'U' => some m
  | _ => none

/-- Letters of modes up to a colon or a closing parenthesis: the modes, and what follows with that
mark. No letter stands twice, and one hyphen may turn those behind it off. -/
def readModes (m : Modes) (seen : List Char) : List Char → Option (Modes × List Char)
  | [] => none
  | c :: rest =>
    if c = ':' ∨ c = ')' then
      if seen.head? = some '-' then none else some (m, c :: rest)
    else if c ∈ seen then none
    else if c = '-' then readModes m (c :: seen) rest
    else
      match m.set? c (!seen.contains '-') with
      | none => none
      | some next => readModes next (c :: seen) rest

/-- A character of the name of a group. -/
def isNameChar (atFront : Bool) (c : Char) : Bool :=
  c == '_' || isLetter c ||
    (!atFront && (c == '.' || c == '[' || c == ']' || (Category.of c).isIn 'n'))

/-- The name of a group up to its closing bracket. -/
def groupName? (text : List Char) : Option (List Char × List Char) :=
  let name := text.takeWhile (· != '>')
  match text.dropWhile (· != '>') with
  | [] => none
  | _ :: after =>
    if (name.head?.any (isNameChar true)) && name.all (isNameChar false) then some (name, after)
    else none

/-- What is known while an expression is read: the modes, and the names of groups. -/
structure Reading where
  modes : Modes := {}
  names : List (List Char) := []

/-- How a parenthesis opens. -/
inductive Opening where
  /-- Modes for what follows. -/
  | modes (modes : Modes)
  /-- A group. -/
  | group (reading : Reading)

/-- A group with a name at the front. -/
def Reading.named? (r : Reading) (text : List Char) : Option (Opening × List Char) := do
  let (name, after) ← groupName? text
  if name ∈ r.names then none else return (.group { r with names := name :: r.names }, after)

/-- How the parenthesis before a text opens. -/
def Reading.opening? (r : Reading) (text : List Char) : Option (Opening × List Char) :=
  match text with
  | '?' :: '=' :: _ => none
  | '?' :: '!' :: _ => none
  | '?' :: '<' :: '=' :: _ => none
  | '?' :: '<' :: '!' :: _ => none
  | '?' :: 'P' :: '<' :: rest => r.named? rest
  | '?' :: '<' :: rest => r.named? rest
  | '?' :: ')' :: _ => none
  | '?' :: rest =>
    match readModes r.modes [] rest with
    | some (modes, ':' :: after) => some (.group { r with modes }, after)
    | some (modes, _ :: after) => some (.modes modes, after)
    | _ => none
  | _ => some (.group r, text)

/-! ## Expressions -/

/-- What a character or an escape outside brackets stands for. -/
def Modes.atomExpression? (m : Modes) : Atom → Option Expression
  | .literal c isByte => (m.literalSet? c isByte).map fun set => .one set (literalRoom c)
  | .set sized => some (.one sized.set sized.room)
  | .look holds => some (.look holds)

/-- The dot. Without Unicode it would take parts of characters. -/
def Modes.dot? (m : Modes) : Option Expression :=
  if !m.unicode then none
  else
    some (.one (fun c => m.dotAll || (c != '\n' && !(m.carriageReturns && c == '\r'))) wideRoom)

/-- A single part of an expression that is no group, bracket or repetition. -/
def Modes.primitive? (m : Modes) : List Char → Option (Expression × List Char)
  | [] => none
  | '.' :: rest => m.dot?.map (·, rest)
  | '^' :: rest => some (.look m.lineStart, rest)
  | '$' :: rest => some (.look m.lineEnd, rest)
  | '\\' :: rest => do
    let (atom, after) ← m.escape? rest
    return (← m.atomExpression? atom, after)
  | c :: rest => (m.atomExpression? (.literal c false)).map (·, rest)

/-- Reads branches up to a closing parenthesis or the end: the finished branches and the parts of
the current one are given, both last first. The bound is on the number of calls. -/
def branches? : Nat → Reading → List Expression → List Expression → List Char →
    Option (Expression × Reading × List Char)
  | 0, _, _, _, _ => none
  | bound + 1, r, done, parts, text =>
    let branch := ofParts parts.reverse
    let m := r.modes
    match m.skip text with
    | [] => some (ofBranches (branch :: done).reverse, r, [])
    | ')' :: rest => some (ofBranches (branch :: done).reverse, r, ')' :: rest)
    | '|' :: rest => branches? bound r (branch :: done) [] rest
    | '(' :: rest =>
      match r.opening? (m.skip rest) with
      | none => none
      | some (.modes modes, after) =>
        branches? bound { r with modes } done (.nothing :: parts) after
      | some (.group inner, after) =>
        match branches? bound inner [] [] after with
        | some (e, last, ')' :: behind) =>
          branches? bound { r with names := last.names } done (.group e :: parts) behind
        | _ => none
    | '[' :: rest => do
      let (e, after) ← m.bracket? rest
      branches? bound r done (e :: parts) after
    | '?' :: rest => do
      branches? bound r done (← repeatLast? 0 (some 1) parts) (dropPreference rest)
    | '*' :: rest => do
      branches? bound r done (← repeatLast? 0 none parts) (dropPreference rest)
    | '+' :: rest => do
      branches? bound r done (← repeatLast? 1 none parts) (dropPreference rest)
    | '\x7b' :: rest => do
      let ((least, most), after) ← m.counts? rest
      branches? bound r done (← repeatLast? least most parts) (dropPreference after)
    | other => do
      let (e, after) ← m.primitive? other
      branches? bound r done (e :: parts) after

/-- Reads an expression that keeps to the limits. -/
def parse? (text : List Char) : Option Expression :=
  match branches? (text.length + 1) {} [] [] text with
  | some (e, _, []) => if e.isModest then some e else none
  | _ => none

end Homonym.Expression
