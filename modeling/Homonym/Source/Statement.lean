import Homonym.Declaration.Occurrence
import Homonym.Source.Bindings

/-!
# Declarations of a statement

`declared` reads the front of one statement: the modifiers, then the first form that fits. Every
form but the last declares a single name of its kind; a `const`, `let` or `var` statement declares
the names of its bindings.
-/

namespace Homonym.Source

open Text

/-- Reads the modifiers of a declaration: whether it is exported, and what follows them. -/
def modifiers (text : List Char) : Bool × List Char :=
  match keyword? "export" text with
  | some rest => (true, inner (skipKeyword "default" rest))
  | none => (false, inner text)
where
  inner (text : List Char) : List Char :=
    skipKeyword "async" (skipKeyword "abstract" (skipKeyword "declare" text))

/-- The name of a function: behind `function`, which no word character may follow directly, and an
optional star. -/
def functionName? (text : List Char) : Option (List Char) :=
  match after? "function".toList text with
  | none => none
  | some rest =>
    if rest.head?.any isWordPart then none
    else
      let rest := trimStart rest
      let rest := (after? ['*'] rest).getD rest
      (identifier? (trimStart rest)).map Prod.fst

/-- The identifier behind a keyword. -/
def namedBy? (word : String) (text : List Char) : Option (List Char) :=
  ((keyword? word text).bind identifier?).map Prod.fst

/-- The name of a type alias, behind which a type parameter, a definition or nothing must stand. -/
def aliasName? (text : List Char) : Option (List Char) :=
  match (keyword? "type" text).bind identifier? with
  | none => none
  | some (name, rest) =>
    match trimStart rest with
    | [] => some name
    | c :: _ => if c = '<' ∨ c = '=' then some name else none

/-- The name of an enumeration, constant or not. -/
def enumName? (text : List Char) : Option (List Char) :=
  namedBy? "enum" (skipKeyword "const" text)

/-- The further parts of a dotted name: as many as there are. The bound on their number is the
length of the text. -/
def dottedTail : Nat → List Char → List Char
  | 0, _ => []
  | fuel + 1, text =>
    match text with
    | '.' :: rest =>
      match identifier? rest with
      | some (name, after) => '.' :: (name ++ dottedTail fuel after)
      | none => []
    | _ => []

/-- A dotted name at the front. -/
def dottedName? (text : List Char) : Option (List Char) :=
  (identifier? text).map fun (name, rest) => name ++ dottedTail rest.length rest

/-- The dotted name of a namespace. -/
def namespaceName? (text : List Char) : Option (List Char) :=
  match keyword? "namespace" text with
  | some rest => dottedName? rest
  | none => (keyword? "module" text).bind dottedName?

/-- The forms that declare a single name, in the order in which they are tried. -/
def singleForms : List (Kind × (List Char → Option (List Char))) :=
  [(.function, functionName?),
   (.classType, namedBy? "class"),
   (.interfaceType, namedBy? "interface"),
   (.typeAlias, aliasName?),
   (.enumeration, enumName?),
   (.nameSpace, namespaceName?)]

/-- The first form that fits, with the name it declares. -/
def single? (text : List Char) : Option (Kind × List Char) :=
  singleForms.findSome? fun (kind, name?) => (name? text).map (kind, ·)

/-- The list of bindings behind `const`, `let` or `var`. -/
def bindingList? (text : List Char) : Option (List Char) :=
  (keyword? "const" text).or ((keyword? "let" text).or (keyword? "var" text))

/-- What a statement declares behind its modifiers. -/
def declaredNames (text : List Char) : List (Kind × List Char) :=
  match single? text with
  | some found => [found]
  | none =>
    match bindingList? text with
    | some list => (boundNames list).map (Kind.binding, ·)
    | none => []

/-- What a statement declares, and whether it exports it. -/
def declared (statement : List Char) : Bool × List (Kind × List Char) :=
  let (exported, rest) := modifiers statement
  (exported, declaredNames rest)

end Homonym.Source
