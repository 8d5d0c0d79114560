import Homonym.Pattern.GlobMatch

/-!
# How deep globs nest

A list of globs is compiled as regular expressions, in which groups, alternatives, sequences,
repetitions and classes may nest at most `nestingLimit` deep. A glob that nests deeper makes the
whole list unusable. Only groups in braces can nest, so no other glob comes near the limit.
-/

namespace Homonym.Pattern

/-- How deep the expression of a glob may nest. -/
def nestingLimit : Nat := 250

/-- How many parts of a sequence a token makes. -/
def Token.parts : Token → Nat
  | .literal c => (String.utf8EncodeChar c).length
  | .trailing => 2
  | .alternates [] => 0
  | _ => 1

/-- One level more if there are several parts. -/
def levelIfSeveral (parts : Nat) : Nat :=
  if 2 ≤ parts then 1 else 0

/-- How many parts of a sequence some tokens make. -/
def partsOf (tokens : List Token) : Nat :=
  tokens.foldr (fun token parts => token.parts + parts) 0

mutual

/-- How many levels the expression of a token has. -/
def Token.levels : Token → Nat
  | .literal _ => 0
  | .any => 1
  | .star => 2
  | .leading => 4
  | .trailing => 1
  | .between => 4
  | .oneOf _ _ => 2
  | .alternates [] => 0
  | .alternates (branch :: rest) =>
    1 + levelIfSeveral (rest.length + 1) +
      max (levelIfSeveral (partsOf branch) + levelsAll branch) (levelsSome rest)

/-- How many levels the deepest of some tokens has. -/
def levelsAll : List Token → Nat
  | [] => 0
  | token :: rest => max token.levels (levelsAll rest)

/-- How many levels the deepest of some branches has. -/
def levelsSome : List (List Token) → Nat
  | [] => 0
  | branch :: rest =>
    max (levelIfSeveral (partsOf branch) + levelsAll branch) (levelsSome rest)

end

namespace Glob

/-- The expression of the glob nests too deep. -/
def isTooDeep (glob : Glob) : Bool :=
  nestingLimit < 1 + levelsAll glob.tokens

/-- The glob ends with a dot and further characters that stand for themselves, without a slash. -/
def hasExtension (glob : Glob) : Bool :=
  let ending := (glob.tokens.reverse.takeWhile Token.isLiteral).takeWhile fun t => !t.isChar '/'
  ending.any (Token.isChar '.')

/-- The glob is a plain path, or all that a plain path holds. -/
def isPlain (glob : Glob) : Bool :=
  match glob.tokens with
  | [] => false
  | [.leading] => false
  | .leading :: rest => rest.all Token.isLiteral
  | tokens =>
    tokens.all Token.isLiteral ||
      (match tokens.reverse with
        | .trailing :: front => front.all Token.isLiteral
        | _ => false)

/-- The glob takes part in the search for all globs of a list at once. -/
def isSearched (glob : Glob) : Bool :=
  !glob.isPlain && !glob.hasExtension

end Glob

/-- The place of the first glob that nests too deep, among those that are searched for at once. -/
def tooDeepAt? (globs : List Glob) : Option Nat :=
  if globs.any Glob.isTooDeep then
    some (((globs.filter Glob.isSearched).takeWhile fun glob => !glob.isTooDeep).length)
  else none

end Homonym.Pattern
