import Homonym.Expression.Basic

/-!
# Searching for regular expressions

A text of `n` characters has `n + 1` places, before, between and behind them. Matching works on
sets of places, as lists of truth values in order: `Expression.image` gives the places where a
stretch can end that the expression describes and that starts at one of the given places. A
repetition is followed until no new place is reached, which takes no more rounds than there are
places.
-/

namespace Homonym.Expression

/-- A set of places of a text. -/
abbrev Places := List Bool

/-- The characters around every place of a text, where `before` is the one before the first. -/
def surroundings (before : Option Char) : List Char → List (Option Char × Option Char)
  | [] => [(before, none)]
  | c :: rest => (before, some c) :: surroundings (some c) rest

/-- The places in one of two sets. -/
def Places.union (a b : Places) : Places :=
  List.zipWith or a b

/-- The places behind one character of a set. -/
def Places.advance (set : CharSet) (text : List Char) (places : Places) : Places :=
  false :: List.zipWith (fun c start => start && set c) text places

/-- The places where an assertion holds. -/
def Places.keep (holds : Look) (text : List Char) (places : Places) : Places :=
  List.zipWith (fun (around : Option Char × Option Char) start => start && holds around.1 around.2)
    (surroundings none text) places

/-- The places after so many steps. -/
def Places.after (step : Places → Places) : Nat → Places → Places
  | 0, places => places
  | n + 1, places => if places.any id then Places.after step n (step places) else places

/-- The places after at most so many steps. -/
def Places.within (step : Places → Places) : Nat → Places → Places
  | 0, places => places
  | n + 1, places =>
    let next := places.union (step places)
    if next == places then places else Places.within step n next

mutual

/-- The places where a stretch can end that the expression describes and that starts at one of some
places. -/
def image (text : List Char) : Expression → Places → Places
  | .nothing, places => places
  | .one set _, places => places.advance set text
  | .look holds, places => places.keep holds text
  | .group inner, places => image text inner places
  | .sequence parts, places => imageAll text parts places
  | .choice branches, places => imageSome text branches places
  | .repeated inner least most, places =>
    let start := Places.after (image text inner) least places
    let rounds :=
      match most with
      | some most => most - least
      | none => text.length + 1
    Places.within (image text inner) rounds start

/-- The places where stretches of some expressions can end, one behind the other. -/
def imageAll (text : List Char) : List Expression → Places → Places
  | [], places => places
  | part :: rest, places => imageAll text rest (image text part places)

/-- The places where a stretch of one of some expressions can end. -/
def imageSome (text : List Char) : List Expression → Places → Places
  | [], places => places.map fun _ => false
  | branch :: rest, places => (image text branch places).union (imageSome text rest places)

end

/-- The expression describes some stretch of the text. -/
def isFoundIn (e : Expression) (text : List Char) : Bool :=
  (e.image text (List.replicate (text.length + 1) true)).any id

end Homonym.Expression
