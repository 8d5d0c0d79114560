import Homonym.Pattern.GlobNesting

/-!
# How much room globs take

A list of globs is compiled into automata: one for all globs that are searched for at once, and one
for each glob that is looked up by the extension it ends with. Plain globs and globs that ask for an
extension alone are looked up as they are. An automaton may take at most `roomLimit`; a larger one
makes the whole list unusable, as a glob that nests too deep does (`fault?`).

The room of an automaton is counted in bytes, by a rough measure: a state takes `stateRoom`, and
more if several ways lead on from it.
-/

namespace Homonym.Pattern

/-- How much room an automaton may take. -/
def roomLimit : Nat := 10485760

/-- The room of a state. -/
def stateRoom : Nat := 32

/-- The room of one more way that leads on from a state. -/
def wayRoom : Nat := 4

/-- The room of a state from which two ways lead on. -/
def forkRoom : Nat := stateRoom + 2 * wayRoom

/-- The room of one byte in some ranges, with a state behind it. -/
def setRoom (ranges : Nat) : Nat := 2 * stateRoom + 8 * ranges

/-- The room of any bytes up to and with a slash. -/
def dirsRoom : Nat := setRoom 1 + forkRoom + stateRoom

mutual

/-- The room of a token. -/
def Token.room : Token → Nat
  | .literal c => stateRoom * (String.utf8EncodeChar c).length
  | .any => setRoom 2
  | .star => setRoom 2 + forkRoom
  | .leading => 2 * forkRoom + 3 * stateRoom + dirsRoom
  | .trailing => dirsRoom
  | .between => forkRoom + 3 * stateRoom + dirsRoom
  | .oneOf _ ranges => setRoom (ranges.length + 1)
  | .alternates [] => 0
  | .alternates (branch :: rest) => 2 * stateRoom + wayRoom + roomAll branch + roomSome rest

/-- The room of some tokens, one after the other. -/
def roomAll : List Token → Nat
  | [] => 0
  | token :: rest => token.room + roomAll rest

/-- The room of some branches. -/
def roomSome : List (List Token) → Nat
  | [] => 0
  | branch :: rest => wayRoom + roomAll branch + roomSome rest

end

namespace Glob

/-- The room of a glob: that of its tokens, of both ends, and of three states that mark a match. -/
def room (glob : Glob) : Nat :=
  5 * stateRoom + wayRoom + roomAll glob.tokens

/-- The glob asks for an extension alone, in any directory. -/
def isBareExtension (glob : Glob) : Bool :=
  match glob.tokens with
  | .leading :: .star :: .literal '.' :: rest =>
    rest.all fun t => t.isLiteral && !t.isChar '.' && !t.isChar '/'
  | _ => false

/-- The glob is looked up by the extension it ends with, and compiled for itself. -/
def isKeyed (glob : Glob) : Bool :=
  glob.hasExtension && !glob.isPlain && !glob.isBareExtension

end Glob

/-- The room of some globs together. -/
def roomTogether : List Glob → Nat
  | [] => 0
  | glob :: rest => glob.room + roomTogether rest

/-- The room of an automaton for some globs. -/
def automatonRoom (globs : List Glob) : Nat :=
  3 * stateRoom + roomTogether globs

/-- An automaton for some of the globs takes too much room. -/
def areTooLarge (globs : List Glob) : Bool :=
  roomLimit < automatonRoom (globs.filter Glob.isSearched) ||
    globs.any fun glob => glob.isKeyed && decide (roomLimit < automatonRoom [glob])

/-- Why a list of globs cannot be used, if it cannot. -/
def fault? (globs : List Glob) : Option String :=
  match tooDeepAt? globs with
  | some place => some ("error parsing pattern " ++ toString place)
  | none => if areTooLarge globs then some "error building NFA" else none

/-! ## Lists that cannot be used -/

/-- A list cannot be used if one of its globs nests too deep or an automaton takes too much room. -/
theorem isSome_fault? (globs : List Glob) :
    (fault? globs).isSome = (globs.any Glob.isTooDeep || areTooLarge globs) := by
  unfold fault? tooDeepAt?
  cases globs.any Glob.isTooDeep with
  | true => rfl
  | false => cases areTooLarge globs <;> rfl

theorem roomTogether_append (globs more : List Glob) :
    roomTogether (globs ++ more) = roomTogether globs + roomTogether more := by
  induction globs with
  | nil => exact (Nat.zero_add _).symm
  | cons glob rest ih => rw [List.cons_append, roomTogether, roomTogether, ih, Nat.add_assoc]

theorem automatonRoom_append_left (globs more : List Glob) :
    automatonRoom globs ≤ automatonRoom (globs ++ more) := by
  rw [automatonRoom, automatonRoom, roomTogether_append]
  omega

/-- More globs do not make a list usable. -/
theorem isSome_fault?_append {globs : List Glob} (hFault : (fault? globs).isSome = true)
    (more : List Glob) : (fault? (globs ++ more)).isSome = true := by
  rw [isSome_fault?, Bool.or_eq_true] at hFault ⊢
  refine hFault.imp (fun hDeep => ?_) fun hLarge => ?_
  · rw [List.any_append, hDeep, Bool.true_or]
  · simp only [areTooLarge, Bool.or_eq_true, decide_eq_true_eq] at hLarge ⊢
    refine hLarge.imp (fun hSearched => ?_) fun hKeyed => ?_
    · rw [List.filter_append]
      exact Nat.lt_of_lt_of_le hSearched (automatonRoom_append_left _ _)
    · rw [List.any_append, hKeyed, Bool.true_or]

end Homonym.Pattern
