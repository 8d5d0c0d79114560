/-!
# Values of settings sources

What settings files and environment variables hold before it is known which setting they are for. A
dictionary keeps its entries in increasing order of their keys, each key once.
-/

namespace Homonym

/-- A value of a settings source. -/
inductive Value where
  /-- No value. -/
  | empty
  | bool (value : Bool)
  | int (value : Int)
  /-- A number with a fraction or an exponent. No setting takes one, so its value is not kept. -/
  | real
  | char (value : Char)
  | str (text : String)
  | arr (elements : List Value)
  | dict (entries : List (String × Value))

namespace Value

/-- The entry with a key. -/
def get? {α : Type} (key : String) (entries : List (String × α)) : Option α :=
  (entries.find? fun e => e.1 == key).map Prod.snd

/-- The entries with one more, which takes the place of one with the same key. -/
def insert {α : Type} (key : String) (value : α) : List (String × α) → List (String × α)
  | [] => [(key, value)]
  | (k, v) :: rest =>
    if k = key then (key, value) :: rest
    else if key < k then (key, value) :: (k, v) :: rest
    else (k, v) :: insert key value rest

/-- The entries of a list, where of several with one key the last counts. -/
def ofList {α : Type} (list : List (String × α)) : List (String × α) :=
  list.foldl (fun entries (key, value) => insert key value entries) []

mutual

/-- A value laid over another one. Dictionaries are joined key by key; everything else takes the
place of what is below it. -/
def cover : Value → Value → Value
  | .dict upper, below =>
    match below with
    | .dict lower => .dict (coverEntries upper lower)
    | _ => .dict upper
  | upper, _ => upper

/-- Entries laid over others. -/
def coverEntries : List (String × Value) → List (String × Value) → List (String × Value)
  | [], lower => lower
  | (key, value) :: rest, lower =>
    let laid :=
      match get? key lower with
      | some below => cover value below
      | none => value
    coverEntries rest (insert key laid lower)

end

/-! ## Equality -/

mutual

/-- Two values are the same. -/
def isSame : Value → Value → Bool
  | .empty, .empty => true
  | .bool a, .bool b => a == b
  | .int a, .int b => a == b
  | .real, .real => true
  | .char a, .char b => a == b
  | .str a, .str b => a == b
  | .arr a, .arr b => areSame a b
  | .dict a, .dict b => haveSame a b
  | _, _ => false

/-- Two lists have the same values. -/
def areSame : List Value → List Value → Bool
  | [], [] => true
  | a :: rest, b :: rest' => isSame a b && areSame rest rest'
  | _, _ => false

/-- Two dictionaries have the same entries. -/
def haveSame : List (String × Value) → List (String × Value) → Bool
  | [], [] => true
  | (key, a) :: rest, (key', b) :: rest' => key == key' && isSame a b && haveSame rest rest'
  | _, _ => false

end

mutual

theorem isSame_iff : ∀ a b : Value, isSame a b = true ↔ a = b
  | .arr a, b => by cases b <;> simp [isSame, areSame_iff a]
  | .dict a, b => by cases b <;> simp [isSame, haveSame_iff a]
  | .empty, b | .bool _, b | .int _, b | .real, b | .char _, b | .str _, b => by
    cases b <;> simp [isSame]

theorem areSame_iff : ∀ a b : List Value, areSame a b = true ↔ a = b
  | [], b => by cases b <;> simp [areSame]
  | a :: rest, b => by cases b <;> simp [areSame, isSame_iff a, areSame_iff rest]

theorem haveSame_iff : ∀ a b : List (String × Value), haveSame a b = true ↔ a = b
  | [], b => by cases b <;> simp [haveSame]
  | (key, a) :: rest, b => by
    cases b <;> simp [haveSame, isSame_iff a, haveSame_iff rest, Prod.ext_iff]

end

instance : DecidableEq Value := fun a b => decidable_of_iff _ (isSame_iff a b)

end Value

end Homonym
