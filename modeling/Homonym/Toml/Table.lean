import Homonym.Value

/-!
# Tables of a TOML text

The lines of a text build one table of nested tables. A table is stated by its own header, implied
by a longer header, or spelled out by dotted keys; what may be added to it depends on that. Each
table is stated at most once, a key is given at most once, and dotted keys add only to tables that
dotted keys made.
-/

namespace Homonym.Toml

/-- How a table came to be. -/
inductive TableKind where
  | stated
  | implied
  | dotted
deriving DecidableEq

/-- What stands under a key. -/
inductive Item where
  | value (value : Value)
  | table (kind : TableKind) (entries : List (String × Item))
  | tables (elements : List (List (String × Item)))

/-- The entries of a table. -/
abbrev Entries := List (String × Item)

/-- Changes the table that a path leads to. Tables that are missing are made, of the kind given; an
array of tables stands for its last element. Dotted keys do not lead through stated tables. -/
def modifyAt (made : TableKind) (change : TableKind → Entries → Option Entries) :
    List String → TableKind → Entries → Option Entries
  | [], kind, entries => change kind entries
  | key :: path, _, entries =>
    match Value.get? key entries with
    | none =>
      (modifyAt made change path made []).map fun inner =>
        Value.insert key (.table made inner) entries
    | some (.value _) => none
    | some (.table kind inner) =>
      if made = .dotted ∧ kind = .stated then none
      else
        (modifyAt made change path kind inner).map fun inner =>
          Value.insert key (.table kind inner) entries
    | some (.tables elements) =>
      match elements.getLast? with
      | none => none
      | some last =>
        (modifyAt made change path .stated last).map fun inner =>
          Value.insert key (.tables (elements.dropLast ++ [inner])) entries

/-- Adds a value under a dotted key to a table. -/
def addValue (path : List String) (key : String) (value : Value) (kind : TableKind)
    (entries : Entries) : Option Entries :=
  modifyAt .dotted (fun kind entries =>
    if (kind == .dotted) == path.isEmpty || (Value.get? key entries).isSome then none
    else some (Value.insert key (.value value) entries)) path kind entries

/-- States a table. -/
def stateTable (path : List String) (key : String) (root : Entries) : Option Entries :=
  modifyAt .implied (fun _ entries =>
    match Value.get? key entries with
    | none => some (Value.insert key (.table .stated []) entries)
    | some (.table .implied inner) => some (Value.insert key (.table .stated inner) entries)
    | some _ => none) path .stated root

/-- Begins the next element of an array of tables. -/
def stateElement (path : List String) (key : String) (root : Entries) : Option Entries :=
  modifyAt .implied (fun _ entries =>
    match Value.get? key entries with
    | none => some (Value.insert key (.tables [[]]) entries)
    | some (.tables elements) => some (Value.insert key (.tables (elements ++ [[]])) entries)
    | some _ => none) path .stated root

/-- Adds a value under a dotted key to the table under a header. -/
def addUnder (header path : List String) (key : String) (value : Value) (root : Entries) :
    Option Entries :=
  modifyAt .implied (addValue path key value) header .stated root

mutual

/-- What stands under a key, as a value. -/
def Item.toValue : Item → Value
  | .value value => value
  | .table _ entries => .dict (valuesOf entries)
  | .tables elements => .arr (dictsOf elements)

/-- The entries of a table, as values. -/
def valuesOf : List (String × Item) → List (String × Value)
  | [] => []
  | (key, item) :: rest => (key, item.toValue) :: valuesOf rest

/-- Tables as dictionaries. -/
def dictsOf : List (List (String × Item)) → List Value
  | [] => []
  | entries :: rest => .dict (valuesOf entries) :: dictsOf rest

end

end Homonym.Toml
