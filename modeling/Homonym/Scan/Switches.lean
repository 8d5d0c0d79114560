/-!
# Stop switches

A handler holds a switch that asks a scan to stop. Handlers may share a switch: a copy shares that
of its model, and all installed handlers share the one of the whole process. Installing a handler
turns that one off.
-/

namespace Homonym

/-- A switch: the one of the process, or one of a handler and its copies. -/
inductive SwitchId where
  | shared
  | own (number : Nat)
deriving DecidableEq

/-- The switches of a process, and the switch that each handler holds. -/
structure Switches where
  shared : Bool := false
  own : List Bool := []
  handlers : List SwitchId := []
deriving DecidableEq

namespace Switches

/-- The position of a switch. -/
def get (s : Switches) : SwitchId → Bool
  | .shared => s.shared
  | .own number => s.own[number]?.getD false

/-- Sets a switch. -/
def set (s : Switches) (id : SwitchId) (on : Bool) : Switches :=
  match id with
  | .shared => { s with shared := on }
  | .own number => { s with own := s.own.set number on }

/-- Adds a handler with a switch of its own, which is off. -/
def addOwn (s : Switches) : Switches :=
  { s with own := s.own ++ [false], handlers := s.handlers ++ [.own s.own.length] }

/-- Adds a handler with the switch of the process, and turns that off. -/
def install (s : Switches) : Switches :=
  { s with shared := false, handlers := s.handlers ++ [.shared] }

/-- Adds a handler that shares the switch of another one. -/
def addCopy? (s : Switches) (handler : Nat) : Option Switches :=
  s.handlers[handler]?.map fun id => { s with handlers := s.handlers ++ [id] }

/-- Whether a handler asks to stop. -/
def isOn? (s : Switches) (handler : Nat) : Option Bool :=
  s.handlers[handler]?.map s.get

/-- Sets the switch of a handler. -/
def turn? (s : Switches) (handler : Nat) (on : Bool) : Option Switches :=
  s.handlers[handler]?.map (s.set · on)

/-- Whether each handler asks to stop. -/
def states (s : Switches) : List Bool :=
  s.handlers.map s.get

end Switches

end Homonym
