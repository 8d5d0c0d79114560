import Homonym.Value

/-!
# Values in envelopes

In a settings file a value may stand in an envelope: a dictionary that holds it under a reserved
key. The envelope stands for that value, whatever else it holds. Another reserved key marks a
value with a number; the mark is taken off. What may be a mark depends on the format of the file.
-/

namespace Homonym

/-- The key of the value in an envelope. -/
def envelopeKey : String := "___figment_value_value"

/-- The key of a mark. -/
def markKey : String := "___figment_value_id"

/-- The entries of a dictionary as the value that they stand for. -/
def Value.ofEntries (entries : List (String × Value)) : Value :=
  match Value.get? envelopeKey entries with
  | some value => value
  | none => .dict (entries.filter fun e => e.1 != markKey)

mutual

/-- A value with all envelopes opened and marks taken off, unless something else stands where a mark
belongs. -/
def Value.open? (isMark : Value → Bool) : Value → Option Value
  | .dict entries =>
    match openEntries? isMark entries with
    | none => none
    | some opened =>
      match Value.get? markKey opened with
      | some mark => if isMark mark then some (.ofEntries opened) else none
      | none => some (.ofEntries opened)
  | .arr elements => (openElements? isMark elements).map .arr
  | value => some value

/-- Elements with all envelopes opened. -/
def openElements? (isMark : Value → Bool) : List Value → Option (List Value)
  | [] => some []
  | value :: rest => do return (← value.open? isMark) :: (← openElements? isMark rest)

/-- Entries with all envelopes opened. -/
def openEntries? (isMark : Value → Bool) : List (String × Value) → Option (List (String × Value))
  | [] => some []
  | (key, value) :: rest => do return (key, ← value.open? isMark) :: (← openEntries? isMark rest)

end

end Homonym
