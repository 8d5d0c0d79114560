/-!
# Durations in words

A duration is shown in the greatest unit of which it is at least one, with two decimals.
-/

namespace Homonym.Text

/-- The unit for a number of nanoseconds: how many of them it has, and its sign. -/
def durationUnit (nanoseconds : Nat) : Nat × String :=
  if 1000000000 ≤ nanoseconds then (1000000000, "s")
  else if 1000000 ≤ nanoseconds then (1000000, "ms")
  else if 1000 ≤ nanoseconds then (1000, "µs")
  else (1, "ns")

/-- A number of nanoseconds in words. -/
def durationText (nanoseconds : Nat) : String :=
  let (unit, sign) := durationUnit nanoseconds
  let hundredths := (100 * nanoseconds + unit / 2) / unit
  let decimals := hundredths % 100
  toString (hundredths / 100) ++ "." ++ toString (decimals / 10) ++ toString (decimals % 10) ++ sign

end Homonym.Text
