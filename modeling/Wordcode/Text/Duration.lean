/-! Durations as text: in the greatest of the units s, ms, µs and ns of which there is at least one,
with as many decimals as there are. -/

namespace Wordcode.Text

/-- The decimals of `n` parts of a unit that has `10 ^ places` parts, without trailing zeros. -/
def decimals (n places : Nat) : String :=
  let digits := (toString n).toList
  let filled := List.replicate (places - digits.length) '0' ++ digits
  String.ofList (filled.reverse.dropWhile (· == '0')).reverse

/-- A number of parts of a unit that has `10 ^ places` parts, in that unit. -/
def inUnit (n places : Nat) (unit : String) : String :=
  let parts := Nat.pow 10 places
  let fraction := decimals (n % parts) places
  toString (n / parts) ++ (if fraction.isEmpty then "" else "." ++ fraction) ++ unit

/-- A duration in nanoseconds as text. -/
def duration (nanos : Nat) : String :=
  if 1000000000 ≤ nanos then inUnit nanos 9 "s"
  else if 1000000 ≤ nanos then inUnit nanos 6 "ms"
  else if 1000 ≤ nanos then inUnit nanos 3 "µs"
  else inUnit nanos 0 "ns"

/-- The whole milliseconds of a duration, at most the greatest 64-bit number. -/
def millis (secs nanos : Nat) : Nat := min (secs * 1000 + nanos / 1000000) (UInt64.size - 1)

end Wordcode.Text
