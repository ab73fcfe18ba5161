/-! Sets of code points, as the properties of the character database give them. -/

namespace Wordcode.Text

/-- A set of code points, as ascending ranges that do not touch, ends included. -/
abbrev CodePoints := List (Nat × Nat)

def CodePoints.contains (s : CodePoints) (c : Char) : Bool :=
  s.any fun range => range.1 ≤ c.toNat && c.toNat ≤ range.2

end Wordcode.Text
