/-! Numbers as texts: counts in decimal, with or without a plus sign, and the texts of numbers with
a fraction and an exponent. -/

namespace Wordcode.Text

/-- A text without a plus sign at its start. -/
def dropPlus (s : List Char) : List Char := if s.head? = some '+' then s.tail else s

/-- The number that a text of decimal digits gives, zeros in front of it included. -/
def digits? (s : List Char) : Option Nat :=
  if s ≠ [] ∧ s.all Char.isDigit then
    some (s.foldl (fun n c => n * 10 + (c.toNat - '0'.toNat)) 0)
  else none

/-- The number that a text gives, with or without a plus sign. -/
def count? (s : List Char) : Option Nat := digits? (dropPlus s)

/-- Whether a text is empty or the exponent of a number. -/
def isExponent : List Char → Bool
  | [] => true
  | c :: rest =>
    let digits := if rest.head? = some '-' then rest.tail else dropPlus rest
    c ∈ ['e', 'E'] && (digits? digits).isSome

/-- Whether a text without a sign is a number: digits, perhaps with a point before, between or
behind them, and perhaps an exponent; or the name of an infinite number or of none. -/
def isUnsignedDecimal (s : List Char) : Bool :=
  let named := (String.ofList s).toLower
  if named ∈ ["inf", "infinity", "nan"] then true
  else
    let whole := s.takeWhile Char.isDigit
    match s.drop whole.length with
    | '.' :: rest =>
      let fraction := rest.takeWhile Char.isDigit
      (whole ≠ [] || fraction ≠ []) && isExponent (rest.drop fraction.length)
    | rest => whole ≠ [] && isExponent rest

/-- Whether a text is a number with a plus sign. -/
def isPlusDecimal (s : List Char) : Bool := s.head? = some '+' && isUnsignedDecimal s.tail

end Wordcode.Text
