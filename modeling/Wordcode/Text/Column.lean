/-! Text set in columns: a cell is filled up with blanks to a least width, counted in characters,
and never cut. -/

namespace Wordcode.Text

def blanks (n : Nat) : String := "".pushn ' ' n

/-- The text `s` at the left of a cell of at least `width` characters. -/
def alignLeft (width : Nat) (s : String) : String := s ++ blanks (width - s.length)

/-- The text `s` at the right of a cell of at least `width` characters. -/
def alignRight (width : Nat) (s : String) : String := blanks (width - s.length) ++ s

end Wordcode.Text
