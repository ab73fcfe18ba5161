/-! How deep a pattern nests.  A group, a class, a repetition, an operator between two parts of a
class, and a row of several members are each one deeper than the deepest of what they hold; all
else has no depth. -/

namespace Wordcode.Text.Pattern

/-- How deep a pattern may nest. -/
def nestingLimit : Nat := 250

/-- Members that stand side by side. -/
structure Row where
  size : Nat := 0
  /-- The depth of the deepest member. -/
  depth : Nat := 0
  /-- The depth of the last member, if that may be repeated. -/
  last? : Option Nat := none

namespace Row

def push (r : Row) (depth : Nat) : Row := ⟨r.size + 1, max r.depth depth, some depth⟩

/-- Adds a change of flags, which may not be repeated. -/
def pushChange (r : Row) : Row := { r with size := r.size + 1, last? := none }

def repeatLast? (r : Row) : Option Row :=
  r.last?.map fun depth =>
    { r with depth := max r.depth (depth + 1), last? := some (depth + 1) }

/-- The depth of a row: a single member stands for itself. -/
def nesting (r : Row) : Nat := if r.size ≤ 1 then r.depth else r.depth + 1

end Row

/-- The inside of a group, or a whole pattern. -/
structure Level where
  /-- The alternatives that are complete. -/
  branches : Row := {}
  /-- The members of the alternative that is being read. -/
  items : Row := {}

namespace Level

/-- Completes an alternative. -/
def alternative (l : Level) : Level := ⟨l.branches.push l.items.nesting, {}⟩

def nesting (l : Level) : Nat := l.alternative.branches.nesting

end Level

/-- An open class. -/
structure Brackets where
  /-- The depth of what stands before the last operator, if there is one. -/
  before? : Option Nat := none
  /-- The members since then. -/
  items : Row := {}
  /-- Whether the class has held nothing but hyphens so far. -/
  fresh : Bool := true

namespace Brackets

def push (b : Brackets) (depth : Nat) : Brackets :=
  { b with items := b.items.push depth, fresh := false }

/-- The depth of what the class holds. -/
def inner (b : Brackets) : Nat :=
  match b.before? with
  | some depth => max depth b.items.nesting + 1
  | none => b.items.nesting

/-- Begins the part behind an operator. -/
def operator (b : Brackets) : Brackets := ⟨some b.inner, {}, false⟩

def nesting (b : Brackets) : Nat := b.inner + 1

end Brackets

end Wordcode.Text.Pattern
