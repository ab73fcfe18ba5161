import Std.Data.HashMap
import Wordcode.Code

/-! The store: the objects that values refer to.  Functions never change; range iterators and maps
are changed in place, through any value that refers to them. -/

namespace Wordcode

/-- An iterator over the integers from `next` up to, and not including, `stop`. -/
structure Range where
  next : Int64
  stop : Int64
  deriving DecidableEq

namespace Range

/-- The next integer, with the iterator after it; nothing once `stop` is reached. -/
def pull (r : Range) : Option (Int64 × Range) :=
  if r.next < r.stop then some (r.next, { r with next := r.next + 1 }) else none

/-- The next integers, at most `n`, with the iterator after them. -/
def take (r : Range) : Nat → List Int64 × Range
  | 0 => ([], r)
  | n + 1 =>
    match r.pull with
    | none => ([], r)
    | some (i, r) =>
      let (rest, r) := take r n
      (i :: rest, r)

def debug (r : Range) : String :=
  "RangeIter \x7b next: " ++ toString r.next ++ ", stop: " ++ toString r.stop ++ " \x7d"

end Range

abbrev Dict := Std.HashMap MapKey Value

/-- The entries of a map in the order of their keys. -/
def Dict.sorted (d : Dict) : List (MapKey × Value) := d.toList.mergeSort fun a b => a.1.le b.1

/-- The objects that values refer to. -/
structure Store where
  functions : Array Code := #[]
  ranges : Array Range := #[]
  maps : Array Dict := #[]

namespace Store

def code (s : Store) (id : FunctionId) : Code := s.functions.getD id.index default

def range (s : Store) (id : RangeId) : Range := s.ranges.getD id.index ⟨0, 0⟩

def map (s : Store) (id : MapId) : Dict := s.maps.getD id.index ∅

def addFunction (s : Store) (code : Code) : FunctionId × Store :=
  (⟨s.functions.size⟩, { s with functions := s.functions.push code })

def addRange (s : Store) (r : Range) : RangeId × Store :=
  (⟨s.ranges.size⟩, { s with ranges := s.ranges.push r })

def addMap (s : Store) (d : Dict) : MapId × Store :=
  (⟨s.maps.size⟩, { s with maps := s.maps.push d })

/-- A range iterator moves on to the state `r`. -/
def setRange (s : Store) (id : RangeId) (r : Range) : Store :=
  { s with ranges := s.ranges.setIfInBounds id.index r }

def insert (s : Store) (id : MapId) (k : MapKey) (v : Value) : Store :=
  { s with maps := s.maps.modify id.index fun d => d.insert k v }

/-- Whether a value counts as true: not `none`, not false, not 0, no empty string or map. -/
def truthy (s : Store) : Value → Bool
  | .none => false
  | .bool b => b
  | .int n => n != 0
  | .str t => !t.isEmpty
  | .map id => !(s.map id).isEmpty
  | .function _ | .builtin _ | .range _ => true

def display (s : Store) : Value → String
  | .none => "none"
  | .bool b => if b then "true" else "false"
  | .int n => toString n
  | .str t => t
  | .function id => "<function " ++ (s.code id).name ++ ">"
  | .builtin b => "<builtin " ++ b.name ++ ">"
  | .range _ => "<range_iterator>"
  | .map id => "<map len=" ++ toString (s.map id).size ++ ">"

/-- The text of a value as it stands in a listing of code. -/
def debug (s : Store) : Value → String
  | .str t => "Str(" ++ Text.quote t ++ ")"
  | .int n => "Int(" ++ toString n ++ ")"
  | .bool b => "Bool(" ++ (if b then "true" else "false") ++ ")"
  | v => s.display v

end Store

end Wordcode
