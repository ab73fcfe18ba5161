import Wordcode.Text.Quoted

/-! The values of the machine.  Functions, range iterators and maps are values by reference: a value
holds only the index of such an object, so two of them are equal when they are the same object.
All other values are equal when they have the same contents. -/

namespace Wordcode

/-- A function of the store, by its index. -/
structure FunctionId where
  index : Nat
  deriving DecidableEq

/-- A range iterator of the store, by its index. -/
structure RangeId where
  index : Nat
  deriving DecidableEq

/-- A map of the store, by its index. -/
structure MapId where
  index : Nat
  deriving DecidableEq

inductive Builtin where
  | range
  | str
  | len
  | print
  deriving DecidableEq

namespace Builtin

def all : List Builtin := [range, str, len, print]

def name : Builtin → String
  | range => "range"
  | str => "str"
  | len => "len"
  | print => "print"

def ofName? (name : String) : Option Builtin := all.find? fun b => b.name == name

end Builtin

/-- What an operand, a variable or an entry of a map holds. -/
inductive Value where
  | none
  | bool (b : Bool)
  | int (n : Int64)
  | str (s : String)
  | function (id : FunctionId)
  | builtin (b : Builtin)
  | range (id : RangeId)
  | map (id : MapId)
  deriving DecidableEq

instance : Inhabited Value := ⟨.none⟩

/-- The kinds of values that messages tell apart. -/
inductive Kind where
  | none
  | bool
  | int
  | str
  | function
  | builtin
  | range
  | map
  deriving DecidableEq

def Kind.name : Kind → String
  | .none => "none"
  | .bool => "bool"
  | .int => "int"
  | .str => "str"
  | .function => "function"
  | .builtin => "builtin"
  | .range => "range_iterator"
  | .map => "map"

def Value.kind : Value → Kind
  | .none => .none
  | .bool _ => .bool
  | .int _ => .int
  | .str _ => .str
  | .function _ => .function
  | .builtin _ => .builtin
  | .range _ => .range
  | .map _ => .map

def Value.int? : Value → Option Int64
  | .int n => some n
  | _ => .none

/-! ### Keys -/

/-- The keys of maps: integers and strings, never equal to one another. -/
inductive MapKey where
  | int (n : Int64)
  | str (s : String)
  deriving DecidableEq, Hashable

namespace MapKey

/-- A key in a message: an integer in decimal, a string quoted. -/
def display : MapKey → String
  | int n => toString n
  | str s => Text.quote s

/-- A key with its kind. -/
def debug : MapKey → String
  | int n => "Int(" ++ toString n ++ ")"
  | str s => "Str(" ++ Text.quote s ++ ")"

def value : MapKey → Value
  | int n => .int n
  | str s => .str s

/-- The order in which the entries of a map are listed: integers ascending, then strings by code
points. -/
def le : MapKey → MapKey → Bool
  | int a, int b => a ≤ b
  | int _, str _ => true
  | str _, int _ => false
  | str a, str b => a ≤ b

end MapKey

/-- The key that a value is; only integers and strings are keys. -/
def Value.key? : Value → Option MapKey
  | .int n => some (.int n)
  | .str s => some (.str s)
  | _ => .none

theorem MapKey.key?_value (k : MapKey) : k.value.key? = some k := by cases k <;> rfl

theorem Value.key?_eq_some {v : Value} {k : MapKey} : v.key? = some k ↔ v = k.value := by
  cases v <;> cases k <;> simp [Value.key?, MapKey.value]

end Wordcode
