import Wordcode.Opcode
import Wordcode.Value

/-! Faults: the reasons for which running code fails, their kinds, and their texts. -/

namespace Wordcode

/-- The kinds of faults that callers tell apart. -/
inductive ErrorKind where
  | name
  | type
  | key
  | assertion
  | recursion
  | overflow
  | internal
  deriving DecidableEq

namespace ErrorKind

def all : List ErrorKind := [name, type, key, assertion, recursion, overflow, internal]

def label : ErrorKind → String
  | name => "NameError"
  | type => "TypeError"
  | key => "KeyError"
  | assertion => "AssertionError"
  | recursion => "RecursionError"
  | overflow => "OverflowError"
  | internal => "InternalError"

/-- A message with the kind of its fault in front. -/
def headline (kind : ErrorKind) (message : String) : String := kind.label ++ ": " ++ message

end ErrorKind

inductive Fault where
  | undefinedName (name : String)
  | unassignedLocal (name : String)
  | notCallable (kind : Kind)
  | wrongArgumentCount (function : String) (expected given : Nat)
  | unsupportedOperands (symbol : String) (left right : Kind)
  | notSubscriptable (kind : Kind)
  | noItemAssignment (kind : Kind)
  | unhashable (kind : Kind)
  | notIterable (kind : Kind)
  | notAnIterator (kind : Kind)
  | noLength (kind : Kind)
  | rangeArguments (kinds : List Kind)
  | oneArgument (builtin : Builtin) (given : Nat)
  | missingKey (key : MapKey)
  | assertion (message : String)
  | recursionLimit (function : String)
  | additionOverflow
  | subtractionOverflow
  | stackUnderflow (function : String) (offset : Nat)
  | pastEnd (function : String) (offset : Nat)
  | invalidOpcode (byte : UInt8) (offset : Nat)
  | argumentRange (op : Opcode) (arg : UInt32) (function : String)
  deriving DecidableEq

namespace Fault

def kind : Fault → ErrorKind
  | undefinedName _ | unassignedLocal _ => .name
  | notCallable _ | wrongArgumentCount .. | unsupportedOperands .. | notSubscriptable _
  | noItemAssignment _ | unhashable _ | notIterable _ | notAnIterator _ | noLength _
  | rangeArguments _ | oneArgument .. => .type
  | missingKey _ => .key
  | assertion _ => .assertion
  | recursionLimit _ => .recursion
  | additionOverflow | subtractionOverflow => .overflow
  | stackUnderflow .. | pastEnd .. | invalidOpcode .. | argumentRange .. => .internal

def quoted (s : String) : String := "'" ++ s ++ "'"

/-- The text of a fault, without its kind. -/
def message : Fault → String
  | undefinedName name => "name " ++ quoted name ++ " is not defined"
  | unassignedLocal name => "local variable " ++ quoted name ++ " referenced before assignment"
  | notCallable kind => quoted kind.name ++ " object is not callable"
  | wrongArgumentCount function expected given =>
    function ++ "() takes " ++ toString expected ++ " positional argument(s) but " ++
      toString given ++ " were given"
  | unsupportedOperands symbol left right =>
    "unsupported operand types for " ++ symbol ++ ": " ++ quoted left.name ++ " and " ++
      quoted right.name
  | notSubscriptable kind => quoted kind.name ++ " object is not subscriptable"
  | noItemAssignment kind => quoted kind.name ++ " object does not support item assignment"
  | unhashable kind => "unhashable type: " ++ quoted kind.name
  | notIterable kind => quoted kind.name ++ " object is not iterable"
  | notAnIterator kind => quoted kind.name ++ " object is not an iterator"
  | noLength kind => "object of type " ++ quoted kind.name ++ " has no len()"
  | rangeArguments kinds =>
    "range() expects 1 or 2 int arguments, got (" ++ ", ".intercalate (kinds.map Kind.name) ++ ")"
  | oneArgument builtin given =>
    builtin.name ++ "() takes 1 argument(s), got " ++ toString given
  | missingKey key => key.display
  | assertion message => message
  | recursionLimit function => "maximum recursion depth exceeded in " ++ function
  | additionOverflow => "integer overflow in addition"
  | subtractionOverflow => "integer overflow in subtraction"
  | stackUnderflow function offset =>
    "stack underflow in " ++ function ++ " at offset " ++ toString offset
  | pastEnd function offset =>
    function ++ " ran past the end of its code at offset " ++ toString offset
  | invalidOpcode byte offset =>
    "invalid opcode byte " ++ toString byte ++ " at offset " ++ toString offset
  | argumentRange op arg function =>
    op.name ++ " argument " ++ toString arg ++ " out of range in " ++ function

def display (e : Fault) : String := e.kind.headline e.message

end Fault

end Wordcode
