import Wordcode.Machine.Fault
import Wordcode.Store

/-! The operators on values: checked addition and subtraction, the comparisons, and access to the
entries of maps. -/

namespace Wordcode

/-- The 64-bit integer `n`, if it is one. -/
def int64? (n : Int) : Option Int64 :=
  if -9223372036854775808 ≤ n ∧ n ≤ 9223372036854775807 then some (Int64.ofInt n) else none

namespace Value

def add : Value → Value → Except Fault Value
  | .int a, .int b =>
    match int64? (a.toInt + b.toInt) with
    | some n => .ok (.int n)
    | .none => .error .additionOverflow
  | .str a, .str b => .ok (.str (a ++ b))
  | a, b => .error (.unsupportedOperands "+" a.kind b.kind)

def subtract : Value → Value → Except Fault Value
  | .int a, .int b =>
    match int64? (a.toInt - b.toInt) with
    | some n => .ok (.int n)
    | .none => .error .subtractionOverflow
  | a, b => .error (.unsupportedOperands "-" a.kind b.kind)

/-- How two integers or two strings are ordered, strings by code points. -/
def ordering? : Value → Value → Option Ordering
  | .int a, .int b => some (if a < b then .lt else if a = b then .eq else .gt)
  | .str a, .str b => some (if a < b then .lt else if a = b then .eq else .gt)
  | _, _ => .none

end Value

def Comparison.holds : Comparison → Ordering → Bool
  | .lt, o => o == .lt
  | .le, o => o != .gt
  | .eq, o => o == .eq
  | .ne, o => o != .eq
  | .gt, o => o == .gt
  | .ge, o => o != .lt

namespace Value

/-- The outcome of a comparison: equality is defined for all values, an order only for two integers
and for two strings. -/
def compare (op : Comparison) (a b : Value) : Except Fault Bool :=
  match op with
  | .eq => .ok (a == b)
  | .ne => .ok (a != b)
  | _ =>
    match ordering? a b with
    | some o => .ok (op.holds o)
    | .none => .error (.unsupportedOperands op.symbol a.kind b.kind)

/-- The map and the key that `container[key]` stands for.  What is wrong with the container is
found before what is wrong with the key. -/
def entry (container key : Value) (refusal : Kind → Fault) : Except Fault (MapId × MapKey) :=
  match container with
  | .map id =>
    match key.key? with
    | some k => .ok (id, k)
    | .none => .error (.unhashable key.kind)
  | v => .error (refusal v.kind)

def subscript (store : Store) (container key : Value) : Except Fault Value :=
  match entry container key .notSubscriptable with
  | .ok (id, k) =>
    match (store.map id)[k]? with
    | some v => .ok v
    | .none => .error (.missingKey k)
  | .error e => .error e

end Value

end Wordcode
