import Std.Data.HashMap
import Wordcode.Log.Event

/-! The lookup workloads: a map is populated, keyed by numbers or by their decimal form, and then
looked up over a range of keys. -/

namespace Wordcode.Workload

/-- The number of entries of the benchmarks. -/
def mapSize : Nat := 1000000

/-- The map of `key i` to `i`, for each number `i` below `n`. -/
@[specialize] def populate {κ : Type} [BEq κ] [Hashable κ] (key : Nat → κ) (n : Nat) :
    Std.HashMap κ Nat :=
  n.fold (fun i _ map => map.insert (key i) i) ∅

/-! ### Numbers as keys -/

abbrev IntMap := Std.HashMap Nat Nat

/-- The map of each number below `n` to itself. -/
def populateInt (n : Nat) : IntMap := populate id n

inductive LookupError where
  | missing (key : Nat)
  | mismatch (key found : Nat)
  deriving DecidableEq

def LookupError.message : LookupError → String
  | .missing key => "key " ++ toString key ++ " is missing"
  | .mismatch key found =>
    "value mismatch for key " ++ toString key ++ ": found " ++ toString found

/-- Checks that each of the `count` keys from `key` on is mapped to itself, up to the first that is
not, and adds their number to `checked`. -/
def checkKeys (map : IntMap) (key checked : Nat) : Nat → Except LookupError Nat
  | 0 => .ok checked
  | count + 1 =>
    match map[key]? with
    | some found =>
      if found = key then checkKeys map (key + 1) (checked + 1) count
      else .error (.mismatch key found)
    | none => .error (.missing key)

/-- Checks that each key from `first` up to `last` is mapped to itself, and answers with the number
of these keys. -/
def lookupInt (map : IntMap) (first last : Nat) : Except LookupError Nat :=
  checkKeys map first 0 (last - first)

def populatedInt (map : IntMap) : Log.Event := .intMapPopulated map.size

/-! ### Decimal forms as keys

The decimal forms are written by `format`. -/

abbrev StrMap := Std.HashMap String Nat

/-- The map of the decimal form of each number below `n` to that number. -/
def populateStr (n : Nat) (format : Nat → String := toString) : StrMap := populate format n

/-- How many lookups found a key, and how many did not. -/
structure LookupSummary where
  hits : Nat := 0
  misses : Nat := 0
  deriving DecidableEq

/-- Adds the lookups of the decimal forms of the `count` numbers from `n` on. -/
@[specialize] def countKeys (format : Nat → String) (map : StrMap) (n : Nat)
    (summary : LookupSummary) : Nat → LookupSummary
  | 0 => summary
  | count + 1 =>
    countKeys format map (n + 1)
      (if map.contains (format n) then { summary with hits := summary.hits + 1 }
      else { summary with misses := summary.misses + 1 }) count

/-- Looks up the decimal forms of the numbers from `first` up to `last`. -/
def lookupStr (map : StrMap) (first last : Nat) (format : Nat → String := toString) :
    LookupSummary :=
  countKeys format map first {} (last - first)

def populatedStr (map : StrMap) : Log.Event := .strMapPopulated map.size

end Wordcode.Workload
