import Std.Data.HashMap
import Wordcode.Text.Column

/-! Histograms: how often each of some names was recorded.  The listing is by descending count, and
by name where counts are equal, so it does not depend on the order of the records. -/

namespace Wordcode.Trace

/-- The number of records of each recorded name. -/
structure Histogram where
  counts : Std.HashMap String Nat := ∅

namespace Histogram

def get (h : Histogram) (name : String) : Nat := h.counts.getD name 0

def record (h : Histogram) (name : String) : Histogram :=
  { h with counts := h.counts.alter name fun count? => some (count?.getD 0 + 1) }

def ofList (names : List String) : Histogram := names.foldl record {}

theorem get_record (h : Histogram) (name other : String) :
    (h.record name).get other = h.get other + if name = other then 1 else 0 := by
  by_cases hname : name = other
  · subst hname
    simp [get, record, Std.HashMap.getD_eq_getD_getElem?]
  · simp [get, record, Std.HashMap.getD_alter, hname]

theorem get_foldl_record (names : List String) (h : Histogram) (name : String) :
    (names.foldl record h).get name = h.get name + names.count name := by
  induction names generalizing h with
  | nil => simp
  | cons first rest ih =>
    simp only [List.foldl_cons, ih, get_record, List.count_cons, beq_iff_eq]
    omega

theorem get_ofList (names : List String) (name : String) :
    (ofList names).get name = names.count name := by
  rw [ofList, get_foldl_record]
  simp [get]

def size (h : Histogram) : Nat := h.counts.size

def isEmpty (h : Histogram) : Bool := h.counts.isEmpty

def total (h : Histogram) : Nat := (h.counts.toList.map Prod.snd).foldr (· + ·) 0

/-- The order of the listing: the greater count first, then the lesser name. -/
def precedes (a b : String × Nat) : Bool := b.2 < a.2 || (a.2 == b.2 && a.1 ≤ b.1)

/-- The names with their counts, as they are listed. -/
def sorted (h : Histogram) : List (String × Nat) := h.counts.toList.mergeSort precedes

/-- The columns of a name and its count. -/
def row (name : String) (count : Nat) : String :=
  Text.alignLeft 20 name ++ " " ++ Text.alignRight 8 (toString count)

/-- The listing as text, one row for each name. -/
def display (h : Histogram) : String :=
  String.join (h.sorted.map fun (name, count) => row name count ++ "\n")

end Histogram

end Wordcode.Trace
