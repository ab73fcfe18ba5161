import Wordcode.Assembly.Draft

/-! Layout: how many instructions each item takes.  An argument above one byte needs prefixes, and
the argument of a jump is the place of its target, which moves as the items before it grow.  The
items start at one instruction each and grow until each has room for its argument. -/

namespace Wordcode

/-- An item with the number of instructions that it takes: itself and its prefixes. -/
structure Slot where
  item : Item
  units : Nat
  deriving DecidableEq

/-- The number of instructions that an argument needs: one for each of its bytes that counts. -/
def unitsFor (arg : UInt32) : Nat :=
  if arg ≤ 0xFF then 1
  else if arg ≤ 0xFFFF then 2
  else if arg ≤ 0xFFFFFF then 3
  else 4

theorem unitsFor_le (arg : UInt32) : unitsFor arg ≤ 4 := by
  unfold unitsFor
  split
  · decide
  · split
    · decide
    · split <;> decide

/-- The place of the first instruction of each slot, from `place` on, and after them the place
behind the last slot. -/
def starts (place : Nat) : List Slot → List Nat
  | [] => [place]
  | s :: rest => place :: starts (place + s.units) rest

/-- The argument of an operand, where label `id` is bound to item `bound[id]` and the items start at
the places `places`. -/
def Operand.resolve (bound places : Array Nat) : Operand → UInt32
  | .none => 0
  | .immediate arg => arg
  | .label id => UInt32.ofNat (places.getD (bound.getD id 0) 0)

/-- Each slot with room for the argument that its operand has in the layout `slots`; no slot gets
smaller. -/
def widen (bound : Array Nat) (slots : List Slot) : List Slot :=
  let places := (starts 0 slots).toArray
  slots.map fun s =>
    { s with units := max s.units (unitsFor (s.item.operand.resolve bound places)) }

/-- How far the slots can still grow, each up to four instructions. -/
def slack (slots : List Slot) : Nat := (slots.map fun s => 4 - s.units).foldr (· + ·) 0

theorem slack_map_le (f : Slot → Nat) (hf : ∀ s, s.units ≤ f s) (slots : List Slot) :
    slack (slots.map fun s => { s with units := f s }) ≤ slack slots := by
  induction slots with
  | nil => simp [slack]
  | cons s rest ih =>
    have := hf s
    simp only [slack, List.map_cons, List.foldr_cons] at ih ⊢
    omega

theorem slack_map_lt (need : Slot → Nat) (hneed : ∀ s, need s ≤ 4) {slots : List Slot}
    (h : (slots.map fun s => { s with units := max s.units (need s) }) ≠ slots) :
    slack (slots.map fun s => { s with units := max s.units (need s) }) < slack slots := by
  induction slots with
  | nil => exact absurd rfl h
  | cons s rest ih =>
    have hle := slack_map_le (fun s => max s.units (need s)) (fun s => Nat.le_max_left _ _) rest
    simp only [slack, List.map_cons, List.foldr_cons] at ih hle ⊢
    by_cases hs : max s.units (need s) = s.units
    · have hrest : (rest.map fun s => { s with units := max s.units (need s) }) ≠ rest := by
        intro hr
        apply h
        rw [List.map_cons, hr, hs]
      have := ih hrest
      omega
    · have := hneed s
      omega

/-- A layout that does not settle at once has less slack after it is widened. -/
theorem slack_widen_lt {bound : Array Nat} {slots : List Slot} (h : widen bound slots ≠ slots) :
    slack (widen bound slots) < slack slots :=
  slack_map_lt _ (fun _ => unitsFor_le _) h

/-- The layout that widening leads to and no longer changes. -/
def settle (bound : Array Nat) (slots : List Slot) : List Slot :=
  if widen bound slots = slots then slots else settle bound (widen bound slots)
termination_by slack slots
decreasing_by exact slack_widen_lt ‹_›

def layout (bound : Array Nat) (items : List Item) : List Slot :=
  settle bound (items.map fun item => ⟨item, 1⟩)

end Wordcode
