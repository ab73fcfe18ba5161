import Wordcode.Proofs.Layout

/-! The layout that assembling ends with is the least one.  Widening is a monotone pass over the
sizes of the items: from one unit each it climbs to its least fixpoint, below every layout that has
room for its own arguments, and no item of the fixpoint has a unit too many. -/

namespace Wordcode

/-! ### Room for an argument -/

theorem unitsFor_le_iff {arg : UInt32} {units : Nat} (hunits : 1 ≤ units) :
    unitsFor arg ≤ units ↔ arg.toNat < 256 ^ units := by
  constructor
  · exact toNat_lt_of_unitsFor_le
  · intro h
    by_contra hlt
    have hpow : ∀ k, units ≤ k → arg.toNat < 256 ^ k := fun k hk =>
      Nat.lt_of_lt_of_le h (Nat.pow_le_pow_right (by decide) hk)
    have h1 := hpow 1
    have h2 := hpow 2
    have h3 := hpow 3
    unfold unitsFor at hlt
    simp only [UInt32.le_iff_toNat_le, UInt32.reduceToNat] at hlt
    split at hlt
    · omega
    · split at hlt
      · omega
      · split at hlt <;> omega

theorem unitsFor_mono {a b : UInt32} (h : a.toNat ≤ b.toNat) : unitsFor a ≤ unitsFor b := by
  rw [unitsFor_le_iff (unitsFor_pos b)]
  have hb := toNat_lt_of_unitsFor_le (Nat.le_refl (unitsFor b))
  omega

/-- The number that an operand stands for in a layout with the places `places`.  It is the argument,
unless the place of a label does not fit into 32 bits. -/
def Operand.number (bound places : Array Nat) : Operand → Nat
  | .none => 0
  | .immediate arg => arg.toNat
  | .label id => places.getD (bound.getD id 0) 0

theorem Operand.resolve_eq (bound places : Array Nat) (operand : Operand) :
    operand.resolve bound places = UInt32.ofNat (operand.number bound places) := by
  cases operand with
  | none | label => rfl
  | immediate arg => simp [resolve, number]

/-! ### Comparing layouts -/

/-- The layouts are of the same items, and no item is larger in the first. -/
def NoLarger (slots other : List Slot) : Prop :=
  List.Forall₂ (fun s t => s.item = t.item ∧ s.units ≤ t.units) slots other

/-- The number of instructions of a layout. -/
def totalUnits (slots : List Slot) : Nat := (slots.map Slot.units).sum

section NoLarger

variable {slots other third : List Slot}

theorem NoLarger.refl (slots : List Slot) : NoLarger slots slots :=
  List.forall₂_same.mpr fun _ _ => ⟨rfl, Nat.le_refl _⟩

theorem NoLarger.trans (h : NoLarger slots other) (h' : NoLarger other third) :
    NoLarger slots third := by
  induction h generalizing third with
  | nil => exact h'
  | cons hst _ ih =>
    obtain _ | ⟨htu, hrest⟩ := h'
    exact .cons ⟨hst.1.trans htu.1, Nat.le_trans hst.2 htu.2⟩ (ih hrest)

theorem NoLarger.totalUnits_le (h : NoLarger slots other) :
    totalUnits slots ≤ totalUnits other := by
  induction h with
  | nil => exact Nat.le_refl _
  | cons hst _ ih =>
    simp only [totalUnits, List.map_cons, List.sum_cons] at ih ⊢
    omega

/-- In a layout that is no larger no item starts later. -/
theorem NoLarger.starts_le (h : NoLarger slots other) {p q : Nat} (hpq : p ≤ q) (k : Nat) :
    (starts p slots).getD k 0 ≤ (starts q other).getD k 0 := by
  induction h generalizing p q k with
  | nil =>
    cases k with
    | zero => exact hpq
    | succ k => exact Nat.le_refl _
  | cons hst _ ih =>
    cases k with
    | zero => exact hpq
    | succ k => exact ih (Nat.add_le_add hpq hst.2) k

theorem starts_le_totalUnits (place : Nat) (slots : List Slot) (k : Nat) :
    (starts place slots).getD k 0 ≤ place + totalUnits slots := by
  induction slots generalizing place k with
  | nil => cases k <;> simp [starts]
  | cons s rest ih =>
    simp only [totalUnits, List.map_cons, List.sum_cons] at ih ⊢
    cases k with
    | zero => simp [starts]
    | succ k =>
      have := ih (place + s.units) k
      simp only [starts, List.getD_cons_succ]
      omega

variable (bound : Array Nat) (operand : Operand)

theorem NoLarger.number_le (h : NoLarger slots other) :
    operand.number bound (starts 0 slots).toArray ≤
      operand.number bound (starts 0 other).toArray := by
  cases operand with
  | none | immediate => exact Nat.le_refl _
  | label id => simpa [Operand.number] using h.starts_le (Nat.le_refl 0) (bound.getD id 0)

/-- Nothing is lost of the places of a layout with fewer than 2^32 units. -/
theorem toNat_resolve (hsize : totalUnits slots < 2 ^ 32) :
    (operand.resolve bound (starts 0 slots).toArray).toNat =
      operand.number bound (starts 0 slots).toArray := by
  rw [Operand.resolve_eq]
  apply UInt32.toNat_ofNat_of_lt'
  cases operand with
  | none => simp [Operand.number]
  | immediate arg => exact arg.toNat_lt
  | label id =>
    have hle := starts_le_totalUnits 0 slots (bound.getD id 0)
    rw [Nat.zero_add] at hle
    simpa [Operand.number] using Nat.lt_of_le_of_lt hle hsize

theorem NoLarger.unitsFor_le (h : NoLarger slots other) (hsize : totalUnits other < 2 ^ 32) :
    unitsFor (operand.resolve bound (starts 0 slots).toArray) ≤
      unitsFor (operand.resolve bound (starts 0 other).toArray) := by
  apply unitsFor_mono
  rw [toNat_resolve bound operand hsize,
    toNat_resolve bound operand (Nat.lt_of_le_of_lt h.totalUnits_le hsize)]
  exact h.number_le bound operand

end NoLarger

/-! ### Widening -/

section Widen

variable {bound : Array Nat} {slots other : List Slot}

theorem noLarger_widen (bound : Array Nat) (slots : List Slot) :
    NoLarger slots (widen bound slots) := by
  rw [NoLarger, widen, List.forall₂_map_right_iff]
  exact List.forall₂_same.mpr fun _ _ => ⟨rfl, Nat.le_max_left _ _⟩

theorem noLarger_settle (bound : Array Nat) (slots : List Slot) :
    NoLarger slots (settle bound slots) := by
  fun_induction settle bound slots with
  | case1 => exact .refl _
  | case2 slots _ ih => exact (noLarger_widen bound slots).trans ih

/-- Every slot has room for the number that its operand stands for in this very layout. -/
def Roomy (bound : Array Nat) (slots : List Slot) : Prop :=
  ∀ s ∈ slots, 1 ≤ s.units ∧ s.item.operand.number bound (starts 0 slots).toArray < 256 ^ s.units

/-- The same of a layout with fewer than 2^32 units, by its arguments. -/
theorem roomy_of_unitsFor_le (hsize : totalUnits slots < 2 ^ 32)
    (h : ∀ s ∈ slots, unitsFor (s.item.operand.resolve bound (starts 0 slots).toArray) ≤ s.units) :
    Roomy bound slots := by
  intro s hs
  refine ⟨Nat.le_trans (unitsFor_pos _) (h s hs), ?_⟩
  rw [← toNat_resolve bound _ hsize]
  exact toNat_lt_of_unitsFor_le (h s hs)

/-- Widening stays below a layout with room for its own arguments. -/
theorem NoLarger.widen (h : NoLarger slots other) (hroomy : Roomy bound other) :
    NoLarger (widen bound slots) other := by
  have hnumber := fun operand => h.number_le bound operand
  have hmem := (List.forall₂_and_left (p := (· ∈ other)) other slots).mpr ⟨fun _ ht => ht, h.flip⟩
  rw [NoLarger, Wordcode.widen, List.forall₂_map_left_iff]
  refine hmem.flip.imp ?_
  rintro s t ⟨ht, hitem, hunits⟩
  obtain ⟨hpos, hroom⟩ := hroomy t ht
  refine ⟨hitem, Nat.max_le.mpr ⟨hunits, ?_⟩⟩
  rw [unitsFor_le_iff hpos, Operand.resolve_eq, UInt32.toNat_ofNat']
  have hle := hnumber s.item.operand
  rw [← hitem] at hroom
  exact Nat.lt_of_le_of_lt (Nat.mod_le _ _) (Nat.lt_of_le_of_lt hle hroom)

theorem NoLarger.settle (h : NoLarger slots other) (hroomy : Roomy bound other) :
    NoLarger (settle bound slots) other := by
  fun_induction Wordcode.settle bound slots with
  | case1 => exact h
  | case2 _ _ ih => exact ih (h.widen hroomy)

/-- No slot is larger than its argument needs. -/
def Tight (bound : Array Nat) (slots : List Slot) : Prop :=
  ∀ s ∈ slots, s.units ≤ unitsFor (s.item.operand.resolve bound (starts 0 slots).toArray)

/-- Widening gives a slot what its argument needed, and the argument does not become smaller. -/
theorem Tight.widen (h : Tight bound slots) (hsize : totalUnits (widen bound slots) < 2 ^ 32) :
    Tight bound (widen bound slots) := by
  intro t ht
  have hneed := fun operand => (noLarger_widen bound slots).unitsFor_le bound operand hsize
  rw [Wordcode.widen, List.mem_map] at ht
  obtain ⟨s, hs, rfl⟩ := ht
  exact Nat.le_trans (Nat.max_le.mpr ⟨h s hs, Nat.le_refl _⟩) (hneed s.item.operand)

theorem Tight.settle (h : Tight bound slots) (hsize : totalUnits (settle bound slots) < 2 ^ 32) :
    Tight bound (settle bound slots) := by
  fun_induction Wordcode.settle bound slots with
  | case1 => exact h
  | case2 slots _ ih =>
    have hle := (noLarger_settle bound (Wordcode.widen bound slots)).totalUnits_le
    exact ih (h.widen (Nat.lt_of_le_of_lt hle hsize)) hsize

/-! ### Passes -/

/-- Settling is a number of passes, each of which changes something and so takes up slack. -/
theorem exists_iterate_eq_settle (bound : Array Nat) (slots : List Slot) :
    ∃ n ≤ slack slots, settle bound slots = (widen bound)^[n] slots ∧
      ∀ m < n, (widen bound)^[m + 1] slots ≠ (widen bound)^[m] slots := by
  fun_induction settle bound slots with
  | case1 slots _ => exact ⟨0, Nat.zero_le _, rfl, fun m hm => absurd hm (Nat.not_lt_zero m)⟩
  | case2 slots hchange ih =>
    obtain ⟨n, hn, heq, hearlier⟩ := ih
    have hslack := slack_widen_lt hchange
    refine ⟨n + 1, by omega, heq, ?_⟩
    intro m hm
    cases m with
    | zero => exact hchange
    | succ m => exact hearlier m (by omega)

theorem slack_first (items : List Item) :
    slack (items.map fun item => ⟨item, 1⟩) = 3 * items.length := by
  induction items with
  | nil => rfl
  | cons item rest ih =>
    simp only [slack, List.map_cons, List.foldr_cons, List.length_cons] at ih ⊢
    omega

end Widen

/-- The layout is the least one.  Widening from one unit for each item ends within three passes for
each item, with a layout of these items in which the units of an item are just those that its
argument needs and the places are the sums of the units before them.  A layout of the same items
that has room for its own arguments is nowhere smaller, whether these are taken as they are or, if
it has fewer than 2^32 units, as the assembler resolves them. -/
theorem layout_least (bound : Array Nat) (items : List Item)
    (hsize : totalUnits (layout bound items) < 2 ^ 32) :
    let slots := layout bound items
    let first := items.map fun item => Slot.mk item 1
    (∃ n ≤ 3 * items.length, slots = (widen bound)^[n] first ∧ widen bound slots = slots ∧
      ∀ m < n, (widen bound)^[m + 1] first ≠ (widen bound)^[m] first) ∧
    slots.map Slot.item = items ∧
    (∀ s ∈ slots, s.units = unitsFor (s.item.operand.resolve bound (starts 0 slots).toArray)) ∧
    (∀ k ≤ items.length, (starts 0 slots)[k]? = some ((slots.take k).map Slot.units).sum) ∧
    ∀ other : List Slot, other.map Slot.item = items →
      (Roomy bound other ∨ totalUnits other < 2 ^ 32 ∧ ∀ s ∈ other,
        unitsFor (s.item.operand.resolve bound (starts 0 other).toArray) ≤ s.units) →
      List.Forall₂ (fun s t => s.units ≤ t.units) slots other := by
  intro slots first
  have hitems : slots.map Slot.item = items := by
    rw [show slots = settle bound first from rfl, items_settle, List.map_map]
    exact List.map_id _
  have hsettled : widen bound slots = slots := widen_settle bound first
  have htight : Tight bound slots := by
    refine Tight.settle ?_ hsize
    intro s hs
    obtain ⟨item, -, rfl⟩ := List.mem_map.mp hs
    exact unitsFor_pos _
  refine ⟨?_, hitems, ?_, ?_, ?_⟩
  · obtain ⟨n, hn, heq, hearlier⟩ := exists_iterate_eq_settle bound first
    rw [slack_first] at hn
    exact ⟨n, hn, heq, hsettled, hearlier⟩
  · intro s hs
    exact Nat.le_antisymm (htight s hs) (unitsFor_le_of_widen_eq hsettled hs)
  · intro k hk
    have hlength : slots.length = items.length := by rw [← hitems, List.length_map]
    rw [getElem?_starts 0 (by omega), Nat.zero_add]
  · intro other hother hroom
    have hroomy : Roomy bound other := by
      rcases hroom with hroomy | ⟨hsize', hneed⟩
      · exact hroomy
      · exact roomy_of_unitsFor_le hsize' hneed
    have hfirst : NoLarger first other := by
      rw [NoLarger, show first = items.map _ from rfl, ← hother, List.map_map,
        List.forall₂_map_left_iff]
      exact List.forall₂_same.mpr fun t ht => ⟨rfl, (hroomy t ht).1⟩
    exact (hfirst.settle hroomy).imp fun _ _ h => h.2

/-- Two jumps, of which the second needs a prefix only because the first has got one. -/
theorem layout_least_cascade :
    let bound := #[256, 255]
    let items : List Item := ⟨.jumpAbsolute, .label 0, 1⟩ :: ⟨.jumpAbsolute, .label 1, 1⟩ ::
      List.replicate 254 ⟨.nop, .none, 1⟩
    totalUnits (layout bound items) < 2 ^ 32 ∧
      (layout bound items).map Slot.units = 2 :: 2 :: List.replicate 254 1 ∧
      ∀ other : List Slot, other.map Slot.item = items → Roomy bound other →
        List.Forall₂ (fun s t => s.units ≤ t.units) (layout bound items) other := by
  intro bound items
  have hlayout : layout bound items = (widen bound)^[2] (items.map fun item => ⟨item, 1⟩) :=
    settle_eq_iterate (by decide +kernel)
  have hsize : totalUnits (layout bound items) < 2 ^ 32 := by
    rw [hlayout]
    decide +kernel
  refine ⟨hsize, ?_, ?_⟩
  · rw [hlayout]
    decide +kernel
  · intro other hother hroomy
    exact (layout_least bound items hsize).2.2.2.2 other hother (Or.inl hroomy)

end Wordcode
