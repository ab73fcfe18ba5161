import Mathlib.Algebra.BigOperators.Group.List.Basic
import Mathlib.Algebra.GroupWithZero.Nat
import Mathlib.Logic.Function.Iterate
import Wordcode.Proofs.Draft

/-! The layout that assembling ends with: it has room for every argument, its places are sums of
units, and a code object that was built is the encoding of such a layout. -/

namespace Wordcode

/-! ### Settled layouts -/

theorem unitsFor_pos (arg : UInt32) : 1 ≤ unitsFor arg := by
  unfold unitsFor
  split
  · decide
  · split
    · decide
    · split <;> decide

/-- An argument fits into the bytes that it is given room for. -/
theorem toNat_lt_of_unitsFor_le {arg : UInt32} {units : Nat} (h : unitsFor arg ≤ units) :
    arg.toNat < 256 ^ units := by
  have hpow : 256 ^ unitsFor arg ≤ 256 ^ units := Nat.pow_le_pow_right (by decide) h
  refine Nat.lt_of_lt_of_le ?_ hpow
  have hlt := arg.toNat_lt
  unfold unitsFor
  split
  · rename_i h1
    rw [UInt32.le_iff_toNat_le] at h1
    exact Nat.lt_succ_of_le h1
  · split
    · rename_i h2
      rw [UInt32.le_iff_toNat_le] at h2
      exact Nat.lt_succ_of_le h2
    · split
      · rename_i h3
        rw [UInt32.le_iff_toNat_le] at h3
        exact Nat.lt_succ_of_le h3
      · exact hlt

theorem items_widen (bound : Array Nat) (slots : List Slot) :
    (widen bound slots).map Slot.item = slots.map Slot.item := by
  simp [widen]

theorem items_settle (bound : Array Nat) (slots : List Slot) :
    (settle bound slots).map Slot.item = slots.map Slot.item := by
  fun_induction settle bound slots with
  | case1 => rfl
  | case2 slots _ ih => rw [ih, items_widen]

theorem widen_settle (bound : Array Nat) (slots : List Slot) :
    widen bound (settle bound slots) = settle bound slots := by
  fun_induction settle bound slots with
  | case1 _ h => exact h
  | case2 _ _ ih => exact ih

/-- Settling ends with the first layout that a pass leaves alone. -/
theorem settle_eq_iterate {bound : Array Nat} {slots : List Slot} {n : Nat}
    (h : widen bound ((widen bound)^[n] slots) = (widen bound)^[n] slots) :
    settle bound slots = (widen bound)^[n] slots := by
  induction n generalizing slots with
  | zero =>
    rw [settle]
    exact if_pos h
  | succ n ih =>
    rw [settle]
    split
    · rename_i hsettled
      exact (Function.iterate_fixed hsettled (n + 1)).symm
    · exact ih h

/-- The layout of items that have to grow no more than once. -/
theorem layout_eq_widen {bound : Array Nat} {items : List Item} {first : List Slot}
    (hfirst : (items.map fun item => ⟨item, 1⟩) = first)
    (h : widen bound (widen bound first) = widen bound first) :
    layout bound items = widen bound first := by
  rw [layout, hfirst]
  exact settle_eq_iterate (n := 1) h

/-- A layout that widening leaves alone has room for every argument. -/
theorem unitsFor_le_of_widen_eq {bound : Array Nat} {slots : List Slot}
    (h : widen bound slots = slots) {s : Slot} (hs : s ∈ slots) :
    unitsFor (s.item.operand.resolve bound (starts 0 slots).toArray) ≤ s.units := by
  obtain ⟨k, hk, rfl⟩ := List.getElem_of_mem hs
  have hget := congrArg (fun l => l[k]?) h
  simp only [widen, List.getElem?_map, List.getElem?_eq_getElem hk, Option.map_some,
    Option.some.injEq] at hget
  have hunits := congrArg Slot.units hget
  exact Nat.le_trans (Nat.le_max_right _ _) (Nat.le_of_eq hunits)

/-! ### Places -/

theorem length_starts (place : Nat) (slots : List Slot) :
    (starts place slots).length = slots.length + 1 := by
  induction slots generalizing place with
  | nil => rfl
  | cons s rest ih => rw [starts, List.length_cons, ih, List.length_cons]

/-- The place of an item is the sum of the units before it. -/
theorem getElem?_starts (place : Nat) {slots : List Slot} {k : Nat} (hk : k ≤ slots.length) :
    (starts place slots)[k]? = some (place + ((slots.take k).map Slot.units).sum) := by
  induction slots generalizing place k with
  | nil =>
    obtain rfl : k = 0 := by simpa using hk
    rfl
  | cons s rest ih =>
    cases k with
    | zero => rfl
    | succ k =>
      rw [starts, List.getElem?_cons_succ, ih _ (by simpa using hk), List.take_succ_cons,
        List.map_cons, List.sum_cons, Nat.add_assoc]

/-- The place behind the last item is the sum of all units. -/
theorem getLast?_starts (place : Nat) (slots : List Slot) :
    (starts place slots).getLast? = some (place + (slots.map Slot.units).sum) := by
  rw [List.getLast?_eq_getElem?, length_starts, Nat.add_sub_cancel,
    getElem?_starts _ (Nat.le_refl _), List.take_length]

/-! ### Built code -/

theorem boundItems_eq_ok {id : Nat} {labels : List (Option Nat)} {bound : List Nat}
    (h : boundItems id labels = .ok bound) : labels = bound.map some := by
  induction labels generalizing id bound with
  | nil =>
    cases h
    rfl
  | cons label rest ih =>
    cases label with
    | none => cases h
    | some item =>
      rw [boundItems] at h
      cases hrest : boundItems (id + 1) rest with
      | error e =>
        rw [hrest] at h
        cases h
      | ok bound' =>
        rw [hrest] at h
        cases h
        rw [ih hrest, List.map_cons]

theorem lt_of_strayLabel?_eq_none {count : Nat} {items : List Item}
    (h : strayLabel? count items = none) {item : Item} (hitem : item ∈ items) {id : Nat}
    (hoperand : item.operand = .label id) : id < count := by
  have hnone := List.findSome?_eq_none_iff.mp h item hitem
  rw [hoperand] at hnone
  by_contra hlt
  simp [hlt] at hnone

/-- `code` is the encoding of the settled layout `slots` of the draft `d`, whose labels are bound to
the items `bound`. -/
structure Draft.Encodes (d : Draft) (bound : Array Nat) (slots : List Slot) (code : Code) :
    Prop where
  fault : d.fault = none
  items : slots.map Slot.item = d.items.toList
  settled : widen bound slots = slots
  code_eq : code = d.toCode bound slots
  bound_eq : ∀ item ∈ d.items.toList, ∀ id, item.operand = .label id →
    ∃ k, d.labels[id]? = some (some k) ∧ bound.getD id 0 = k

/-- Building succeeds only with the encoding of a settled layout. -/
theorem Draft.exists_encodes {d : Draft} {code : Code} (h : d.build = .ok code) :
    ∃ bound slots, d.Encodes bound slots code := by
  rw [build] at h
  split at h
  · cases h
  · rename_i hfault
    split at h
    · cases h
    · rename_i bound hbound
      split at h
      · cases h
      · rename_i hstray
        have hlabels := boundItems_eq_ok hbound
        refine ⟨bound.toArray, layout bound.toArray d.items.toList, hfault, ?_,
          widen_settle _ _, (Except.ok.inj h).symm, ?_⟩
        · rw [layout, items_settle, List.map_map]
          exact List.map_id _
        · intro item hitem id hoperand
          have hid := lt_of_strayLabel?_eq_none hstray hitem hoperand
          refine ⟨bound[id], ?_, ?_⟩
          · rw [← Array.getElem?_toList, hlabels, List.getElem?_map,
              List.getElem?_eq_getElem hid, Option.map_some]
          · simp [Array.getD, hid]

namespace Draft.Encodes

variable {d : Draft} {bound : Array Nat} {slots : List Slot} {code : Code}

theorem length_slots (h : d.Encodes bound slots code) : slots.length = d.items.size := by
  rw [← Array.length_toList, ← h.items, List.length_map]

theorem item_mem (h : d.Encodes bound slots code) {s : Slot} (hs : s ∈ slots) :
    s.item ∈ d.items.toList := by
  rw [← h.items]
  exact List.mem_map_of_mem hs

end Draft.Encodes

end Wordcode
