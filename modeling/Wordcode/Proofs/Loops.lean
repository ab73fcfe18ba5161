import Wordcode.Proofs.Routes

/-! Loops over a range: the call of `range`, and the head of a loop while integers are left and once
they are not.  The iterator of a loop is the range iterator that was added last. -/

namespace Wordcode

/-! ### Range iterators -/

namespace Range

variable {stop : Int64} {i : Nat}

theorem pull_of_lt (h : i < stop.toInt.toNat) :
    pull ⟨Int64.ofNat i, stop⟩ = some (Int64.ofNat i, ⟨Int64.ofNat (i + 1), stop⟩) := by
  have hmax := stop.toInt_lt
  have hi : (Int64.ofNat i).toInt = i := Int64.toInt_ofNat_of_lt (by omega)
  have hlt : Int64.ofNat i < stop := Int64.lt_iff_toInt_lt.mpr (by omega)
  rw [pull, if_pos hlt, Int64.ofNat_add]
  rfl

theorem pull_toNat : pull ⟨Int64.ofNat stop.toInt.toNat, stop⟩ = none := by
  have hmax := stop.toInt_lt
  have hi : (Int64.ofNat stop.toInt.toNat).toInt = stop.toInt.toNat :=
    Int64.toInt_ofNat_of_lt (by omega)
  have hge : ¬Int64.ofNat stop.toInt.toNat < stop := by
    rw [Int64.lt_iff_toInt_lt]
    omega
  rw [pull, if_neg hge]

end Range

/-! ### The object that was added last -/

section Push

variable {α : Type} (xs : Array α) (x : α)

theorem setIfInBounds_push_size (y : α) : (xs.push x).setIfInBounds xs.size y = xs.push y := by
  simp [Array.setIfInBounds, Array.set_push]

theorem modify_push_size (f : α → α) : (xs.push x).modify xs.size f = xs.push (f x) := by
  refine Array.ext (by simp) fun i hi hi' => ?_
  rw [Array.getElem_modify, Array.getElem_push, Array.getElem_push]
  by_cases hlt : i < xs.size
  · rw [if_neg (Nat.ne_of_gt hlt), dif_pos hlt, dif_pos hlt]
  · have heq : xs.size = i := by
      rw [Array.size_push] at hi'
      omega
    rw [if_pos heq, dif_neg hlt, dif_neg hlt]

end Push

namespace Store

variable (functions : Array Code) (ranges : Array Range) (maps : Array Dict)

theorem range_last (r : Range) :
    Store.range ⟨functions, ranges.push r, maps⟩ ⟨ranges.size⟩ = r := by
  simp [range, Array.getD_eq_getD_getElem?]

theorem setRange_last (r r' : Range) :
    setRange ⟨functions, ranges.push r, maps⟩ ⟨ranges.size⟩ r' =
      ⟨functions, ranges.push r', maps⟩ := by
  rw [setRange, setIfInBounds_push_size]

theorem map_last (d : Dict) : Store.map ⟨functions, ranges, maps.push d⟩ ⟨maps.size⟩ = d := by
  simp [map, Array.getD_eq_getD_getElem?]

theorem insert_last (d : Dict) (k : MapKey) (v : Value) :
    insert ⟨functions, ranges, maps.push d⟩ ⟨maps.size⟩ k v =
      ⟨functions, ranges, maps.push (d.insert k v)⟩ := by
  rw [insert, modify_push_size]

end Store
/-- The machine with other range iterators and maps in its store. -/
def Vm.holding (vm : Vm) (ranges : Array Range) (maps : Array Dict) : Vm :=
  { vm with store := { vm.store with ranges, maps } }

namespace Machine

variable {code : Code} {pc lasti : Nat} {locals : Array (Option Value)} {stack : List Value}
  {low : UInt8} {vm : Vm} {ranges : Array Range} {maps : Array Dict} {callers : List Frame}
  {stop : Int64}

/-- The iterator of a loop comes from a call of `range`. -/
theorem goes_callRange (h : code.Has pc .callFunction 1) :
    Goes ⟨vm.holding ranges maps, (), .running
        (code.frame pc locals (.int stop :: .builtin .range :: stack) lasti) callers⟩
      [.callFunction]
      ⟨vm.holding (ranges.push ⟨0, stop⟩) maps, (), .running
        (code.frame (pc + 2) locals (.range ⟨ranges.size⟩ :: stack) pc) callers⟩ :=
  (goes_callFunction h rfl).trans goes_given

theorem goes_round {i : Nat} (h : code.Has pc .forIter low) (hi : i < stop.toInt.toNat) :
    Goes ⟨vm.holding (ranges.push ⟨Int64.ofNat i, stop⟩) maps, (), .running
        (code.frame pc locals (.range ⟨ranges.size⟩ :: stack) lasti) callers⟩
      [.forIter]
      ⟨vm.holding (ranges.push ⟨Int64.ofNat (i + 1), stop⟩) maps, (), .running
        (code.frame (pc + 2) locals (.int (Int64.ofNat i) :: .range ⟨ranges.size⟩ :: stack) pc)
        callers⟩ := by
  have hpull : ((vm.holding (ranges.push ⟨Int64.ofNat i, stop⟩) maps).store.range
      ⟨ranges.size⟩).pull = some (Int64.ofNat i, ⟨Int64.ofNat (i + 1), stop⟩) := by
    rw [Vm.holding, Store.range_last, Range.pull_of_lt hi]
  have hgoes : Goes ⟨_, (), .running
      (code.frame pc locals (.range ⟨ranges.size⟩ :: stack) lasti) callers⟩ [.forIter] _ :=
    goes_forIter_next h hpull
  simp only [Vm.holding, Store.setRange_last] at hgoes
  exact hgoes

theorem goes_exit (h : code.Has pc .forIter low) :
    Goes ⟨vm.holding (ranges.push ⟨Int64.ofNat stop.toInt.toNat, stop⟩) maps, (), .running
        (code.frame pc locals (.range ⟨ranges.size⟩ :: stack) lasti) callers⟩
      [.forIter]
      ⟨vm.holding (ranges.push ⟨Int64.ofNat stop.toInt.toNat, stop⟩) maps, (), .running
        (code.frame (low.toNat * 2) locals stack pc) callers⟩ := by
  refine goes_forIter_done h ?_
  rw [Vm.holding, Store.range_last, Range.pull_toNat]

end Machine
end Wordcode
