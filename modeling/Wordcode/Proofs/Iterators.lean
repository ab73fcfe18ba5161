import Wordcode.Proofs.Frames

/-! Range iterators.  An iterator is shared by all that refer to it, and only pulling from it
changes it: each pull gives the integer that it stands at and moves it on by one, which never
overflows.  What a run pulls from an iterator are thus consecutive integers, as many as it moves on
by, and once it is exhausted nothing is pulled from it any more. -/

namespace Wordcode

open Trace

/-! ### Pulling -/

namespace Range

/-- The integer that is `j` above `a`. -/
def above (a : Int64) (j : Nat) : Int64 := Int64.ofInt (a.toInt + j)

@[simp] theorem above_zero (a : Int64) : above a 0 = a := by
  simp [above]

theorem above_succ (a : Int64) (j : Nat) : above a j + 1 = above a (j + 1) := by
  rw [above, above, Int.natCast_succ, ← Int.add_assoc, Int64.ofInt_add (a.toInt + j)]
  rfl

theorem toInt_above {a b : Int64} {j : Nat} (h : a.toInt + j ≤ b.toInt) :
    (above a j).toInt = a.toInt + j := by
  have hmin := a.le_toInt
  have hmax := b.toInt_lt
  exact Int64.toInt_ofInt_of_le (by omega) (by omega)

variable {r r' : Range} {i : Int64}

theorem pull_eq_none_iff : r.pull = none ↔ r.stop.toInt ≤ r.next.toInt := by
  unfold pull
  split
  · rename_i hlt
    rw [Int64.lt_iff_toInt_lt] at hlt
    simp [hlt]
  · rename_i hge
    rw [Int64.lt_iff_toInt_lt] at hge
    simpa using hge

theorem pull_of_toInt_lt (h : r.next.toInt < r.stop.toInt) :
    r.pull = some (r.next, ⟨r.next + 1, r.stop⟩) :=
  if_pos (Int64.lt_iff_toInt_lt.mpr h)

/-- A pull moves the iterator on by one, without overflow. -/
theorem of_pull (h : r.pull = some (i, r')) :
    i = r.next ∧ r'.stop = r.stop ∧ r'.next.toInt = r.next.toInt + 1 := by
  have hlt : r.next.toInt < r.stop.toInt := by
    by_contra hge
    rw [pull_eq_none_iff.mpr (Int.not_lt.mp hge)] at h
    cases h
  rw [pull_of_toInt_lt hlt] at h
  cases h
  have hsucc := toInt_above (j := 1) (show r.next.toInt + (1 : Nat) ≤ r.stop.toInt by omega)
  rw [← above_succ, above_zero] at hsucc
  exact ⟨rfl, rfl, hsucc⟩

end Range

/-! ### Steps -/

/-- The integer that an instruction pulls from the given iterator. -/
def pullsFrom? (id : RangeId) (op : Opcode) (vm : Vm) (f : Frame) : Option Int64 :=
  (pulling? op vm f).bind fun (id', i, _) => if id' = id then some i else none

theorem pulling?_congr {vm vm' : Vm} {f f' : Frame} (hstore : vm'.store = vm.store)
    (hstack : f'.stack = f.stack) (op : Opcode) : pulling? op vm' f' = pulling? op vm f := by
  unfold pulling?
  rw [hstore, hstack]

theorem pull_of_pulling? {op : Opcode} {vm : Vm} {f : Frame} {id : RangeId} {i : Int64} {r : Range}
    (h : pulling? op vm f = some (id, i, r)) : (vm.store.range id).pull = some (i, r) := by
  unfold pulling? at h
  split at h
  · obtain ⟨p, hp, heq⟩ := Option.map_eq_some_iff.mp h
    cases heq
    exact hp
  · cases h

theorem Store.range_of_getElem? {store : Store} {id : RangeId} {r : Range}
    (h : store.ranges[id.index]? = some r) : store.range id = r := by
  rw [range, Array.getD_eq_getD_getElem?, h, Option.getD_some]

/-- Only a pull from it changes an iterator. -/
theorem StoreMove.getElem?_ranges {op : Opcode} {vm : Vm} {f : Frame} {store : Store}
    (h : StoreMove op vm f store) {id : RangeId} {r : Range}
    (hr : vm.store.ranges[id.index]? = some r) :
    (pullsFrom? id op vm f = none ∧ store.ranges[id.index]? = some r) ∨
      ∃ i r', r.pull = some (i, r') ∧ pullsFrom? id op vm f = some i ∧
        store.ranges[id.index]? = some r' := by
  cases h with
  | kept hpull | inserted hpull | added hpull =>
    refine Or.inl ⟨?_, hr⟩
    rw [pullsFrom?, hpull]
    rfl
  | @pulled other i r' hpull =>
    have hrange := pull_of_pulling? hpull
    rw [Store.setRange, Array.getElem?_setIfInBounds, pullsFrom?, hpull]
    by_cases heq : other = id
    · subst heq
      rw [Store.range_of_getElem? hr] at hrange
      have hlt : other.index < vm.store.ranges.size := (Array.getElem?_eq_some_iff.mp hr).1
      refine Or.inr ⟨i, r', hrange, if_pos rfl, ?_⟩
      rw [if_pos rfl, if_pos hlt]
    · have hindex : other.index ≠ id.index := fun hindex => heq (congrArg RangeId.mk hindex)
      refine Or.inl ⟨if_neg heq, ?_⟩
      rw [if_neg hindex, hr]

/-- Native functions add iterators, and leave those that are there alone. -/
theorem Builtin.getElem?_ranges_call (b : Builtin) (args : List Value) {vm : Vm} {k : Nat}
    {r : Range} (h : vm.store.ranges[k]? = some r) :
    (b.call args vm).2.store.ranges[k]? = some r := by
  have hpush : ∀ r' : Range, (vm.store.ranges.push r')[k]? = some r := fun r' => by
    rw [Array.getElem?_push_lt (Array.getElem?_eq_some_iff.mp h).1]
    exact congrArg some (Array.getElem?_eq_some_iff.mp h).2
  unfold call
  split
  · exact hpush _
  · exact hpush _
  all_goals exact h

namespace Machine

variable {σ : Type} (hook : Option (Tracer σ)) (id : RangeId)

/-- The integer that the next step pulls from an iterator. -/
def pulled? (m : Machine σ) : Option Int64 :=
  match m.phase, m.effect? hook with
  | .running f _, some _ => f.fetch.toOption.bind fun (op, _) => pullsFrom? id op m.vm f
  | _, _ => none

/-- The integers that the next `n` steps pull from an iterator, in all frames. -/
def pulled : Nat → Machine σ → List Int64
  | 0, _ => []
  | n + 1, m => (m.pulled? hook id).toList ++ pulled n (m.step hook)

variable {id}

/-- A step leaves an iterator alone, or pulls from it once. -/
theorem getElem?_ranges_step {m : Machine σ} {r : Range}
    (hr : m.vm.store.ranges[id.index]? = some r) :
    (m.pulled? hook id = none ∧ (m.step hook).vm.store.ranges[id.index]? = some r) ∨
      ∃ i r', r.pull = some (i, r') ∧ m.pulled? hook id = some i ∧
        (m.step hook).vm.store.ranges[id.index]? = some r' := by
  have hnative : ∀ r' (b : Builtin) args vm, vm.store.ranges[id.index]? = some r' →
      (b.call args vm).2.store.ranges[id.index]? = some r' :=
    fun r' b args vm h => b.getElem?_ranges_call args h
  cases heffect : m.effect? hook with
  | none =>
    have hnone : m.pulled? hook id = none := by
      unfold pulled?
      rw [heffect]
      cases m.phase <;> rfl
    have hkept := store_step_of_none (P := fun store => store.ranges[id.index]? = some r)
      (hnative r) heffect hr
    exact Or.inl ⟨hnone, hkept⟩
  | some e =>
    have hstep := fun r' => store_step_of_some
      (P := fun store => store.ranges[id.index]? = some r') (hnative r') heffect
    obtain ⟨f, callers, op, low, g, hphase, hfetch, hg, rfl⟩ := exists_execute heffect
    obtain ⟨-, -, -, hstack, -⟩ := Frame.of_untraced_eq hg
    have hpulled : m.pulled? hook id = pullsFrom? id op m.vm.count g := by
      rw [pullsFrom?, pulling?_congr rfl hstack]
      unfold pulled?
      simp only [hphase, heffect, hfetch]
      rfl
    have hmove := storeMove_execute op (foldArg f.pending low) m.vm.count g
    rw [hpulled]
    obtain ⟨hnone, hkept⟩ | ⟨i, r', hpull, hsome, hset⟩ := hmove.getElem?_ranges hr
    · exact Or.inl ⟨hnone, hstep r hkept⟩
    · exact Or.inr ⟨i, r', hpull, hsome, hstep r' hset⟩

/-! ### Runs -/

/-- What a run pulls from an iterator are the integers that the iterator moves on by; by induction
on the steps, of which the first may be a pull. -/
theorem exists_pulled_eq (n : Nat) {m : Machine σ} {r : Range}
    (hr : m.vm.store.ranges[id.index]? = some r) :
    ∃ r', ((step hook)^[n] m).vm.store.ranges[id.index]? = some r' ∧ r'.stop = r.stop ∧
      r'.next.toInt = r.next.toInt + (m.pulled hook id n).length ∧
      m.pulled hook id n =
        (List.range (m.pulled hook id n).length).map (Range.above r.next) := by
  induction n generalizing m r with
  | zero => exact ⟨r, hr, rfl, by simp [pulled], rfl⟩
  | succ n ih =>
    rw [Function.iterate_succ_apply, pulled]
    obtain ⟨hnone, hkept⟩ | ⟨i, r', hpull, hsome, hset⟩ := getElem?_ranges_step hook hr
    · rw [hnone]
      exact ih hkept
    · obtain ⟨rfl, hstop, htoInt⟩ := Range.of_pull hpull
      obtain ⟨r'', hr'', hstop', htoInt', hlist⟩ := ih hset
      rw [hsome, Option.toList_some, List.singleton_append, List.length_cons]
      refine ⟨r'', hr'', hstop'.trans hstop, by omega, ?_⟩
      rw [List.range_succ_eq_map, List.map_cons, Range.above_zero, List.map_map]
      have hshift : ∀ j, Range.above r'.next j = Range.above r.next (j + 1) := by
        intro j
        rw [Range.above, Range.above, htoInt, Int.natCast_succ]
        exact congrArg Int64.ofInt (by omega)
      exact congrArg _ (hlist.trans (List.map_congr_left fun j _ => hshift j))

variable {hook}

/-- The integers that a run pulls from an iterator are those from where it stood to where it
stands. -/
theorem pulled_eq {n : Nat} {m : Machine σ} {r r' : Range}
    (hr : m.vm.store.ranges[id.index]? = some r)
    (hr' : ((step hook)^[n] m).vm.store.ranges[id.index]? = some r') :
    m.pulled hook id n =
      (List.range (r'.next.toInt - r.next.toInt).toNat).map (Range.above r.next) := by
  obtain ⟨r'', hr'', -, htoInt, hlist⟩ := exists_pulled_eq hook n hr
  rw [hr'] at hr''
  cases hr''
  have hlength : (m.pulled hook id n).length = (r'.next.toInt - r.next.toInt).toNat := by omega
  rw [← hlength]
  exact hlist

/-- Once an iterator is exhausted, it stays so. -/
theorem exhausted_iterate (n : Nat) {m : Machine σ} {r : Range}
    (hr : m.vm.store.ranges[id.index]? = some r) (hend : r.pull = none) :
    ((step hook)^[n] m).vm.store.ranges[id.index]? = some r ∧ m.pulled hook id n = [] := by
  induction n generalizing m with
  | zero => exact ⟨hr, rfl⟩
  | succ n ih =>
    rw [Function.iterate_succ_apply, pulled]
    obtain ⟨hnone, hkept⟩ | ⟨i, r', hpull, -, -⟩ := getElem?_ranges_step hook hr
    · rw [hnone]
      exact ih hkept
    · rw [hend] at hpull
      cases hpull

end Machine

end Wordcode
