import Mathlib.Logic.Function.Iterate
import Wordcode.Workload.Sequence

/-! Delegation.  However the counters are composed, pulling gives the numbers of each counter in
turn, completely and in order, and then nothing any more.  Each kind of state is told by the list of
the values that it still gives, and one pull takes the first value off that list. -/

namespace Wordcode.Workload

namespace Sequence

variable {σ : Type} [Sequence σ]

/-- The state after `n` pulls, those that found nothing included. -/
def after (s : σ) (n : Nat) : σ := (fun t => (advance t).2)^[n] s

theorem after_succ (s : σ) (n : Nat) : after s (n + 1) = (advance (after s n)).2 :=
  Function.iterate_succ_apply' _ n s

/-! ### The values of a state -/

/-- Pull by pull the state gives these values, and then nothing any more. -/
def Gives (s : σ) (vs : List Nat) : Prop := ∀ n, (advance (after s n)).1 = vs[n]?

/-- A relation of states and values is right if each pull finds the first value and comes to a state
that is related to the rest. -/
theorem gives_of_related {R : σ → List Nat → Prop}
    (hpull : ∀ s vs, R s vs → (advance s).1 = vs.head? ∧ R (advance s).2 vs.tail)
    {s : σ} {vs : List Nat} (h : R s vs) : Gives s vs := by
  intro n
  induction n generalizing s vs with
  | zero =>
    rw [← List.head?_eq_getElem?]
    exact (hpull s vs h).1
  | succ n ih =>
    rw [← List.getElem?_tail]
    exact ih (hpull s vs h).2

theorem gives_of_values {values : σ → List Nat}
    (hpull : ∀ s, (advance s).1 = (values s).head? ∧ values (advance s).2 = (values s).tail)
    (s : σ) : Gives s (values s) := by
  apply gives_of_related (R := fun s vs => values s = vs) _ rfl
  rintro s _ rfl
  exact hpull s

variable {s : σ} {vs : List Nat}

theorem Gives.head? (h : Gives s vs) : (advance s).1 = vs.head? :=
  (h 0).trans List.head?_eq_getElem?.symm

theorem Gives.tail (h : Gives s vs) : Gives (advance s).2 vs.tail := by
  intro n
  rw [List.getElem?_tail]
  exact h (n + 1)

theorem Gives.drop (h : Gives s vs) (k : Nat) : Gives (after s k) (vs.drop k) := by
  induction k with
  | zero => exact h
  | succ k ih =>
    rw [after_succ, ← List.tail_drop]
    exact ih.tail

theorem Gives.drainFrom_eq (h : Gives s vs) (yielded : Nat) :
    drainFrom s yielded = yielded + vs.length := by
  induction vs generalizing s yielded with
  | nil =>
    have hnone := h.head?
    rw [drainFrom]
    split
    next hpull =>
      rw [hpull] at hnone
      cases hnone
    next => rfl
  | cons v vs ih =>
    have hsome := h.head?
    have hrest := h.tail
    rw [drainFrom]
    split
    next t hpull =>
      rw [hpull] at hrest
      rw [ih hrest, List.length_cons]
      omega
    next t hpull =>
      rw [hpull] at hsome
      cases hsome

theorem Gives.drain_eq (h : Gives s vs) : drain s = vs.length := by
  rw [drain, h.drainFrom_eq, Nat.zero_add]

end Sequence

open Sequence

/-! ### Counters -/

namespace Counter

/-- The values that a counter still gives. -/
def values (c : Counter) : List Nat := List.range' c.next (c.len - c.next)

theorem advance_values (c : Counter) :
    c.advance.1 = c.values.head? ∧ c.advance.2.values = c.values.tail := by
  by_cases hlt : c.next < c.len
  · have hlen : c.len - c.next = c.len - (c.next + 1) + 1 := by omega
    simp only [advance, pull, hlt, if_true, values]
    rw [hlen, List.range'_succ]
    exact ⟨rfl, rfl⟩
  · have hlen : c.len - c.next = 0 := by omega
    simp only [advance, pull, hlt, if_false, values, hlen]
    exact ⟨rfl, rfl⟩

theorem gives_values (c : Counter) : Gives c c.values := gives_of_values advance_values c

theorem length_values (c : Counter) : c.values.length = c.remaining := List.length_range'

theorem drain_eq (c : Counter) : drain c = c.remaining := by
  rw [c.gives_values.drain_eq, length_values]

theorem values_new (len : Nat) : (new len).values = List.range len := List.range_eq_range'.symm

theorem next_le_advance {c : Counter} (h : c.next ≤ c.len) :
    c.advance.2.next ≤ c.advance.2.len := by
  by_cases hlt : c.next < c.len
  · simp only [advance, pull, hlt, if_true]
    omega
  · simpa only [advance, pull, hlt, if_false] using h

end Counter

/-! ### Chains -/

namespace Chain

variable {σ τ : Type} [Sequence σ] [Sequence τ]

/-- A chain gives the values of its first sequence, unless that was dropped, and then those of the
second. -/
inductive Holds : Chain σ τ → List Nat → Prop
  | both {s : σ} {t : τ} {vs ws : List Nat} (hs : Gives s vs) (ht : Gives t ws) :
    Holds ⟨some s, t⟩ (vs ++ ws)
  | second {t : τ} {ws : List Nat} (ht : Gives t ws) : Holds ⟨none, t⟩ ws

theorem advance_dropped (t : τ) :
    (⟨none, t⟩ : Chain σ τ).advance = ((Sequence.advance t).1, ⟨none, (Sequence.advance t).2⟩) :=
  rfl

theorem advance_of_some {s s' : σ} {v : Nat} (h : Sequence.advance s = (some v, s')) (t : τ) :
    (⟨some s, t⟩ : Chain σ τ).advance = (some v, ⟨some s', t⟩) := by
  simp only [advance, Option.map_some, h]

theorem advance_of_none {s s' : σ} (h : Sequence.advance s = (none, s')) (t : τ) :
    (⟨some s, t⟩ : Chain σ τ).advance = (⟨none, t⟩ : Chain σ τ).advance := by
  simp only [advance, Option.map_some, Option.map_none, h]

theorem Holds.advance {c : Chain σ τ} {vs : List Nat} (h : c.Holds vs) :
    c.advance.1 = vs.head? ∧ c.advance.2.Holds vs.tail := by
  cases h with
  | second ht =>
    rw [advance_dropped]
    exact ⟨ht.head?, .second ht.tail⟩
  | @both s t vs ws hs ht =>
    have hhead := hs.head?
    have htail := hs.tail
    rcases hpull : Sequence.advance s with ⟨v, s'⟩
    rw [hpull] at hhead htail
    -- The first sequence gives a value exactly if it still has one.
    cases vs with
    | nil =>
      obtain rfl : v = none := hhead
      rw [advance_of_none hpull, advance_dropped]
      exact ⟨ht.head?, .second ht.tail⟩
    | cons u vs =>
      obtain rfl : v = some u := hhead
      rw [advance_of_some hpull]
      exact ⟨rfl, .both htail ht⟩

theorem Holds.gives {c : Chain σ τ} {vs : List Nat} (h : c.Holds vs) : Gives c vs :=
  gives_of_related (fun _ _ => Holds.advance) h

theorem gives_append {s : σ} {t : τ} {vs ws : List Nat} (hs : Gives s vs) (ht : Gives t ws) :
    Gives (⟨some s, t⟩ : Chain σ τ) (vs ++ ws) := (Holds.both hs ht).gives

end Chain

/-! ### Delegation -/

/-- The numbers below `len`, `copies` times over. -/
def repeated (copies len : Nat) : List Nat := (List.replicate copies (List.range len)).flatten

theorem repeated_succ (copies len : Nat) :
    repeated (copies + 1) len = List.range len ++ repeated copies len := rfl

/-- The repeated numbers in terms of their places. -/
theorem getElem?_repeated (copies len k : Nat) :
    (repeated copies len)[k]? = if k < copies * len then some (k % len) else none := by
  induction copies generalizing k with
  | zero => simp [repeated]
  | succ copies ih =>
    rw [repeated_succ, Nat.succ_mul]
    by_cases hlt : k < len
    · rw [List.getElem?_append_left (by simpa using hlt), List.getElem?_range hlt,
        if_pos (by omega), Nat.mod_eq_of_lt hlt]
    · rw [List.getElem?_append_right (by simpa using hlt), List.length_range, ih,
        ← Nat.mod_eq_sub_mod (by omega)]
      have hplace : k - len < copies * len ↔ k < copies * len + len := by omega
      simp only [hplace]

theorem length_repeated (copies len : Nat) : (repeated copies len).length = copies * len := by
  simp [repeated]

namespace Delegation

/-- The values that a delegation still gives: those of the current counter, and then those of the
counters that have not begun. -/
def values (d : Delegation) : List Nat :=
  (d.current.map Counter.values).getD [] ++ repeated d.copies d.len

theorem advance_current {copies len : Nat}
    (hbegin : (begin len copies).1 = (repeated copies len).head? ∧
      (begin len copies).2.values = (repeated copies len).tail) (c : Counter) :
    (advance ⟨copies, len, some c⟩).1 = (c.values ++ repeated copies len).head? ∧
      (advance ⟨copies, len, some c⟩).2.values = (c.values ++ repeated copies len).tail := by
  obtain ⟨hhead, htail⟩ := c.advance_values
  rcases hpull : c.advance with ⟨v, c'⟩
  rw [hpull] at hhead htail
  simp only [advance, Option.map_some, hpull]
  -- The current counter gives a value exactly if it still has one.
  cases hvalues : c.values with
  | nil =>
    rw [hvalues] at hhead
    obtain rfl : v = none := hhead
    exact hbegin
  | cons u rest =>
    rw [hvalues] at hhead htail
    obtain rfl : v = some u := hhead
    exact ⟨rfl, congrArg (· ++ repeated copies len) htail⟩

/-- A counter that begins is pulled as if it had been the current one before. -/
theorem begin_succ (len copies : Nat) :
    begin len (copies + 1) = advance ⟨copies, len, some (Counter.new len)⟩ := by
  rw [begin, advance, Option.map_some]
  rcases (Counter.new len).advance with ⟨_ | v, c⟩ <;> rfl

theorem begin_values (len copies : Nat) :
    (begin len copies).1 = (repeated copies len).head? ∧
      (begin len copies).2.values = (repeated copies len).tail := by
  induction copies with
  | zero => exact ⟨rfl, rfl⟩
  | succ copies ih =>
    rw [begin_succ, repeated_succ, ← Counter.values_new]
    exact advance_current ih _

theorem advance_values (d : Delegation) :
    d.advance.1 = d.values.head? ∧ d.advance.2.values = d.values.tail := by
  obtain ⟨copies, len, current⟩ := d
  cases current with
  | none => exact begin_values len copies
  | some c => exact advance_current (begin_values len copies) c

theorem gives_values (d : Delegation) : Gives d d.values := gives_of_values advance_values d

end Delegation

theorem gives_delegateN (copies len : Nat) : Gives (delegateN copies len) (repeated copies len) :=
  (delegateN copies len).gives_values

theorem gives_delegate (len : Nat) : Gives (delegate len) (repeated 3 len) := by
  have hnew : Gives (Counter.new len) (List.range len) := by
    rw [← Counter.values_new]
    exact (Counter.new len).gives_values
  have hchain := Chain.gives_append (Chain.gives_append hnew hnew) hnew
  have hvalues : List.range len ++ List.range len ++ List.range len = repeated 3 len := by
    simp [repeated]
  rwa [hvalues] at hchain

example : (Sequence.take (delegate 2) 7).1 = [0, 1, 0, 1, 0, 1] := rfl

/-- From this state on the numbers below `len` come `copies` times over, one with each pull, and
then nothing comes any more; and what is drained at any moment is the rest of them. -/
structure Repeats {σ : Type} [Sequence σ] (s : σ) (copies len : Nat) : Prop where
  pull : ∀ k, (advance (after s k)).1 = if k < copies * len then some (k % len) else none
  rest : ∀ k, drain (after s k) = copies * len - k

theorem repeats_of_gives {σ : Type} [Sequence σ] {s : σ} {copies len : Nat}
    (h : Gives s (repeated copies len)) : Repeats s copies len where
  pull k := (h k).trans (getElem?_repeated copies len k)
  rest k := by rw [(h.drop k).drain_eq, List.length_drop, length_repeated]

/-- What a counter tells of the values to come is right: nothing is cut off where its place is
subtracted from its length, and both bounds are the number of pulls that still find a value. -/
structure Counter.Exact (c : Counter) : Prop where
  next_le : c.next ≤ c.len
  next_add_remaining : c.next + c.remaining = c.len
  sizeHint_eq : c.sizeHint = (drain c, some (drain c))
  isSome_pull : ∀ n, (Sequence.advance (after c n)).1.isSome ↔ n < drain c

theorem Counter.exact_of_next_le {c : Counter} (h : c.next ≤ c.len) : c.Exact where
  next_le := h
  next_add_remaining := by
    rw [remaining]
    omega
  sizeHint_eq := by rw [sizeHint, c.drain_eq]
  isSome_pull n := by simp [c.gives_values n, c.drain_eq, length_values]

theorem Counter.exact_after (len n : Nat) : (after (Counter.new len) n).Exact := by
  apply exact_of_next_le
  exact Function.Iterate.rec (fun c : Counter => c.next ≤ c.len) (Nat.zero_le len)
    (fun _ => next_le_advance) n

/-- Delegation gives the values of each counter completely and in order.  Both ways to compose
counters repeat the numbers below `len`, whatever was pulled before, and hence agree for three
copies; and however often a counter was pulled, its bounds are right. -/
theorem delegation_repeats_counters (copies len : Nat) :
    Repeats (delegateN copies len) copies len ∧ Repeats (delegate len) 3 len ∧
      (∀ k, (advance (after (delegate len) k)).1 = (advance (after (delegateN 3 len) k)).1 ∧
        drain (after (delegate len) k) = drain (after (delegateN 3 len) k)) ∧
      ∀ n, (after (Counter.new len) n).Exact := by
  have hfixed := repeats_of_gives (gives_delegate len)
  have hthree := repeats_of_gives (gives_delegateN 3 len)
  refine ⟨repeats_of_gives (gives_delegateN copies len), hfixed, fun k => ⟨?_, ?_⟩,
    Counter.exact_after len⟩
  · rw [hfixed.pull, hthree.pull]
  · rw [hfixed.rest, hthree.rest]

end Wordcode.Workload
