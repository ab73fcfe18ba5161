/-! Sequences that are pulled value by value: counters, and the sequences that take their values
from several counters, one after another.  A sequence knows how many values are still to come, so
that draining it ends. -/

namespace Wordcode.Workload

/-- The states of a sequence of numbers that ends. -/
class Sequence (σ : Type) where
  /-- The next value, if there is any, with the state that a pull leaves. -/
  advance : σ → Option Nat × σ
  /-- The number of values still to come. -/
  remaining : σ → Nat
  remaining_advance :
    ∀ {s t : σ} {v : Nat}, advance s = (some v, t) → remaining t < remaining s

namespace Sequence

variable {σ : Type} [Sequence σ]

/-- Pulls values until none is left, and adds their number to `yielded`. -/
@[specialize] def drainFrom (s : σ) (yielded : Nat) : Nat :=
  match h : advance s with
  | (some _, t) => drainFrom t (yielded + 1)
  | (none, _) => yielded
termination_by remaining s
decreasing_by exact remaining_advance h

/-- The number of values that are pulled until none is left. -/
def drain (s : σ) : Nat := drainFrom s 0

/-- Pulls at most `n` values, and adds their number to `passed`. -/
@[specialize] def skipFrom (s : σ) (passed : Nat) : Nat → Nat × σ
  | 0 => (passed, s)
  | n + 1 =>
    match advance s with
    | (some _, t) => skipFrom t (passed + 1) n
    | (none, t) => (passed, t)

/-- Passes over the next values, at most `n`: how many there were, with the state after them. -/
def skip (s : σ) (n : Nat) : Nat × σ := skipFrom s 0 n

/-- The next values, at most `n`, with the state after them. -/
def take (s : σ) : Nat → List Nat × σ
  | 0 => ([], s)
  | n + 1 =>
    match advance s with
    | (some v, t) =>
      let (rest, t) := take t n
      (v :: rest, t)
    | (none, t) => ([], t)

end Sequence

/-! ### Counters -/

/-- A sequence of the numbers from `next` up to `len`. -/
structure Counter where
  next : Nat
  len : Nat
  deriving DecidableEq

namespace Counter

def new (len : Nat) : Counter := ⟨0, len⟩

/-- The next number, with the counter after it; nothing once `len` is reached. -/
def pull (c : Counter) : Option (Nat × Counter) :=
  if c.next < c.len then some (c.next, { c with next := c.next + 1 }) else none

def remaining (c : Counter) : Nat := c.len - c.next

theorem remaining_pull {c d : Counter} {v : Nat} (h : c.pull = some (v, d)) :
    d.remaining < c.remaining := by
  unfold pull at h
  split at h
  · cases h
    simp only [remaining]
    omega
  · cases h

/-- One pull of a counter; a counter that has ended stays as it is. -/
def advance (c : Counter) : Option Nat × Counter :=
  match c.pull with
  | some (v, d) => (some v, d)
  | none => (none, c)

theorem remaining_advance {c d : Counter} {v : Nat} (h : c.advance = (some v, d)) :
    d.remaining < c.remaining := by
  unfold advance at h
  split at h
  next hpull =>
    cases h
    exact remaining_pull hpull
  next => cases h

instance : Sequence Counter := ⟨advance, remaining, remaining_advance⟩

/-- The bounds that a counter gives on the number of values still to come. -/
def sizeHint (c : Counter) : Nat × Option Nat := (c.remaining, some c.remaining)

def debug (c : Counter) : String :=
  "Counter \x7b next: " ++ toString c.next ++ ", len: " ++ toString c.len ++ " \x7d"

end Counter

/-! ### Chains -/

/-- A sequence whose values come from `first`, as long as it has any, and then from `second`. -/
structure Chain (σ τ : Type) where
  first : Option σ
  second : τ

namespace Chain

variable {σ τ : Type} [Sequence σ] [Sequence τ]

/-- One pull of a chain.  A first sequence that has ended is dropped, and not asked again. -/
def advance (c : Chain σ τ) : Option Nat × Chain σ τ :=
  match c.first.map Sequence.advance with
  | some (some v, s) => (some v, { c with first := some s })
  | _ =>
    match Sequence.advance c.second with
    | (v, t) => (v, ⟨none, t⟩)

def remaining (c : Chain σ τ) : Nat :=
  (c.first.map Sequence.remaining).getD 0 + Sequence.remaining c.second

theorem remaining_advance {c d : Chain σ τ} {v : Nat} (h : c.advance = (some v, d)) :
    d.remaining < c.remaining := by
  unfold advance at h
  split at h
  next w s hs =>
    cases h
    obtain ⟨r, hfirst, hr⟩ := Option.map_eq_some_iff.mp hs
    have := Sequence.remaining_advance hr
    simp only [remaining, hfirst, Option.map_some, Option.getD_some]
    omega
  next =>
    split at h
    next w t ht =>
      cases h
      have := Sequence.remaining_advance ht
      simp only [remaining, Option.map_none, Option.getD_none]
      omega

instance : Sequence (Chain σ τ) := ⟨advance, remaining, remaining_advance⟩

end Chain

/-! ### Delegation -/

/-- Three counters of `len` values, each drained before the next begins. -/
def delegate (len : Nat) : Chain (Chain Counter Counter) Counter :=
  ⟨some ⟨some (.new len), .new len⟩, .new len⟩

/-- A sequence whose values come from the counter `current`, as long as there is one, and then from
`copies` more counters of `len` values. -/
structure Delegation where
  copies : Nat
  len : Nat
  current : Option Counter

namespace Delegation

/-- One pull of `copies` counters of `len` values that have not begun; counters without values are
passed over. -/
def begin (len : Nat) : Nat → Option Nat × Delegation
  | 0 => (none, ⟨0, len, none⟩)
  | copies + 1 =>
    match (Counter.new len).advance with
    | (some v, c) => (some v, ⟨copies, len, some c⟩)
    | (none, _) => begin len copies

/-- One pull: of the current counter, or else of the next counter with any values. -/
def advance (d : Delegation) : Option Nat × Delegation :=
  match d.current.map Counter.advance with
  | some (some v, c) => (some v, { d with current := some c })
  | _ => begin d.len d.copies

def remaining (d : Delegation) : Nat :=
  d.copies * d.len + (d.current.map Counter.remaining).getD 0

theorem remaining_begin {len copies v : Nat} {d : Delegation}
    (h : begin len copies = (some v, d)) : d.remaining < copies * len := by
  induction copies with
  | zero => cases h
  | succ copies ih =>
    rw [Nat.succ_mul]
    unfold begin at h
    split at h
    next w c hc =>
      cases h
      have := Counter.remaining_advance hc
      simp only [remaining, Counter.remaining, Counter.new, Option.map_some,
        Option.getD_some] at this ⊢
      omega
    next =>
      have := ih h
      omega

theorem remaining_advance {d e : Delegation} {v : Nat} (h : d.advance = (some v, e)) :
    e.remaining < d.remaining := by
  unfold advance at h
  split at h
  next w c hc =>
    cases h
    obtain ⟨b, hcurrent, hb⟩ := Option.map_eq_some_iff.mp hc
    have := Counter.remaining_advance hb
    simp only [remaining, hcurrent, Option.map_some, Option.getD_some]
    omega
  next =>
    have := remaining_begin h
    show e.remaining < d.copies * d.len + (d.current.map Counter.remaining).getD 0
    omega

instance : Sequence Delegation := ⟨advance, remaining, remaining_advance⟩

end Delegation

/-- The values of `copies` counters of `len` values, one counter after another. -/
def delegateN (copies len : Nat) : Delegation := ⟨copies, len, none⟩

/-- The number of values of each counter in the benchmark. -/
def sequenceLength : Nat := 3000000

/-- The number of counters in the benchmark. -/
def delegateCount : Nat := 3

end Wordcode.Workload
