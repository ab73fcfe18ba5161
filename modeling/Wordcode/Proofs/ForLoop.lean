import Wordcode.Proofs.Iterators
import Wordcode.Proofs.Routes

/-! The law of the loop over a range.  A loop stands at its head with an iterator on top of its
operands.  If whatever its body is comes back to the head each time, with the operands and the
iterator as they were, the loop runs the body once for each integer that is left, in order, and goes
on behind its exit with the iterator gone from its operands and exhausted for good. -/

namespace Wordcode

open Trace

/-! ### Instructions with prefixes -/

/-- The bytes from `pc` on spell an instruction with the opcode `op` and the argument `arg` behind
so many prefixes, where `pending` is pending already. -/
inductive Code.Spells (code : Code) (op : Opcode) (arg : UInt32) : Nat → UInt32 → Nat → Prop
  | last {pc : Nat} {pending : UInt32} {low : UInt8} (h : code.Has pc op low)
      (harg : foldArg pending low = arg) : Spells code op arg pc pending 0
  | more {pc n : Nat} {pending : UInt32} {low : UInt8} (h : code.Has pc .extendedArg low)
      (hrest : Spells code op arg (pc + 2) (foldArg pending low) n) :
      Spells code op arg pc pending (n + 1)

theorem Code.Has.fetch {code : Code} {op : Opcode} {low : UInt8} {f : Frame}
    (h : code.Has f.pc op low) (hcode : f.code = code) : f.fetch = .ok (op, low) := by
  subst hcode
  simp only [Frame.fetch, h.op, h.low, Opcode.ofByte?_byte]

namespace Machine

variable {σ : Type} {hook : Option (Tracer σ)}
  (hcalm : ∀ tracer, hook = some tracer → tracer.NeverAborts)
include hcalm

theorem verdict_observe_ne (s : σ) (vm : Vm) (f : Frame) :
    (f.observe hook s vm).verdict ≠ .abort := by
  cases hook with
  | none => exact Verdict.noConfusion
  | some tracer => exact Frame.verdict_notifyInstruction_ne (hcalm tracer rfl) s vm f

/-- A step executes the instruction at hand in the frame on top, but for what the hook keeps. -/
theorem exists_step_eq {m : Machine σ} {f : Frame} {callers : List Frame} {op : Opcode}
    {low : UInt8} (hphase : m.phase = .running f callers) (hfetch : f.fetch = .ok (op, low)) :
    ∃ s g, g.untraced = (f.advance op (foldArg f.pending low)).untraced ∧
      m.step hook = proceed hook s callers (execute op (foldArg f.pending low) m.vm.count g) := by
  obtain ⟨vm, s, phase⟩ := m
  subst hphase
  let n := (f.advance op (foldArg f.pending low)).observe hook s vm.count
  refine ⟨n.tracer, n.frame, Frame.untraced_observe hook s vm.count _, ?_⟩
  rw [step, executeNext_of_ok hfetch]
  exact if_neg (verdict_observe_ne hcalm s vm.count _)

/-- The prefixes of an instruction are executed one by one, and change nothing but what is
pending. -/
theorem exists_iterate_of_spells {code : Code} {op : Opcode} {arg : UInt32} {pc n : Nat}
    {pending : UInt32} (h : code.Spells op arg pc pending n) {m : Machine σ} {f : Frame}
    {callers : List Frame} (hphase : m.phase = .running f callers) (hcode : f.code = code)
    (hpc : f.pc = pc) (hpending : f.pending = pending) :
    (∃ g low, ((step hook)^[n] m).phase = .running g callers ∧ g.code = code ∧
      g.pc = pc + 2 * n ∧ g.stack = f.stack ∧ g.fetch = .ok (op, low) ∧
      foldArg g.pending low = arg ∧ ((step hook)^[n] m).vm.store = m.vm.store) ∧
    ∀ k ≤ n, ∃ g, ((step hook)^[k] m).phase = .running g callers := by
  induction h generalizing m f with
  | @last pc pending low h harg =>
    subst hpc hpending
    refine ⟨⟨f, low, hphase, hcode, rfl, rfl, h.fetch hcode, harg, rfl⟩, fun k hk => ?_⟩
    rw [Nat.le_zero.mp hk]
    exact ⟨f, hphase⟩
  | @more pc n pending low h hrest ih =>
    subst hpc hpending
    obtain ⟨s, g, hg, hstep⟩ := exists_step_eq hcalm hphase (h.fetch hcode)
    have hnext : (m.step hook) = ⟨m.vm.count, s, .running g callers⟩ := hstep
    obtain ⟨hcode', hpc', hpending', hstack', -⟩ := Frame.of_untraced_eq hg
    obtain ⟨⟨g', low', hphase', hcode'', hpc'', hstack'', hfetch', harg', hstore'⟩, hall⟩ :=
      ih (m := m.step hook) (congrArg Machine.phase hnext) (hcode'.trans hcode) hpc' hpending'
    refine ⟨⟨g', low', hphase', hcode'', by omega, hstack''.trans hstack', hfetch', harg', ?_⟩,
      fun k hk => ?_⟩
    · rw [Function.iterate_succ_apply, hstore', hnext]
      rfl
    · cases k with
      | zero => exact ⟨f, hphase⟩
      | succ k => exact hall k (Nat.le_of_succ_le_succ hk)

end Machine

/-! ### Loops -/

/-- A loop over a range: where its head is, and what it stands on. -/
structure Loop where
  code : Code
  /-- The byte offset of the head, the first of its prefixes included. -/
  head : Nat
  prefixes : Nat
  /-- The index of the instruction behind the loop. -/
  exit : UInt32
  iterator : RangeId
  stop : Int64
  /-- The operands below the iterator. -/
  rest : List Value
  callers : List Frame

namespace Loop

variable {σ : Type} (L : Loop)

/-- The number of instructions that the head consists of. -/
def units : Nat := L.prefixes + 1

/-- The byte offset at which the body begins. -/
def body : Nat := L.head + 2 * L.units

/-- The frame of the loop has come to the instruction at byte `pc`, behind no prefix, with the given
operands, while the iterator stands at `next`. -/
structure Stands (pc : Nat) (stack : List Value) (next : Int64) (m : Machine σ) : Prop where
  frame : ∃ f, m.phase = .running f L.callers ∧ f.code = L.code ∧ f.pc = pc ∧ f.pending = 0 ∧
    f.stack = stack
  iterator : m.vm.store.ranges[L.iterator.index]? = some ⟨next, L.stop⟩

def AtHead (i : Int64) (m : Machine σ) : Prop :=
  L.Stands L.head (.range L.iterator :: L.rest) i m

/-- The body is about to begin for the integer `i`. -/
def AtBody (i : Int64) (m : Machine σ) : Prop :=
  L.Stands L.body (.int i :: .range L.iterator :: L.rest) (i + 1) m

def AtExit (i : Int64) (m : Machine σ) : Prop := L.Stands (2 * L.exit.toNat) L.rest i m

/-- The frame of the loop is active, on top or below the frames of what it calls. -/
def Active (m : Machine σ) : Prop := L.callers.length < m.phase.frames.length

variable (hook : Option (Tracer σ))

/-- The frame of the loop is active during the next `n` steps. -/
def ActiveFor (n : Nat) (m : Machine σ) : Prop :=
  ∀ k ≤ n, L.Active ((Machine.step hook)^[k] m)

/-- From the beginning of the body for the integer `i`, the loop comes back to its head after `n`
steps, and nothing has pulled from its iterator. -/
structure ComesBack (i : Int64) (n : Nat) (m : Machine σ) : Prop where
  head : L.AtHead (i + 1) ((Machine.step hook)^[n] m)
  active : L.ActiveFor hook n m

/-- The moments at which the loop is at its head for the integer `i`, after rounds that came back
from the integer `a` on. -/
inductive Reaches (m : Machine σ) (a : Int64) : Int64 → Nat → Prop
  | first : Reaches m a a 0
  | round {i : Int64} {t n : Nat} (h : Reaches m a i t) (hi : i < L.stop)
      (hback : L.ComesBack hook i n ((Machine.step hook)^[t + L.units] m)) :
      Reaches m a (i + 1) (t + L.units + n)

end Loop

namespace Loop

variable {σ : Type} {hook : Option (Tracer σ)} {L : Loop} {m : Machine σ} {i : Int64}

theorem Stands.active {pc : Nat} {stack : List Value} (h : L.Stands pc stack i m) :
    L.Active m := by
  obtain ⟨f, hphase, -⟩ := h.frame
  rw [Active, hphase]
  exact Nat.lt_succ_self _

section Head

variable (hcalm : ∀ tracer, hook = some tracer → tracer.NeverAborts)
  (hhead : L.code.Spells .forIter L.exit L.head 0 L.prefixes)
include hcalm hhead

/-- The head of a loop executes its prefixes, and then its instruction in a frame that has the
operands still. -/
theorem AtHead.exists_step_eq (h : L.AtHead i m) :
    (∃ vm s g, vm.store = m.vm.store ∧ g.code = L.code ∧ g.pc = L.body ∧ g.pending = 0 ∧
      g.stack = .range L.iterator :: L.rest ∧
      (Machine.step hook)^[L.units] m =
        Machine.proceed hook s L.callers (execute .forIter L.exit vm g)) ∧
    ∀ k < L.units, L.Active ((Machine.step hook)^[k] m) := by
  obtain ⟨⟨f, hphase, hcode, hpc, hpending, hstack⟩, -⟩ := h
  obtain ⟨⟨g, low, hphase', hcode', hpc', hstack', hfetch, harg, hstore⟩, hall⟩ :=
    Machine.exists_iterate_of_spells hcalm hhead hphase hcode hpc hpending
  obtain ⟨s, g', hg', hstep⟩ := Machine.exists_step_eq hcalm hphase' hfetch
  obtain ⟨hcode'', hpc'', hpending'', hstack'', -⟩ := Frame.of_untraced_eq hg'
  rw [harg] at hstep
  refine ⟨⟨((Machine.step hook)^[L.prefixes] m).vm.count, s, g', hstore, hcode''.trans hcode', ?_,
    hpending'', hstack''.trans (hstack'.trans hstack), ?_⟩, fun k hk => ?_⟩
  · have hnext : g'.pc = g.pc + 2 := hpc''
    rw [hnext, hpc', body, units]
    omega
  · rw [units, Function.iterate_succ_apply']
    exact hstep
  · obtain ⟨g, hg⟩ := hall k (Nat.le_of_lt_succ hk)
    rw [Active, hg]
    exact Nat.lt_succ_self _

/-- While integers are left, the head gives the next one to the body. -/
theorem AtHead.atBody (h : L.AtHead i m) (hi : i < L.stop) :
    L.AtBody i ((Machine.step hook)^[L.units] m) := by
  have hiterator := h.iterator
  obtain ⟨⟨vm, s, g, hstore, hcode, hpc, hpending, hstack, hstep⟩, -⟩ :=
    h.exists_step_eq hcalm hhead
  rw [← hstore] at hiterator
  have hpull : (vm.store.range L.iterator).pull = some (i, ⟨i + 1, L.stop⟩) := by
    rw [Store.range_of_getElem? hiterator]
    exact if_pos hi
  have hexecute : execute .forIter L.exit vm g =
      .next { vm with store := vm.store.setRange L.iterator ⟨i + 1, L.stop⟩ }
        (g.push (.int i)) := by
    simp only [execute, hstack, hpull]
  rw [hstep, hexecute]
  refine ⟨⟨g.push (.int i), rfl, hcode, hpc, hpending, congrArg _ hstack⟩, ?_⟩
  have hlt : L.iterator.index < vm.store.ranges.size := (Array.getElem?_eq_some_iff.mp hiterator).1
  exact Array.getElem?_setIfInBounds_self_of_lt hlt

/-- Once no integers are left, the head drops the iterator and goes on behind the exit. -/
theorem AtHead.atExit (h : L.AtHead i m) (hi : ¬i < L.stop) :
    L.AtExit i ((Machine.step hook)^[L.units] m) := by
  have hiterator := h.iterator
  obtain ⟨⟨vm, s, g, hstore, hcode, hpc, hpending, hstack, hstep⟩, -⟩ :=
    h.exists_step_eq hcalm hhead
  rw [← hstore] at hiterator
  have hpull : (vm.store.range L.iterator).pull = none := by
    rw [Store.range_of_getElem? hiterator]
    exact if_neg hi
  have hexecute : execute .forIter L.exit vm g =
      .jump vm { g with stack := L.rest } L.exit.toNat := by
    simp only [execute, hstack, hpull]
  rw [hstep, hexecute]
  exact ⟨⟨{ g with stack := L.rest, pc := L.exit.toNat * 2 }, rfl, hcode, Nat.mul_comm _ 2,
    hpending, rfl⟩, hiterator⟩

theorem AtHead.activeFor (h : L.AtHead i m) : L.ActiveFor hook L.units m := by
  intro k hk
  rcases Nat.lt_or_eq_of_le hk with hlt | rfl
  · exact (h.exists_step_eq hcalm hhead).2 k hlt
  · by_cases hi : i < L.stop
    · exact (h.atBody hcalm hhead hi).active
    · exact (h.atExit hcalm hhead hi).active

end Head

theorem iterate_later (k n : Nat) :
    (Machine.step hook)^[k + n] m = (Machine.step hook)^[n] ((Machine.step hook)^[k] m) := by
  rw [Nat.add_comm, Function.iterate_add_apply]

theorem ActiveFor.add {k n : Nat} (h : L.ActiveFor hook k m)
    (h' : L.ActiveFor hook n ((Machine.step hook)^[k] m)) : L.ActiveFor hook (k + n) m := by
  intro t ht
  rcases Nat.le_total t k with hle | hge
  · exact h t hle
  · obtain ⟨d, rfl⟩ := Nat.exists_eq_add_of_le hge
    rw [iterate_later]
    exact h' d (by omega)

/-! ### Rounds -/

variable (L) in
/-- The number of integers from `a` up to the stop of the loop. -/
def rounds (a : Int64) : Nat := (L.stop.toInt - a.toInt).toNat

variable (L) in
/-- The moments at which the loop is at its head, where the body for the integer `i` that begins
after the moment `t` takes `n i t` steps. -/
def moments (a : Int64) (n : Int64 → Nat → Nat) : Nat → Nat
  | 0 => 0
  | j + 1 => moments a n j + L.units + n (Range.above a j) (moments a n j)

theorem toInt_above_of_le {a : Int64} {j : Nat} (hj : j ≤ L.rounds a) :
    (Range.above a j).toInt = a.toInt + j := by
  cases j with
  | zero => simp
  | succ j =>
    refine Range.toInt_above (b := L.stop) ?_
    rw [rounds] at hj
    omega

theorem above_lt_stop {a : Int64} {j : Nat} (hj : j < L.rounds a) : Range.above a j < L.stop := by
  rw [Int64.lt_iff_toInt_lt, toInt_above_of_le (Nat.le_of_lt hj)]
  rw [rounds] at hj
  omega

theorem not_above_lt_stop (a : Int64) : ¬Range.above a (L.rounds a) < L.stop := by
  rw [Int64.lt_iff_toInt_lt, toInt_above_of_le (Nat.le_refl _), rounds]
  omega

/-- A body takes at least one step, for it begins with an operand more than the head. -/
theorem ComesBack.pos {n : Nat} (h : L.ComesBack hook i n m) (hbegins : L.AtBody i m) :
    0 < n := by
  refine Nat.pos_of_ne_zero ?_
  rintro rfl
  obtain ⟨f, hphase, -, -, -, hstack⟩ := hbegins.frame
  obtain ⟨g, hphase', -, -, -, hstack'⟩ := h.head.frame
  rw [Function.iterate_zero_apply, hphase] at hphase'
  cases hphase'
  rw [hstack] at hstack'
  have hlength := congrArg List.length hstack'
  simp at hlength

/-- The loop is at its head at all moments up to the last round; by induction on the rounds, each of
which is one of the head and one of the body. -/
theorem reaches_moments (hcalm : ∀ tracer, hook = some tracer → tracer.NeverAborts)
    (hhead : L.code.Spells .forIter L.exit L.head 0 L.prefixes) {a : Int64} (hstart : L.AtHead a m)
    {n : Int64 → Nat → Nat} (hbody : ∀ i t, L.Reaches hook m a i t → i < L.stop →
      L.ComesBack hook i (n i t) ((Machine.step hook)^[t + L.units] m))
    {j : Nat} (hj : j ≤ L.rounds a) :
    L.Reaches hook m a (Range.above a j) (L.moments a n j) ∧
      L.AtHead (Range.above a j) ((Machine.step hook)^[L.moments a n j] m) ∧
      L.ActiveFor hook (L.moments a n j) m := by
  induction j with
  | zero =>
    rw [Range.above_zero]
    refine ⟨.first, hstart, fun k hk => ?_⟩
    rw [Nat.le_zero.mp hk]
    exact hstart.active
  | succ j ih =>
    obtain ⟨hreaches, hat, hactive⟩ := ih (Nat.le_of_succ_le hj)
    have hlt := above_lt_stop hj
    have hback := hbody _ _ hreaches hlt
    rw [← Range.above_succ]
    refine ⟨.round hreaches hlt hback, ?_, ?_⟩
    · rw [moments, iterate_later]
      exact hback.head
    · refine (hactive.add (hat.activeFor hcalm hhead)).add ?_
      exact hback.active

end Loop

/-- From `m` on the run goes through the loop: it runs the body for each integer from `a` up to the
stop, once and in order, and goes on behind the exit. -/
structure Loop.RunsThrough {σ : Type} (L : Loop) (hook : Option (Tracer σ)) (m : Machine σ)
    (a : Int64) (moments : Nat → Nat) : Prop where
  zero : moments 0 = 0
  atHead : ∀ j ≤ L.rounds a, L.AtHead (Range.above a j) ((Machine.step hook)^[moments j] m)
  atBody : ∀ j < L.rounds a,
    L.AtBody (Range.above a j) ((Machine.step hook)^[moments j + L.units] m)
  later : ∀ j < L.rounds a, moments j + L.units < moments (j + 1)
  atExit : L.AtExit (Range.above a (L.rounds a))
    ((Machine.step hook)^[moments (L.rounds a) + L.units] m)
  active : L.ActiveFor hook (moments (L.rounds a) + L.units) m
  /-- Nothing but the head pulls from the iterator. -/
  pulled : m.pulled hook L.iterator (moments (L.rounds a) + L.units) =
    (List.range (L.rounds a)).map (Range.above a)
  /-- No integer overflows. -/
  toInt_eq : ∀ j ≤ L.rounds a, (Range.above a j).toInt = a.toInt + j
  exhausted : ∀ t,
    ((Machine.step hook)^[moments (L.rounds a) + L.units + t] m).vm.store.ranges[
        L.iterator.index]? = some ⟨Range.above a (L.rounds a), L.stop⟩ ∧
      ((Machine.step hook)^[moments (L.rounds a) + L.units] m).pulled hook L.iterator t = []

theorem Loop.Reaches.atHead {σ : Type} {L : Loop} {hook : Option (Tracer σ)} {m : Machine σ}
    {a i : Int64} {t : Nat} (h : L.Reaches hook m a i t) (hstart : L.AtHead a m) :
    L.AtHead i ((Machine.step hook)^[t] m) := by
  cases h with
  | first => exact hstart
  | round _ _ hback =>
    rw [Loop.iterate_later]
    exact hback.head

/-- The law of the loop over a range, at its head with an iterator at `a`: if the loop comes back to
its head from the beginning of its body, wherever the rounds so far lead while integers are left,
the run goes through the loop. -/
theorem forLoop_runs_each_integer {σ : Type} {hook : Option (Tracer σ)} {L : Loop} {m : Machine σ}
    {a : Int64} (hcalm : ∀ tracer, hook = some tracer → tracer.NeverAborts)
    (hhead : L.code.Spells .forIter L.exit L.head 0 L.prefixes) (hstart : L.AtHead a m)
    (hbody : ∀ i t, L.Reaches hook m a i t → i < L.stop →
      ∃ n, L.ComesBack hook i n ((Machine.step hook)^[t + L.units] m)) :
    ∃ moments, L.RunsThrough hook m a moments := by
  -- How long each round takes is the body's choice, and the moments add these up.
  choose! n hback using hbody
  have hmoments := fun j hj => Loop.reaches_moments hcalm hhead hstart hback (j := j) hj
  have hbegins : ∀ j < L.rounds a, L.AtBody (Range.above a j)
      ((Machine.step hook)^[L.moments a n j + L.units] m) := by
    intro j hj
    rw [Loop.iterate_later]
    exact (hmoments j (Nat.le_of_lt hj)).2.1.atBody hcalm hhead (Loop.above_lt_stop hj)
  obtain ⟨-, hlast, hactive⟩ := hmoments (L.rounds a) (Nat.le_refl _)
  have hexit := hlast.atExit hcalm hhead (Loop.not_above_lt_stop a)
  rw [← Loop.iterate_later] at hexit
  refine ⟨L.moments a n, rfl, fun j hj => (hmoments j hj).2.1, hbegins, fun j hj => ?_, hexit,
    hactive.add (hlast.activeFor hcalm hhead), ?_, fun j hj => Loop.toInt_above_of_le hj,
    fun t => ?_⟩
  · have hpos := (hback _ _ (hmoments j (Nat.le_of_lt hj)).1 (Loop.above_lt_stop hj)).pos
      (hbegins j hj)
    rw [Loop.moments]
    omega
  · rw [Machine.pulled_eq hstart.iterator hexit.iterator, Loop.toInt_above_of_le (Nat.le_refl _)]
    have hcount : (a.toInt + L.rounds a - a.toInt).toNat = L.rounds a := by omega
    rw [hcount]
  · rw [Loop.iterate_later]
    exact Machine.exhausted_iterate t hexit.iterator (if_neg (Loop.not_above_lt_stop a))

/-- A machine with an iterator that has two integers left, the last ones that there are, and with a
function that drops them one by one. -/
def drainingVm : Vm where
  store.functions :=
    #[⟨"drain", 0, #[], #[], #[.range ⟨0⟩], #[2, 0, 21, 0, 17, 5, 1, 0, 15, 1, 19, 0], [⟨0, 1⟩]⟩]
  store.ranges := #[⟨9223372036854775805, 9223372036854775807⟩]

def drainingLoop : Loop where
  code := drainingVm.store.code ⟨0⟩
  head := 2
  prefixes := 1
  exit := 5
  iterator := ⟨0⟩
  stop := 9223372036854775807
  rest := []
  callers := []

/-- The body drops the integer and jumps back, from whatever state it begins in. -/
theorem comesBack_drainingLoop {i : Int64} {m : Machine Unit} (h : drainingLoop.AtBody i m) :
    drainingLoop.ComesBack none i 2 m := by
  obtain ⟨⟨f, hphase, hcode, hpc, hpending, hstack⟩, hiterator⟩ := id h
  have hf : f = { f with
      code := drainingLoop.code, pc := 6, pending := 0, stack := [.int i, .range ⟨0⟩] } := by
    obtain ⟨⟩ := f
    dsimp only at hcode hpc hpending hstack
    subst hcode hpc hpending hstack
    rfl
  have hdropped : m.step none = ⟨m.vm.count, m.tracer, .running { f with
      code := drainingLoop.code, pc := 8, lasti := 6, pending := 0, stack := [.range ⟨0⟩] }
      drainingLoop.callers⟩ := by
    rw [hf] at hphase
    obtain ⟨vm, s, phase⟩ := m
    subst hphase
    rfl
  have hjumped : (Machine.step none)^[2] m = ⟨m.vm.count.count, m.tracer, .running { f with
      code := drainingLoop.code, pc := (foldArg 0 1).toNat * 2, lasti := 8, pending := 0,
      stack := [.range ⟨0⟩] } drainingLoop.callers⟩ := by
    rw [Function.iterate_succ_apply', Function.iterate_one, hdropped]
    rfl
  have hback : drainingLoop.AtHead (i + 1) ((Machine.step none)^[2] m) := by
    have hpc : (foldArg 0 1).toNat * 2 = 2 := by decide
    rw [hjumped, hpc]
    exact ⟨⟨_, rfl, rfl, rfl, rfl, rfl⟩, hiterator⟩
  refine ⟨hback, fun k hk => ?_⟩
  obtain rfl | rfl | rfl : k = 0 ∨ k = 1 ∨ k = 2 := by omega
  · exact h.active
  · rw [Function.iterate_one, hdropped]
    exact Nat.lt_succ_self 0
  · exact hback.active

/-- The loop takes the last two integers and never goes beyond. -/
theorem forLoop_runs_each_integer_draining :
    let m := drainingVm.stepped none () (.run ⟨0⟩) 1
    let a : Int64 := 9223372036854775805
    drainingLoop.code.Spells .forIter drainingLoop.exit drainingLoop.head 0 drainingLoop.prefixes ∧
      drainingLoop.AtHead a m ∧ drainingLoop.rounds a = 2 ∧
      ∃ moments, drainingLoop.RunsThrough none m a moments := by
  intro m a
  have hcalm : ∀ tracer, (none : Option (Tracer Unit)) = some tracer → tracer.NeverAborts :=
    fun _ h => by cases h
  have hprefix : drainingLoop.code.Has drainingLoop.head .extendedArg 0 := ⟨by decide, by decide⟩
  have hiter : drainingLoop.code.Has (drainingLoop.head + 2) .forIter 5 := ⟨by decide, by decide⟩
  have hhead : drainingLoop.code.Spells .forIter drainingLoop.exit drainingLoop.head 0
      drainingLoop.prefixes := .more hprefix (.last hiter (by decide))
  have hstart : drainingLoop.AtHead a m := ⟨⟨_, rfl, rfl, rfl, rfl, rfl⟩, by decide⟩
  refine ⟨hhead, hstart, by decide, forLoop_runs_each_integer hcalm hhead hstart ?_⟩
  intro i t hreaches hi
  have hbegins := (hreaches.atHead hstart).atBody hcalm hhead hi
  rw [← Loop.iterate_later] at hbegins
  exact ⟨2, comesBack_drainingLoop hbegins⟩

end Wordcode
