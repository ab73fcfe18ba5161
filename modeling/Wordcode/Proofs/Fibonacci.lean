import Mathlib.Data.Nat.Fib.Basic
import Mathlib.Tactic.NormNum.NatFib
import Wordcode.Proofs.Loading
import Wordcode.Workload.Fib

/-! The recursive function on the machine against the recursion that it is written after, for every
argument and every recursion limit.  A call makes its first call with the argument one less, so the
first descent decides which fault comes, if one does. -/

namespace Wordcode

open Machine

/-! ### The code -/

def fibCode : Code where
  name := "fib"
  argcount := 1
  varnames := #["n"]
  names := #["fib"]
  consts := #[.int 1, .int 2]
  bytes := #[3, 0, 2, 0, 12, 2, 14, 8, 3, 0, 2, 1, 12, 2, 13, 10, 2, 0, 19, 0,
    5, 0, 3, 0, 2, 0, 8, 0, 18, 1, 5, 0, 3, 0, 2, 1, 8, 0, 18, 1, 7, 0, 19, 0]
  lines := [⟨0, 2⟩, ⟨16, 3⟩, ⟨20, 4⟩]

set_option maxRecDepth 2000 in
theorem code_fib : Program.fib.code = .ok fibCode := by
  have hassemble : assemble "fib" Program.fibCommands = .ok (Draft.toCode _ #[8, 10] _) :=
    assemble_of_small rfl (by with_unfolding_all rfl) (by with_unfolding_all rfl)
      (by with_unfolding_all rfl) (by decide +kernel)
  exact hassemble.trans (by with_unfolding_all rfl)

/-! ### Integers -/

theorem int64?_toInt (n : Int64) : int64? n.toInt = some n := by
  have hmin := n.le_toInt
  have hmax := n.toInt_lt
  rw [int64?, if_pos (by omega), Int64.ofInt_toInt]

theorem int64?_eq_none {k : Int} (h : k < -9223372036854775808 ∨ 9223372036854775807 < k) :
    int64? k = none := if_neg (by omega)

namespace Value

variable {a b c : Int64}

theorem subtract_of_toInt (h : c.toInt = a.toInt - b.toInt) :
    (Value.int a).subtract (.int b) = .ok (.int c) := by
  simp only [subtract, ← h, int64?_toInt]

theorem subtract_of_lt (h : a.toInt - b.toInt < -9223372036854775808) :
    (Value.int a).subtract (.int b) = .error .subtractionOverflow := by
  simp only [subtract, int64?_eq_none (Or.inl h)]

theorem add_of_toInt (h : c.toInt = a.toInt + b.toInt) :
    (Value.int a).add (.int b) = .ok (.int c) := by
  simp only [add, ← h, int64?_toInt]

theorem add_of_gt (h : 9223372036854775807 < a.toInt + b.toInt) :
    (Value.int a).add (.int b) = .error .additionOverflow := by
  simp only [add, int64?_eq_none (Or.inr h)]

end Value

namespace Fibonacci

/-! ### The body -/

/-- The name that the function calls itself by is bound to the function `id`, which is the one. -/
structure Knows (vm : Vm) (id : FunctionId) : Prop where
  global : vm.global? "fib" = some (.function id)
  code : vm.store.code id = fibCode

/-- A frame of the function with the argument `n`. -/
def frame (n : Int64) (pc : Nat) (stack : List Value) (lasti : Nat) : Frame :=
  fibCode.frame pc #[some (.int n)] stack lasti

section Body

variable {vm : Vm} {callers : List Frame} {n : Int64} {lasti : Nat} {stack : List Value}
  {id : FunctionId}

theorem leads_test (vm : Vm) (callers : List Frame) (n : Int64) (lasti : Nat) :
    ∃ last, Leads ⟨vm, (), .running (frame n 0 [] lasti) callers⟩
      ⟨vm, (), .running (frame n (if n = 1 ∨ n = 2 then 16 else 20) [] last) callers⟩ := by
  have hcompare : ∀ k : Int64, Value.compare .eq (.int n) (.int k) = .ok (decide (n = k)) := by
    intro k
    rw [Value.compare, Except.ok.injEq, Bool.eq_iff_iff]
    simp
  have hone : Goes ⟨vm, (), .running (frame n 0 [] lasti) callers⟩ _ _ :=
    (goes_loadFast ⟨rfl, rfl⟩ rfl).trans ((goes_loadConst ⟨rfl, rfl⟩ rfl).trans
      ((goes_compareOp ⟨rfl, rfl⟩ rfl (hcompare 1)).trans (goes_popJumpIfTrue ⟨rfl, rfl⟩)))
  have htwo : Goes ⟨vm, (), .running (frame n 8 [] 6) callers⟩ _ _ :=
    (goes_loadFast ⟨rfl, rfl⟩ rfl).trans ((goes_loadConst ⟨rfl, rfl⟩ rfl).trans
      ((goes_compareOp ⟨rfl, rfl⟩ rfl (hcompare 2)).trans (goes_popJumpIfFalse ⟨rfl, rfl⟩)))
  simp only [Store.truthy, decide_eq_true_eq] at hone htwo
  by_cases h1 : n = 1
  · rw [if_pos h1] at hone
    rw [if_pos (Or.inl h1)]
    exact ⟨6, hone.leads⟩
  · rw [if_neg h1] at hone
    have hboth := hone.leads.trans htwo.leads
    simp only [h1, false_or]
    exact ⟨14, hboth⟩

theorem leads_one : Leads ⟨vm, (), .running (frame n 16 [] lasti) callers⟩
    ⟨vm.popFrame, (), .giving (.ok (.int 1)) callers⟩ :=
  ((goes_loadConst ⟨rfl, rfl⟩ rfl).trans (goes_returnValue ⟨rfl, rfl⟩)).leads

/-- The instructions of a recursive call, the first at byte 20 and the second at byte 30. -/
theorem leads_call {pc : Nat} {d m : Int64} (hknows : Knows vm id)
    (hpc : pc = 20 ∧ d = 1 ∨ pc = 30 ∧ d = 2) (hm : m.toInt = n.toInt - d.toInt) :
    Leads ⟨vm, (), .running (frame n pc stack lasti) callers⟩
      (enter none vm () fibCode [.int m] (frame n (pc + 10) stack (pc + 8) :: callers)) := by
  have hcall : ∀ low : UInt8, fibCode.consts[low.toNat]? = some (.int d) →
      fibCode.Has pc .loadGlobal 0 → fibCode.Has (pc + 2) .loadFast 0 →
      fibCode.Has (pc + 4) .loadConst low → fibCode.Has (pc + 6) .binarySubtract 0 →
      fibCode.Has (pc + 8) .callFunction 1 →
      Leads ⟨vm, (), .running (frame n pc stack lasti) callers⟩
        (enter none vm () fibCode [.int m] (frame n (pc + 10) stack (pc + 8) :: callers)) := by
    intro low hconst hglobal hfast hload hsubtract hcallFunction
    have hlookup : vm.lookup "fib" = .ok (.function id) := by
      simp only [Vm.lookup, hknows.global]
    have hinvoke : invoke none vm () (.function id) [.int m]
        (frame n (pc + 10) stack (pc + 8) :: callers) = enter none vm () fibCode [.int m] _ :=
      congrArg (enter none vm () · _ _) hknows.code
    rw [← hinvoke]
    exact ((goes_loadGlobal hglobal rfl hlookup).trans ((goes_loadFast hfast rfl).trans
      ((goes_loadConst hload hconst).trans
        ((goes_binarySubtract hsubtract (Value.subtract_of_toInt hm)).trans
          (goes_callFunction hcallFunction rfl))))).leads
  obtain ⟨rfl, rfl⟩ | ⟨rfl, rfl⟩ := hpc
  · exact hcall 0 rfl ⟨rfl, rfl⟩ ⟨rfl, rfl⟩ ⟨rfl, rfl⟩ ⟨rfl, rfl⟩ ⟨rfl, rfl⟩
  · exact hcall 1 rfl ⟨rfl, rfl⟩ ⟨rfl, rfl⟩ ⟨rfl, rfl⟩ ⟨rfl, rfl⟩ ⟨rfl, rfl⟩

/-- The least argument of all has none below it to call with. -/
theorem leads_overflow (hknows : Knows vm id) (h : n.toInt - 1 < -9223372036854775808) :
    Leads ⟨vm, (), .running (frame n 20 stack lasti) callers⟩
      ⟨vm.popFrame, (), .giving (.error .subtractionOverflow) callers⟩ := by
  have hlookup : vm.lookup "fib" = .ok (.function id) := by
    simp only [Vm.lookup, hknows.global]
  have hsubtract : (Value.int n).subtract (.int 1) = .error .subtractionOverflow :=
    Value.subtract_of_lt h
  exact ((goes_loadGlobal ⟨rfl, rfl⟩ rfl hlookup).trans ((goes_loadFast ⟨rfl, rfl⟩ rfl).trans
    ((goes_loadConst ⟨rfl, rfl⟩ rfl).trans
      (goes_binarySubtract ⟨rfl, rfl⟩ hsubtract)))).leads

theorem leads_sum {a b : Value} {v : Value} (h : a.add b = .ok v) :
    Leads ⟨vm, (), .running (frame n 40 [b, a] lasti) callers⟩
      ⟨vm.popFrame, (), .giving (.ok v) callers⟩ :=
  ((goes_binaryAdd ⟨rfl, rfl⟩ h).trans (goes_returnValue ⟨rfl, rfl⟩)).leads

theorem leads_sum_overflow {a b : Value} {e : Fault} (h : a.add b = .error e) :
    Leads ⟨vm, (), .running (frame n 40 [b, a] lasti) callers⟩
      ⟨vm.popFrame, (), .giving (.error e) callers⟩ :=
  (goes_binaryAdd ⟨rfl, rfl⟩ h).leads

end Body

/-! ### Calls -/

/-- Called with `n` where `room` more frames may be active, the function `id` comes to `result` and
leaves nothing else behind. -/
def Answers (id : FunctionId) (room : Nat) (n : Int64) (result : Except Fault Value) : Prop :=
  ∀ (vm : Vm) (callers : List Frame), Knows vm id → vm.limit = vm.depth + room →
    Leads (enter none vm () fibCode [.int n] callers) ⟨vm, (), .giving result callers⟩

section Calls

variable {id : FunctionId} {room : Nat} {n m k : Int64} {result : Except Fault Value}

theorem answers_zero : Answers id 0 n (.error (.recursionLimit "fib")) := by
  intro vm callers _ hroom
  rw [enter_of_limit_le rfl (Nat.le_of_eq hroom)]
  exact (Goes.of_alike alike_record).leads

/-- What the body comes to in its frame, with one frame less to go, is what the call comes to. -/
theorem answers_of_body
    (h : ∀ (vm : Vm) (callers : List Frame), Knows vm id → vm.limit = vm.depth + room →
      Leads ⟨vm, (), .running (frame n 0 [] 0) callers⟩
        ⟨vm.popFrame, (), .giving result callers⟩) : Answers id (room + 1) n result := by
  intro vm callers hknows hroom
  rw [enter_eq_running rfl (by omega)]
  have hbody := h (vm.pushFrame "fib") callers ⟨hknows.global, hknows.code⟩
    (by rw [Vm.pushFrame]; exact hroom.trans (by simp [Vm.record]; omega))
  exact hbody.trans (Goes.of_alike alike_popFrame_pushFrame).leads

theorem answers_one (hn : n = 1 ∨ n = 2) : Answers id (room + 1) n (.ok (.int 1)) := by
  refine answers_of_body fun vm callers _ _ => ?_
  obtain ⟨last, htest⟩ := leads_test vm callers n 0
  rw [if_pos hn] at htest
  exact htest.trans leads_one

theorem answers_least (hn : n.toInt - 1 < -9223372036854775808) :
    Answers id (room + 1) n (.error .subtractionOverflow) := by
  refine answers_of_body fun vm callers hknows _ => ?_
  obtain ⟨last, htest⟩ := leads_test vm callers n 0
  rw [if_neg (by rintro (rfl | rfl) <;> exact absurd hn (by decide))] at htest
  exact htest.trans (leads_overflow hknows hn)

/-- The first call is made with the argument one less, and its fault is passed on. -/
theorem Answers.passedOn {e : Fault} (h : Answers id room m (.error e)) (hn : ¬(n = 1 ∨ n = 2))
    (hm : m.toInt = n.toInt - 1) : Answers id (room + 1) n (.error e) := by
  refine answers_of_body fun vm callers hknows hroom => ?_
  obtain ⟨last, htest⟩ := leads_test vm callers n 0
  rw [if_neg hn] at htest
  have hcall : Leads ⟨vm, (), .running (frame n 20 [] last) callers⟩ _ :=
    leads_call hknows (Or.inl ⟨rfl, rfl⟩) hm
  exact htest.trans (hcall.trans ((h vm _ hknows hroom).trans goes_passedOn.leads))

/-- Two calls, with the arguments one and two less, and the sum of what they come to. -/
theorem Answers.sum {a b : Value} (ha : Answers id room m (.ok a)) (hb : Answers id room k (.ok b))
    (hn : ¬(n = 1 ∨ n = 2)) (hm : m.toInt = n.toInt - 1) (hk : k.toInt = n.toInt - 2) :
    Answers id (room + 1) n (a.add b) := by
  refine answers_of_body fun vm callers hknows hroom => ?_
  obtain ⟨last, htest⟩ := leads_test vm callers n 0
  rw [if_neg hn] at htest
  have hfirst : Leads ⟨vm, (), .running (frame n 20 [] last) callers⟩
      ⟨vm, (), .running (frame n 30 [a] 28) callers⟩ :=
    (leads_call hknows (Or.inl ⟨rfl, rfl⟩) hm).trans
      ((ha vm _ hknows hroom).trans goes_given.leads)
  have hsecond : Leads ⟨vm, (), .running (frame n 30 [a] 28) callers⟩
      ⟨vm, (), .running (frame n 40 [b, a] 38) callers⟩ :=
    (leads_call hknows (Or.inr ⟨rfl, rfl⟩) hk).trans
      ((hb vm _ hknows hroom).trans goes_given.leads)
  refine htest.trans (hfirst.trans (hsecond.trans ?_))
  cases hsum : a.add b with
  | ok v => exact leads_sum hsum
  | error e => exact leads_sum_overflow hsum

end Calls

/-! ### Every argument -/

theorem fib_eq (k : Nat) : Workload.fib k = Nat.fib k := by
  induction k using Workload.fib.induct with
  | case1 | case2 | case3 => rfl
  | case4 k ih₁ ih₂ =>
    rw [Workload.fib, ih₁, ih₂, Nat.fib_add_two (n := k + 1), Nat.add_comm]

theorem toInt_ofNat_fib {k : Nat} (h : k ≤ 92) :
    (Int64.ofNat (Workload.fib k)).toInt = Workload.fib k := by
  have hlast : Nat.fib 92 = 7540113804746346429 := by norm_num
  have hle := Nat.fib_mono h
  rw [fib_eq]
  exact Int64.toInt_ofNat_of_lt (by omega)

theorem exists_toInt {k : Int} (hmin : -9223372036854775808 ≤ k) (hmax : k ≤ 9223372036854775807) :
    ∃ n : Int64, n.toInt = k :=
  ⟨Int64.ofInt k, Int64.toInt_ofInt_of_le hmin (by omega)⟩

section Answers

variable {id : FunctionId}

theorem ne_of_toInt {n : Int64} (h : n.toInt ≤ 0 ∨ 3 ≤ n.toInt) : ¬(n = 1 ∨ n = 2) := by
  rintro (rfl | rfl) <;> exact absurd h (by decide)

theorem answers_fib {k : Nat} (hpos : 1 ≤ k) (hle : k ≤ 92) {room : Nat} (hroom : 1 ≤ room)
    (hdeep : k ≤ room + 1) {n : Int64} (hn : n.toInt = k) :
    Answers id room n (.ok (.int (Int64.ofNat (Workload.fib k)))) := by
  obtain ⟨room, rfl⟩ := Nat.exists_eq_add_of_le' hroom
  induction k using Workload.fib.induct generalizing room n with
  | case1 => cases hpos
  | case2 => exact answers_one (Or.inl (Int64.toInt_inj.mp hn))
  | case3 => exact answers_one (Or.inr (Int64.toInt_inj.mp hn))
  | case4 k ih₁ ih₂ =>
    obtain ⟨m₁, hm₁⟩ := exists_toInt (k := n.toInt - 1) (by omega) (by omega)
    obtain ⟨m₂, hm₂⟩ := exists_toInt (k := n.toInt - 2) (by omega) (by omega)
    obtain ⟨room, rfl⟩ := Nat.exists_eq_add_of_le' (show 1 ≤ room by omega)
    have h₁ := ih₁ (by omega) (by omega) (n := m₁) (by omega) room (by omega) (by omega)
    have h₂ := ih₂ (by omega) (by omega) (n := m₂) (by omega) room (by omega) (by omega)
    have hsum := h₁.sum h₂ (ne_of_toInt (by omega)) hm₁ hm₂
    rw [Value.add_of_toInt (c := Int64.ofNat (Workload.fib (k + 3)))] at hsum
    · exact hsum
    · rw [toInt_ofNat_fib hle, toInt_ofNat_fib (by omega), toInt_ofNat_fib (by omega),
        Workload.fib, Nat.cast_add]

theorem answers_additionOverflow (j : Nat) {room : Nat} (hroom : j + 92 ≤ room) {n : Int64}
    (hn : n.toInt = j + 93) : Answers id room n (.error .additionOverflow) := by
  have hmax := n.toInt_lt
  obtain ⟨room, rfl⟩ := Nat.exists_eq_add_of_le' (show 1 ≤ room by omega)
  obtain ⟨m₁, hm₁⟩ := exists_toInt (k := n.toInt - 1) (by omega) (by omega)
  induction j generalizing room n m₁ with
  | zero =>
    obtain ⟨m₂, hm₂⟩ := exists_toInt (k := n.toInt - 2) (by omega) (by omega)
    have h₁ : Answers id room m₁ _ := answers_fib (k := 92) (by omega) (by omega) (by omega)
      (by omega) (by omega)
    have h₂ : Answers id room m₂ _ := answers_fib (k := 91) (by omega) (by omega) (by omega)
      (by omega) (by omega)
    have hsum := h₁.sum h₂ (ne_of_toInt (by omega)) hm₁ hm₂
    rw [Value.add_of_gt] at hsum
    · exact hsum
    · rw [toInt_ofNat_fib (by omega), toInt_ofNat_fib (by omega), fib_eq, fib_eq]
      norm_num
  | succ j ih =>
    obtain ⟨m₂, hm₂⟩ := exists_toInt (k := m₁.toInt - 1) (by omega) (by omega)
    obtain ⟨room, rfl⟩ := Nat.exists_eq_add_of_le' (show 1 ≤ room by omega)
    have h₁ := ih (n := m₁) (by omega) (by omega) room (by omega) m₂ hm₂
    exact h₁.passedOn (ne_of_toInt (by omega)) hm₁

theorem answers_recursionLimit {room : Nat} {n : Int64} (hn : room + 1 < n.toInt) :
    Answers id room n (.error (.recursionLimit "fib")) := by
  induction room generalizing n with
  | zero => exact answers_zero
  | succ room ih =>
    have hmax := n.toInt_lt
    obtain ⟨m, hm⟩ := exists_toInt (k := n.toInt - 1) (by omega) (by omega)
    exact (ih (n := m) (by omega)).passedOn (ne_of_toInt (by omega)) hm

theorem answers_subtractionOverflow (j : Nat) {room : Nat} (hroom : j + 1 ≤ room) {n : Int64}
    (hn : n.toInt = j - 9223372036854775808) (hle : n.toInt ≤ 0) :
    Answers id room n (.error .subtractionOverflow) := by
  induction j generalizing room n with
  | zero =>
    obtain ⟨room, rfl⟩ := Nat.exists_eq_add_of_le' hroom
    exact answers_least (by omega)
  | succ j ih =>
    obtain ⟨room, rfl⟩ := Nat.exists_eq_add_of_le' (show 1 ≤ room by omega)
    obtain ⟨m, hm⟩ := exists_toInt (k := n.toInt - 1) (by omega) (by omega)
    exact (ih (n := m) (by omega) (by omega) (by omega)).passedOn
      (ne_of_toInt (by omega)) hm

theorem answers_recursionLimit_of_nonpos {room : Nat} {n : Int64}
    (hn : (room : Int) ≤ n.toInt + 9223372036854775808) (hle : n.toInt ≤ 0) :
    Answers id room n (.error (.recursionLimit "fib")) := by
  induction room generalizing n with
  | zero => exact answers_zero
  | succ room ih =>
    obtain ⟨m, hm⟩ := exists_toInt (k := n.toInt - 1) (by omega) (by omega)
    exact (ih (n := m) (by omega) (by omega)).passedOn (ne_of_toInt (by omega)) hm

end Answers

/-- What the function is to come to for the argument `n` where at most `limit` frames may be active:
the Fibonacci number while it and the descent fit, and otherwise the fault that the first descent
comes to first. -/
structure Expected (limit : Nat) (n : Int64) (result : Except Fault Value) : Prop where
  value : 1 ≤ n.toInt → n.toInt ≤ 92 → max 1 (n.toInt - 1) ≤ limit →
    ∃ v : Int64, result = .ok (.int v) ∧ v.toInt = Workload.fib n.toInt.toNat
  addition : 93 ≤ n.toInt → n.toInt - 1 ≤ limit → result = .error .additionOverflow
  tooDeep : 3 ≤ n.toInt → limit < n.toInt - 1 → result = .error (.recursionLimit "fib")
  subtraction : n.toInt ≤ 0 → n.toInt - (-2 ^ 63) + 1 ≤ limit →
    result = .error .subtractionOverflow
  bottomless : n.toInt ≤ 0 → limit < n.toInt - (-2 ^ 63) + 1 →
    result = .error (.recursionLimit "fib")

theorem exists_answers (id : FunctionId) {limit : Nat} (hlimit : 1 ≤ limit) (n : Int64) :
    ∃ result, Answers id limit n result ∧ Expected limit n result := by
  have hmin := n.le_toInt
  rcases Int.lt_or_le 0 n.toInt with hpos | hnonpos
  · obtain ⟨k, hk⟩ := Int.eq_ofNat_of_zero_le (Int.le_of_lt hpos)
    by_cases hdeep : limit + 1 < n.toInt
    · refine ⟨_, answers_recursionLimit hdeep, ?_⟩
      constructor <;> intros <;> first | rfl | omega
    · rcases Nat.lt_or_ge 92 k with hlarge | hsmall
      · refine ⟨_, answers_additionOverflow (k - 93) (by omega) (by omega), ?_⟩
        constructor <;> intros <;> first | rfl | omega
      · have hvalue : Answers id limit n _ :=
          answers_fib (by omega) hsmall hlimit (by omega) hk
        refine ⟨_, hvalue, ⟨fun _ _ _ => ⟨_, rfl, ?_⟩, ?_, ?_, ?_, ?_⟩⟩
        · rw [toInt_ofNat_fib hsmall, hk, Int.toNat_natCast]
        all_goals intros; omega
  · by_cases hroom : n.toInt - (-2 ^ 63) + 1 ≤ limit
    · refine ⟨_, answers_subtractionOverflow (n.toInt + 2 ^ 63).toNat (by omega) (by omega)
        hnonpos, ?_⟩
      constructor <;> intros <;> first | rfl | omega
    · refine ⟨_, answers_recursionLimit_of_nonpos (by omega) hnonpos, ?_⟩
      constructor <;> intros <;> first | rfl | omega

end Fibonacci

open Fibonacci

/-- The function on the machine against the recursion, for every argument and every recursion limit
that leaves room for one frame.  Loaded on a machine at rest and called, by its value or by its
name, it ends, and comes to what is expected of it. -/
theorem fib_meets_workload (vm : Vm) (hdepth : vm.depth = 0) (hlimit : 1 ≤ vm.limit) (n : Int64) :
    ∃ fuel fib vm', vm.loadProgram .fib fuel = some (.ok fib, vm') ∧
      ∀ request ∈ [Request.call fib [.int n], .callGlobal "fib" [.int n]],
        ∃ fuel r result, vm'.execute request fuel = some r ∧ r.ending = .finished result ∧
          Expected vm.limit n result := by
  obtain ⟨fuel, id, vm', hload, hloaded⟩ := vm.exists_loadProgram code_fib (by omega)
  have hknows : Knows vm' id := ⟨hloaded.global?_self, hloaded.code⟩
  have hroom : vm'.limit = vm'.depth + vm.limit := by
    rw [hloaded.limit, hloaded.depth, hdepth, Nat.zero_add]
  obtain ⟨result, hanswers, hexpected⟩ := exists_answers id hlimit n
  obtain ⟨ops, hgoes⟩ := hanswers vm' [] hknows hroom
  refine ⟨fuel, .function id, vm', hload, ?_⟩
  intro request hrequest
  rw [← hloaded.start_eq [.int n] request hrequest] at hgoes
  obtain ⟨fuel, r, hr, hending, -⟩ := Vm.execute_of_goes hgoes
  exact ⟨fuel, r, result, hr, hending, hexpected⟩

/-- The largest Fibonacci number that a value can be, with just enough frames for the descent. -/
theorem fib_meets_workload_largest :
    ∃ fuel fib vm' r, ({ limit := 91 } : Vm).loadProgram .fib fuel = some (.ok fib, vm') ∧
      vm'.execute (.call fib [.int 92]) fuel = some r ∧
      r.ending = .finished (.ok (.int 7540113804746346429)) := by
  obtain ⟨n, fib, vm', hload, hcalls⟩ :=
    fib_meets_workload { limit := 91 } rfl (by decide) 92
  obtain ⟨k, r, result, hr, hending, hexpected⟩ := hcalls _ (List.mem_cons_self ..)
  obtain ⟨v, rfl, hv⟩ := hexpected.value (by decide) (by decide) (by decide)
  have hfib : v = 7540113804746346429 := by
    rw [← Int64.toInt_inj, hv, fib_eq]
    exact congrArg Nat.cast (by norm_num : Nat.fib 92 = 7540113804746346429)
  refine ⟨max n k, fib, vm', r, Vm.loadProgram_of_le hload (Nat.le_max_left n k),
    Vm.execute_of_le hr (Nat.le_max_right n k), ?_⟩
  rw [hending, hfib]

end Wordcode
