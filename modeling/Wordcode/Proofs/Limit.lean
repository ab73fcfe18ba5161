import Wordcode.Proofs.Recording

/-! The recursion limit.  It cuts runs off and changes nothing else: a run that does not call one
function too many goes the same under every greater limit, and a run that does ends, unless the hook
gives up first, with the one fault that says so. -/

namespace Wordcode

open Trace

/-! ### Calls while all frames are active -/

/-- The next step calls a function with as many arguments as it takes while as many frames are
active as the limit allows. -/
def Machine.Overruns {σ : Type} (hook : Option (Tracer σ)) (m : Machine σ) : Prop :=
  ∃ callee args code, m.call? hook = some (callee, args) ∧ m.vm.Calls callee args code ∧
    m.phase.frames.length = m.vm.limit

/-- The same of the call that an operation begins with, or of one of its first `n` steps. -/
def Vm.OverrunsWithin {σ : Type} (hook : Option (Tracer σ)) (vm : Vm) (s : σ) (request : Request)
    (n : Nat) : Prop :=
  (∃ callee args code, vm.call? request = some (callee, args) ∧ vm.Calls callee args code ∧
    vm.limit = 0) ∨
  ∃ k < n, (vm.stepped hook s request k).Overruns hook

def Log.Event.isRefusal : Log.Event → Bool
  | .recursionLimitHit .. => true
  | _ => false

/-- The events in the log that say that the limit was hit. -/
def Vm.refusals (vm : Vm) : List Log.Event := vm.log.toList.filter Log.Event.isRefusal

/-- The run ended with the fault that says that the recursion limit was reached. -/
def Ending.CutOff : Ending → Prop
  | finished result => Wordcode.CutOff result
  | aborted => False

/-- The same machine with another limit. -/
def Vm.withLimit (vm : Vm) (limit : Nat) : Vm := { vm with limit }

theorem Vm.Calls.unique {vm : Vm} {callee : Value} {args : List Value} {code code' : Code}
    (h : vm.Calls callee args code) (h' : vm.Calls callee args code') : code = code' := by
  obtain ⟨id, rfl, rfl, -⟩ := h
  obtain ⟨id', hid, rfl, -⟩ := h'
  cases hid
  rfl

theorem Vm.refusals_eq {vm vm' : Vm} (h : vm'.log = vm.log) : vm'.refusals = vm.refusals := by
  rw [refusals, h, refusals]

theorem Vm.refusals_record {vm : Vm} {e : Log.Event} :
    (vm.record e).refusals = vm.refusals ++ if e.isRefusal then [e] else [] := by
  simp only [refusals, record, Array.toList_push, List.filter_append]
  cases h : e.isRefusal <;> simp [h]

/-! ### Moves within the limit, and after it was reached -/

/-- No call that has just ended was cut off. -/
def Phase.Unharmed : Phase → Prop
  | running .. => True
  | giving result _ => ¬CutOff result
  | unwinding _ => True

/-- A call of the function was cut off, and the frames are left one by one. -/
def Phase.FailingFor (function : String) : Phase → Prop
  | running .. => False
  | giving result _ => result = .error (.recursionLimit function)
  | unwinding _ => True

/-- Nothing was cut off since the machine was `past`. -/
structure Vm.Unharmed (past vm : Vm) (phase : Phase) : Prop where
  phase : phase.Unharmed
  refusals : vm.refusals = past.refusals

/-- One call, of the function, was cut off since the machine was `past`. -/
structure Vm.FailingFor (function : String) (past vm : Vm) (phase : Phase) : Prop where
  phase : phase.FailingFor function
  refusals : vm.refusals = past.refusals ++ [.recursionLimitHit past.limit function]

section Calls

variable {past vm vm' : Vm} {callee : Value} {args : List Value} {callers : List Frame}
  {phase' : Phase} (h : Called vm callee args callers vm' phase')
include h

theorem Called.frames_le (hdepth : vm.depth = callers.length) (hle : callers.length ≤ vm.limit) :
    phase'.frames.length ≤ vm.limit := by
  cases h with
  | entered _ hroom | givenUp _ hroom =>
    rw [hdepth] at hroom
    exact hroom
  | refused | answered => exact hle

theorem Called.unharmed (hlog : vm.refusals = past.refusals)
    (hroom : ∀ code, vm.Calls callee args code → vm.depth < vm.limit) :
    past.Unharmed vm' phase' := by
  cases h with
  | entered | givenUp =>
    exact ⟨trivial, (Vm.refusals_record.trans (List.append_nil _)).trans hlog⟩
  | refused hcalls hfull => exact absurd (hroom _ hcalls) (Nat.not_lt.mpr hfull)
  | answered _ hresult hbooks => exact ⟨hresult, (Vm.refusals_eq hbooks.log).trans hlog⟩

theorem Called.failing {code : Code} (hlog : vm.refusals = past.refusals)
    (hlimit : vm.limit = past.limit) (hcalls : vm.Calls callee args code)
    (hfull : vm.limit ≤ vm.depth) : past.FailingFor code.name vm' phase' := by
  cases h with
  | entered _ hroom | givenUp _ hroom => exact absurd hroom (Nat.not_lt.mpr hfull)
  | refused hcalls' =>
    obtain rfl := hcalls.unique hcalls'
    exact ⟨rfl, by rw [Vm.refusals_record, hlog, hlimit]; rfl⟩
  | answered hcalls' => exact absurd hcalls (hcalls' code)

/-- Other calls are not cut off. -/
theorem Called.answer (hcalls : ∀ code, ¬vm.Calls callee args code) :
    (∃ result, ¬CutOff result ∧ phase' = .giving result callers) ∧ vm'.log = vm.log := by
  cases h with
  | entered hcalls' | givenUp hcalls' | refused hcalls' => exact absurd hcalls' (hcalls _)
  | answered _ hresult hbooks => exact ⟨⟨_, hresult, rfl⟩, hbooks.log⟩

end Calls

section Moves

variable {past vm vm' : Vm} {phase phase' : Phase} {call? : Option (Value × List Value)}

theorem Move.frames_le (h : Move vm phase call? vm' phase')
    (hdepth : vm.depth = phase.frames.length) (hle : phase.frames.length ≤ vm.limit) :
    phase'.frames.length ≤ vm.limit := by
  cases h with
  | ended | resumed | went => exact hle
  | passedOn | unwound | left => exact Nat.le_of_succ_le hle
  | gaveUp hframes =>
    rw [hframes] at hle
    exact hle
  | called h => exact h.frames_le hdepth hle

theorem Move.unharmed (h : Move vm phase call? vm' phase') (hu : past.Unharmed vm phase)
    (hroom : ∀ callee args code, call? = some (callee, args) → vm.Calls callee args code →
      vm.depth < vm.limit) : past.Unharmed vm' phase' := by
  cases h with
  | ended | passedOn => exact ⟨hu.phase, hu.refusals⟩
  | resumed | unwound => exact ⟨trivial, hu.refusals⟩
  | went hbooks | gaveUp _ hbooks =>
    exact ⟨trivial, (Vm.refusals_eq hbooks.log).trans hu.refusals⟩
  | left hresult hbooks => exact ⟨hresult, (Vm.refusals_eq hbooks.log).trans hu.refusals⟩
  | called h => exact h.unharmed hu.refusals fun code => hroom _ _ code rfl

theorem Move.failing {function : String} (h : Move vm phase call? vm' phase')
    (hf : past.FailingFor function vm phase) : past.FailingFor function vm' phase' := by
  obtain ⟨hphase, hlog⟩ := hf
  cases h with
  | ended | passedOn => exact ⟨hphase, hlog⟩
  | unwound => exact ⟨trivial, hlog⟩
  | resumed => cases hphase
  | went | called | left => exact hphase.elim
  | gaveUp _ hbooks => exact ⟨trivial, (Vm.refusals_eq hbooks.log).trans hlog⟩

theorem Move.of_call {callee : Value} {args : List Value}
    (h : Move vm phase (some (callee, args)) vm' phase') :
    ∃ callers, Called vm.count callee args callers vm' phase' := by
  cases h with
  | called h => exact ⟨_, h⟩

end Moves

/-! ### Runs within the limit -/

namespace Vm

variable {σ : Type} (hook : Option (Tracer σ)) {vm : Vm} (hdepth : vm.depth = 0) (s : σ)
  (request : Request)

theorem refusals_setUp : (vm.setUp hook).refusals = vm.refusals := by
  cases hook with
  | none => rfl
  | some tracer => exact refusals_record.trans (List.append_nil _)

theorem refusals_tearDown : (vm.tearDown hook).refusals = vm.refusals := by
  cases hook with
  | none => rfl
  | some tracer => exact refusals_record.trans (List.append_nil _)

theorem overrunsWithin_succ_iff {n : Nat} :
    vm.OverrunsWithin hook s request (n + 1) ↔
      vm.OverrunsWithin hook s request n ∨ (vm.stepped hook s request n).Overruns hook := by
  constructor
  · rintro (h | ⟨k, hk, h⟩)
    · exact Or.inl (Or.inl h)
    · obtain hk | rfl := Nat.lt_succ_iff_lt_or_eq.mp hk
      · exact Or.inl (Or.inr ⟨k, hk, h⟩)
      · exact Or.inr h
  · rintro ((h | ⟨k, hk, h⟩) | h)
    · exact Or.inl h
    · exact Or.inr ⟨k, Nat.lt_succ_of_lt hk, h⟩
    · exact Or.inr ⟨n, Nat.lt_succ_self n, h⟩

include hdepth

/-- No more frames are ever active than the limit allows. -/
theorem length_frames_le (n : Nat) :
    (vm.stepped hook s request n).phase.frames.length ≤ vm.limit := by
  induction n with
  | zero =>
    rw [← limit_setUp hook]
    obtain ⟨callee, args, -, h⟩ | ⟨-, -, e, -, hphase⟩ :=
      called_start hook (vm.setUp hook) s request
    · exact h.frames_le ((depth_setUp hook).trans hdepth) (Nat.zero_le _)
    · rw [stepped, Function.iterate_zero_apply, hphase]
      exact Nat.zero_le _
  | succ n ih =>
    obtain ⟨hbalance, hlimit, -⟩ := balances_stepped hook hdepth s request n
    rw [← limit_setUp hook, ← hlimit] at ih ⊢
    rw [stepped_succ]
    exact (Machine.move_step hook _).frames_le hbalance ih

theorem unharmed_or_failing_start :
    let m := vm.stepped hook s request 0
    ¬vm.OverrunsWithin hook s request 0 ∧ vm.Unharmed m.vm m.phase ∨
      vm.OverrunsWithin hook s request 0 ∧ ∃ function, vm.FailingFor function m.vm m.phase := by
  intro m
  have hnone : ¬∃ k < 0, (vm.stepped hook s request k).Overruns hook := by
    rintro ⟨k, hk, -⟩
    exact Nat.not_lt_zero k hk
  have hlog : (vm.setUp hook).refusals = vm.refusals := refusals_setUp hook
  obtain ⟨callee, args, hcall, h⟩ | ⟨hcall, hvm, e, he, hphase⟩ :=
    called_start hook (vm.setUp hook) s request
  · rw [call?_setUp] at hcall
    have hlimit : (vm.setUp hook).limit = vm.limit := limit_setUp hook
    have hdepth : (vm.setUp hook).depth = 0 := (depth_setUp hook).trans hdepth
    by_cases hover : ∃ code, vm.Calls callee args code ∧ vm.limit = 0
    · obtain ⟨code, hcalls, hzero⟩ := hover
      refine Or.inr ⟨Or.inl ⟨callee, args, code, hcall, hcalls, hzero⟩, code.name, ?_⟩
      exact h.failing hlog hlimit ((calls_setUp hook).mpr hcalls) (by omega)
    · refine Or.inl ⟨?_, h.unharmed hlog fun code hcalls => ?_⟩
      · rintro (⟨callee', args', code, hcall', hcalls, hzero⟩ | h)
        · cases hcall.symm.trans hcall'
          exact hover ⟨code, hcalls, hzero⟩
        · exact hnone h
      · have hne : vm.limit ≠ 0 := fun hzero => hover ⟨code, (calls_setUp hook).mp hcalls, hzero⟩
        omega
  · rw [call?_setUp] at hcall
    refine Or.inl ⟨?_, ?_⟩
    · rintro (⟨callee', args', code, hcall', -⟩ | h)
      · cases hcall.symm.trans hcall'
      · exact hnone h
    · show vm.Unharmed ((vm.setUp hook).start hook s request).vm
        ((vm.setUp hook).start hook s request).phase
      rw [hvm, hphase]
      exact ⟨he, hlog⟩

/-- A run that has not called one function too many is unharmed; one that has is failing, and has
logged this once. -/
theorem unharmed_or_failing (n : Nat) :
    let m := vm.stepped hook s request n
    ¬vm.OverrunsWithin hook s request n ∧ vm.Unharmed m.vm m.phase ∨
      vm.OverrunsWithin hook s request n ∧ ∃ function, vm.FailingFor function m.vm m.phase := by
  intro m
  induction n with
  | zero => exact unharmed_or_failing_start hook hdepth s request
  | succ n ih =>
    obtain ⟨hbalance, hlimit, -⟩ := balances_stepped hook hdepth s request n
    rw [limit_setUp] at hlimit
    have hle := length_frames_le hook hdepth s request n
    have hmove := Machine.move_step hook (vm.stepped hook s request n)
    rw [overrunsWithin_succ_iff, show m = _ from stepped_succ hook vm s request n]
    -- An unharmed run stays so while there is room for what it calls; a failing one calls nothing
    -- more, since no frame goes on.
    obtain ⟨hfree, hunharmed⟩ | ⟨hover, function, hfailing⟩ := ih
    · by_cases hover : (vm.stepped hook s request n).Overruns hook
      · obtain ⟨callee, args, code, hcall, hcalls, hfull⟩ := id hover
        rw [Machine.MovedFrom, hcall] at hmove
        obtain ⟨callers, h⟩ := hmove.of_call
        refine Or.inr ⟨Or.inr hover, code.name, ?_⟩
        exact h.failing hunharmed.refusals hlimit hcalls
          (Nat.le_of_eq (hfull.symm.trans hbalance.symm))
      · refine Or.inl ⟨fun h => h.elim hfree hover, ?_⟩
        refine hmove.unharmed hunharmed fun callee args code hcall hcalls => ?_
        have hne : ¬_ = _ := fun hfull => hover ⟨callee, args, code, hcall, hcalls, hfull⟩
        omega
    · exact Or.inr ⟨Or.inl hover, function, hmove.failing hfailing⟩

omit hdepth in
theorem overlooked_withLimit (limit : Nat) : Overlooked fun vm => vm.withLimit limit where
  store _ := rfl
  depth _ := rfl
  lookup _ _ := rfl
  execute := execute_map (fun _ _ => rfl) Frame.unseen_id
  call := Builtin.call_map fun _ _ => rfl
  count _ := rfl
  record _ _ := rfl
  pushFrame _ _ := rfl
  popFrame _ := rfl

/-- As long as no function too many is called, the machine takes the same steps under every greater
limit. -/
theorem stepped_withLimit {limit' : Nat} (hle : vm.limit ≤ limit') {n : Nat}
    (hfree : ¬vm.OverrunsWithin hook s request n) :
    (vm.withLimit limit').stepped hook s request n =
      (vm.stepped hook s request n).map (fun vm => vm.withLimit limit') id := by
  have hφ := overlooked_withLimit limit'
  induction n with
  | zero =>
    have hsetUp : (vm.withLimit limit').setUp hook = (vm.setUp hook).withLimit limit' := by
      cases hook <;> rfl
    rw [stepped, hsetUp]
    refine start_map hφ (.refl hook) s fun callee args hcall code hcalls => Or.inr ?_
    rw [call?_setUp] at hcall
    have hne : ¬vm.limit = 0 := fun hzero =>
      hfree (Or.inl ⟨callee, args, code, hcall, (calls_setUp hook).mp hcalls, hzero⟩)
    have hlimit : (vm.setUp hook).limit = vm.limit := limit_setUp hook
    have hdepth' : (vm.setUp hook).depth = 0 := (depth_setUp hook).trans hdepth
    exact ⟨by omega, by show _ < limit'; omega⟩
  | succ n ih =>
    rw [overrunsWithin_succ_iff, not_or] at hfree
    obtain ⟨hbalance, hlimit, -⟩ := balances_stepped hook hdepth s request n
    rw [limit_setUp] at hlimit
    have hframes := length_frames_le hook hdepth s request n
    -- A function that is called finds fewer frames active than the smaller limit allows, so there
    -- is room for it on both sides.
    rw [stepped_succ, stepped_succ, ih hfree.1]
    refine Machine.step_map hφ (.refl hook) fun e he => ?_
    cases e with
    | call vm' g callee args =>
      intro code hcalls
      obtain rfl := Machine.vm_of_effect? he
      have hcall : (vm.stepped hook s request n).call? hook = some (callee, args) := by
        rw [Machine.call?, he]
        rfl
      have hne : ¬_ = _ := fun hfull => hfree.2 ⟨callee, args, code, hcall, hcalls, hfull⟩
      refine Or.inr ⟨?_, ?_⟩
      · show (vm.stepped hook s request n).vm.depth < (vm.stepped hook s request n).vm.limit
        omega
      · show (vm.stepped hook s request n).vm.depth < limit'
        omega
    | _ => trivial

end Vm

/-! ### The end of a run that was cut off -/

namespace Machine

variable {σ : Type} (hook : Option (Tracer σ)) (vm : Vm) (s : σ)

theorem exists_ending_unwinding (frames : List Frame) :
    ∃ n ending, ((step hook)^[n] ⟨vm, s, .unwinding frames⟩).phase.ending? = some ending := by
  induction frames generalizing vm with
  | nil => exact ⟨0, .aborted, rfl⟩
  | cons f callers ih =>
    obtain ⟨n, ending, h⟩ := ih vm.popFrame
    exact ⟨n + 1, ending, h⟩

/-- A fault is passed from frame to frame until none is left, or the hook gives up. -/
theorem exists_ending_giving (e : Fault) (frames : List Frame) :
    ∃ n ending, ((step hook)^[n] ⟨vm, s, .giving (.error e) frames⟩).phase.ending? =
      some ending := by
  induction frames generalizing vm s with
  | nil => exact ⟨0, .finished (.error e), rfl⟩
  | cons f callers ih =>
    obtain ⟨s', h⟩ | ⟨s', f', h⟩ := leave_cases hook vm s f (.error e) callers
    · obtain ⟨n, ending, hending⟩ := ih vm.popFrame s'
      refine ⟨n + 1, ending, ?_⟩
      rw [Function.iterate_succ_apply, step, h]
      exact hending
    · obtain ⟨n, ending, hending⟩ := exists_ending_unwinding hook vm s' (f' :: callers)
      refine ⟨n + 1, ending, ?_⟩
      rw [Function.iterate_succ_apply, step, h]
      exact hending

theorem exists_ending_of_failing {m : Machine σ} {function : String}
    (h : m.phase.FailingFor function) :
    ∃ n ending, ((step hook)^[n] m).phase.ending? = some ending := by
  obtain ⟨vm, s, phase⟩ := m
  cases phase with
  | running f callers => exact h.elim
  | giving result frames =>
    obtain rfl := h
    exact exists_ending_giving hook vm s _ frames
  | unwinding frames => exact exists_ending_unwinding hook vm s frames

end Machine

/-! ### The limit cuts runs off and changes nothing else -/

namespace Vm

variable {σ : Type} {hook : Option (Tracer σ)} {vm : Vm} (hdepth : vm.depth = 0) {s : σ}
  {request : Request} {fuel : Nat} {r : Run σ}

theorem ending_ne_aborted (hcalm : ∀ tracer, hook = some tracer → tracer.NeverAborts)
    (h : vm.operate hook s request fuel = some r) : r.ending ≠ .aborted := by
  have hfinished : ∃ result, r.ending = .finished result := by
    cases hook with
    | some tracer => exact vm.exists_finished_of_trace (hcalm tracer rfl) s request h
    | none =>
      have hending := (stepped_of_operate h).1
      have hsame : (id vm).setUp (none : Option (Tracer Unit)) =
          id (vm.setUp (none : Option (Tracer σ))) := rfl
      have hmap := stepped_map overlooked_id (fun _ => rfl) (.none (ψ := fun _ => ())) hsame s
        request fuel
      have hphase := congrArg Machine.phase hmap
      have hsteady := (vm.steady_start request).iterate_step fuel
      exact hsteady.exists_finished ((congrArg Phase.ending? hphase).trans hending)
  obtain ⟨result, hresult⟩ := hfinished
  rw [hresult]
  exact Ending.noConfusion

include hdepth

/-- A run that has ended was cut off if it has called one function too many, unless the hook has
given up, and has logged this once. -/
theorem ending_of_operate (h : vm.operate hook s request fuel = some r) :
    ¬vm.OverrunsWithin hook s request fuel ∧ ¬r.ending.CutOff ∧ r.vm.refusals = vm.refusals ∨
      vm.OverrunsWithin hook s request fuel ∧ ∃ function,
        (r.ending = .finished (.error (.recursionLimit function)) ∨ r.ending = .aborted) ∧
        r.vm.refusals = vm.refusals ++ [.recursionLimitHit vm.limit function] := by
  obtain ⟨hending, hvm, -⟩ := stepped_of_operate h
  rw [hvm, refusals_tearDown]
  have hrun := unharmed_or_failing hook hdepth s request fuel
  dsimp only at hrun
  generalize vm.stepped hook s request fuel = m at hrun hending ⊢
  obtain ⟨hfree, hunharmed, hlog⟩ | ⟨hover, function, hfailing, hlog⟩ := hrun
  · refine Or.inl ⟨hfree, ?_, hlog⟩
    obtain ⟨result, hphase, hr⟩ | ⟨-, hr⟩ := Phase.cases_of_ending? hending
    · rw [hphase] at hunharmed
      rw [hr]
      exact hunharmed
    · rw [hr]
      exact id
  · refine Or.inr ⟨hover, function, ?_, hlog⟩
    obtain ⟨result, hphase, hr⟩ | ⟨-, hr⟩ := Phase.cases_of_ending? hending
    · rw [hphase] at hfailing
      exact Or.inl (hr.trans (congrArg Ending.finished hfailing))
    · exact Or.inr hr

/-- The hook that keeps a list of what it was shown calls as many functions too many as the hook. -/
theorem overrunsWithin_recording {n : Nat} :
    vm.OverrunsWithin (hook.map Tracer.recording) (s, []) request n ↔
      vm.OverrunsWithin hook s request n := by
  have hlog := congrArg (fun m => m.vm.refusals) (stepped_recording hook vm s request [] n)
  dsimp only [Machine.map, id_eq] at hlog
  obtain ⟨hfree, -, href⟩ | ⟨hover, function, -, href⟩ :=
    unharmed_or_failing hook hdepth s request n <;>
  obtain ⟨hfree', -, href'⟩ | ⟨hover', function', -, href'⟩ :=
    unharmed_or_failing (hook.map Tracer.recording) hdepth (s, []) request n
  · exact iff_of_false hfree' hfree
  · rw [← hlog, href] at href'
    exact absurd (List.self_eq_append_right.mp href') (List.cons_ne_nil _ _)
  · rw [← hlog, href] at href'
    exact absurd (List.append_right_eq_self.mp href') (List.cons_ne_nil _ _)
  · exact iff_of_true hover' hover

/-- A run that has not called one function too many goes the same under every greater limit, and
its hook is shown the same. -/
theorem operate_withLimit {limit' : Nat} (hle : vm.limit ≤ limit')
    (hfree : ¬vm.OverrunsWithin hook s request fuel)
    (h : vm.operate hook s request fuel = some r) :
    (vm.withLimit limit').operate hook s request fuel =
        some { r with vm := r.vm.withLimit limit' } ∧
      (vm.withLimit limit').shown hook s request fuel = vm.shown hook s request fuel := by
  constructor
  · obtain ⟨hending, hvm, htracer⟩ := stepped_of_operate h
    rw [operate_eq, stepped_withLimit _ hdepth _ _ hle hfree]
    dsimp only [Machine.map]
    rw [hending, Option.map_some]
    have htearDown : ∀ vm : Vm, (vm.withLimit limit').tearDown hook =
        (vm.tearDown hook).withLimit limit' := fun _ => by cases hook <;> rfl
    rw [htearDown, ← hvm, id_eq, ← htracer]
  · rw [← overrunsWithin_recording hdepth] at hfree
    rw [shown, stepped_withLimit _ hdepth _ _ hle hfree]
    rfl

end Vm

/-- The recursion limit only cuts runs off.  No more frames are ever active than it allows.  A run
that ends otherwise than with the fault that says that the limit was reached ends in the same way
under every greater limit, with the same machine but for the limit, and its hook is shown the same.
A run ends with that fault exactly if it calls a function, with as many arguments as it takes, while
as many frames are active as the limit allows, and the hook does not give up then; with such a call
the log says once that the limit was hit, and without one never.  Other calls are never cut off. -/
theorem limit_only_cuts {σ : Type} {vm : Vm} (hdepth : vm.depth = 0) {limit' : Nat}
    (hle : vm.limit ≤ limit') (hook : Option (Tracer σ)) (s : σ) (request : Request) :
    (∀ n, (vm.stepped hook s request n).phase.frames.length ≤ vm.limit) ∧
    (∀ fuel r, vm.operate hook s request fuel = some r → ¬r.ending.CutOff →
      (r.ending = .aborted → ¬vm.OverrunsWithin hook s request fuel) →
        (vm.withLimit limit').operate hook s request fuel =
          some { r with vm := r.vm.withLimit limit' } ∧
        (vm.withLimit limit').shown hook s request fuel = vm.shown hook s request fuel) ∧
    (∀ fuel r, vm.operate hook s request fuel = some r →
      (r.ending.CutOff ↔ vm.OverrunsWithin hook s request fuel ∧ r.ending ≠ .aborted) ∧
      (vm.OverrunsWithin hook s request fuel → ∃ function,
        (r.ending = .finished (.error (.recursionLimit function)) ∨ r.ending = .aborted) ∧
        r.vm.refusals = vm.refusals ++ [.recursionLimitHit vm.limit function]) ∧
      (¬vm.OverrunsWithin hook s request fuel → r.vm.refusals = vm.refusals)) ∧
    ((∀ tracer, hook = some tracer → tracer.NeverAborts) → ∀ fuel r,
      vm.operate hook s request fuel = some r → r.ending ≠ .aborted) ∧
    (∀ n, vm.OverrunsWithin hook s request n → ∃ fuel r,
      vm.operate hook s request fuel = some r) ∧
    (∀ callee args, vm.call? request = some (callee, args) →
      (∀ code, ¬vm.Calls callee args code) →
        let m := vm.stepped hook s request 0
        (∃ result, ¬CutOff result ∧ m.phase = .giving result []) ∧ m.vm.refusals = vm.refusals) ∧
    ∀ n callee args,
      let m := vm.stepped hook s request n
      m.call? hook = some (callee, args) → (∀ code, ¬m.vm.Calls callee args code) →
        (∃ result callers, ¬CutOff result ∧ (m.step hook).phase = .giving result callers) ∧
        (m.step hook).vm.refusals = m.vm.refusals := by
  refine ⟨Vm.length_frames_le hook hdepth s request, ?_, ?_, ?_, ?_, ?_, ?_⟩
  · intro fuel r hr hcutOff haborted
    refine Vm.operate_withLimit hdepth hle ?_ hr
    obtain ⟨hfree, -⟩ | ⟨hover, function, hending | hending, -⟩ := Vm.ending_of_operate hdepth hr
    · exact hfree
    · rw [hending] at hcutOff
      exact absurd ⟨_, rfl, rfl⟩ hcutOff
    · exact haborted hending
  · intro fuel r hr
    obtain ⟨hfree, hcutOff, hlog⟩ | ⟨hover, function, hending, hlog⟩ :=
      Vm.ending_of_operate hdepth hr
    · exact ⟨iff_of_false hcutOff fun h => hfree h.1, fun h => absurd h hfree, fun _ => hlog⟩
    · refine ⟨?_, fun _ => ⟨function, hending, hlog⟩, fun h => absurd hover h⟩
      obtain hending | hending := hending <;> rw [hending]
      · exact iff_of_true ⟨_, rfl, rfl⟩ ⟨hover, Ending.noConfusion⟩
      · exact iff_of_false id fun h => h.2 rfl
  · intro hcalm fuel r hr
    exact Vm.ending_ne_aborted hcalm hr
  · intro n hover
    obtain ⟨hfree, -⟩ | ⟨-, function, hfailing, -⟩ :=
      Vm.unharmed_or_failing hook hdepth s request n
    · exact absurd hover hfree
    · obtain ⟨k, ending, hending⟩ := Machine.exists_ending_of_failing hook hfailing
      rw [Vm.stepped, ← Function.iterate_add_apply] at hending
      exact ⟨k + n, _, (Vm.operate_eq ..).trans (congrArg (Option.map _) hending)⟩
  · intro callee args hcall hcalls m
    obtain ⟨callee', args', hcall', h⟩ | ⟨hcall', -⟩ := (vm.setUp hook).called_start hook s request
    · rw [Vm.call?_setUp, hcall] at hcall'
      cases hcall'
      obtain ⟨hanswer, hlog⟩ := h.answer fun code h => hcalls code ((Vm.calls_setUp hook).mp h)
      exact ⟨hanswer, (Vm.refusals_eq hlog).trans (Vm.refusals_setUp hook)⟩
    · rw [Vm.call?_setUp, hcall] at hcall'
      cases hcall'
  · intro n callee args m hcall hcalls
    have hmove := Machine.move_step hook m
    rw [Machine.MovedFrom, hcall] at hmove
    obtain ⟨callers, h⟩ := hmove.of_call
    obtain ⟨⟨result, hresult, hphase⟩, hlog⟩ := h.answer hcalls
    exact ⟨⟨result, callers, hresult, hphase⟩, Vm.refusals_eq hlog⟩

theorem limit_only_cuts_nested :
    ∃ r, (nestedVm.withLimit 1).operate none () (.run ⟨0⟩) 6 = some r ∧
      r.ending = .finished (.error (.recursionLimit "inner")) ∧
      (nestedVm.withLimit 1).OverrunsWithin none () (.run ⟨0⟩) 6 := by
  have hrun : ((nestedVm.withLimit 1).operate none () (.run ⟨0⟩) 6).map Run.ending =
      some (.finished (.error (.recursionLimit "inner"))) := rfl
  obtain ⟨r, hr, hending⟩ := Option.map_eq_some_iff.mp hrun
  have hcutOff : r.ending.CutOff := by
    rw [hending]
    exact ⟨_, rfl, rfl⟩
  have hdepth : (nestedVm.withLimit 1).depth = 0 := rfl
  have hle : (nestedVm.withLimit 1).limit ≤ 2 := Nat.le_succ 1
  have h := (limit_only_cuts hdepth hle none () (.run ⟨0⟩)).2.2.1 6 r hr
  exact ⟨r, hr, hending, (h.1.mp hcutOff).1⟩

end Wordcode
