import Wordcode.Proofs.Steps

/-! A trace hook that never gives up changes nothing but its own state: with what belongs to the
hook left out, the machine takes the same steps as without it. -/

namespace Wordcode

open Trace

/-- A tracer that answers every event by wanting more or no more of the frame, and never gives
up. -/
def Trace.Tracer.NeverAborts {σ : Type} (hook : Tracer σ) : Prop :=
  ∀ s view e, (hook.onEvent s view e).verdict ≠ .abort

/-! ### Leaving out what belongs to the hook -/

/-- The frame without what only the hook reads and changes. -/
def Frame.untraced (f : Frame) : Frame :=
  { f with lastLine := none, active := false, flags := {} }

/-- Frames that are the same untraced differ in nothing that executing reads. -/
theorem Frame.of_untraced_eq {f g : Frame} (h : g.untraced = f.untraced) :
    g.code = f.code ∧ g.pc = f.pc ∧ g.pending = f.pending ∧ g.stack = f.stack ∧
      g.locals = f.locals :=
  ⟨(congrArg code h :), (congrArg pc h :), (congrArg pending h :), (congrArg stack h :),
    (congrArg locals h :)⟩

/-- The phase with all its frames untraced. -/
def Phase.untraced : Phase → Phase
  | running f callers => running f.untraced (callers.map Frame.untraced)
  | giving result frames => giving result (frames.map Frame.untraced)
  | unwinding frames => unwinding (frames.map Frame.untraced)

/-- The machine without its hook. -/
def Machine.untraced {σ : Type} (m : Machine σ) : Machine Unit := ⟨m.vm, (), m.phase.untraced⟩

/-- The virtual machine without the mark that a hook is installed, and without the log, in which
that is noted. -/
def Vm.unhooked (vm : Vm) : Vm := { vm with tracing := false, log := #[] }

theorem Frame.unseen_untraced : Frame.Unseen Frame.untraced :=
  ⟨fun _ _ _ => rfl, fun f => .refl f.code, fun _ => rfl⟩

theorem Phase.ending?_untraced (phase : Phase) : phase.untraced.ending? = phase.ending? := by
  cases phase with
  | running f callers => rfl
  | giving result frames => cases frames <;> rfl
  | unwinding frames => cases frames <;> rfl

/-! ### Events -/

section Notify

variable {σ : Type} {hook : Tracer σ} (hcalm : hook.NeverAborts)

namespace Frame

theorem untraced_notifyLocal (s : σ) (vm : Vm) (f : Frame) (e : Trace.Event) :
    (f.notifyLocal hook s vm e).frame.untraced = f.untraced := by
  unfold notifyLocal
  dsimp only
  split <;> rfl

theorem untraced_notifyLine (s : σ) (vm : Vm) (f : Frame) :
    (f.notifyLine hook s vm).frame.untraced = f.untraced := by
  unfold notifyLine
  split
  · exact untraced_notifyLocal s vm { f with lastLine := some (f.code.lineAt f.lasti) } _
  · rfl

theorem untraced_notifyOpcode (s : σ) (vm : Vm) (f : Frame) :
    (f.notifyOpcode hook s vm).frame.untraced = f.untraced := by
  unfold notifyOpcode
  split
  · exact untraced_notifyLocal s vm f _
  · rfl

theorem untraced_notifyInstruction (s : σ) (vm : Vm) (f : Frame) :
    (f.notifyInstruction hook s vm).frame.untraced = f.untraced := by
  unfold notifyInstruction
  split
  · dsimp only
    split
    · rw [untraced_notifyOpcode, untraced_notifyLine]
    · exact untraced_notifyLine s vm f
  · rfl

include hcalm

theorem verdict_notify_ne (s : σ) (vm : Vm) (f : Frame) (e : Trace.Event) :
    (f.notify hook s vm e).verdict ≠ .abort :=
  hcalm s _ e

theorem verdict_notifyLocal_ne (s : σ) (vm : Vm) (f : Frame) (e : Trace.Event) :
    (f.notifyLocal hook s vm e).verdict ≠ .abort := by
  unfold notifyLocal
  dsimp only
  split <;> exact verdict_notify_ne hcalm s vm f e

theorem verdict_notifyInstruction_ne (s : σ) (vm : Vm) (f : Frame) :
    (f.notifyInstruction hook s vm).verdict ≠ .abort := by
  have hline : ∀ s (g : Frame), (g.notifyLine hook s vm).verdict ≠ .abort := by
    intro s g
    unfold notifyLine
    split
    · exact verdict_notifyLocal_ne hcalm s vm _ _
    · exact Verdict.noConfusion
  have hopcode : ∀ s (g : Frame), (g.notifyOpcode hook s vm).verdict ≠ .abort := by
    intro s g
    unfold notifyOpcode
    split
    · exact verdict_notifyLocal_ne hcalm s vm _ _
    · exact Verdict.noConfusion
  unfold notifyInstruction
  split
  · dsimp only
    split
    · exact hopcode _ _
    · exact hline s f
  · exact Verdict.noConfusion

end Frame

end Notify

/-! ### Steps -/

namespace Machine

variable {σ : Type} {hook : Tracer σ} (hcalm : hook.NeverAborts)
include hcalm

theorem untraced_begin (vm : Vm) (s : σ) (f : Frame) (callers : List Frame) :
    (begin (some hook) vm s f callers).untraced =
      begin none vm () f.untraced (callers.map Frame.untraced) := by
  unfold begin
  dsimp only
  split
  · rfl
  · rfl
  · rename_i habort
    exact absurd habort (Frame.verdict_notify_ne hcalm s vm f .call)

theorem untraced_enter (vm : Vm) (s : σ) (code : Code) (args : List Value)
    (callers : List Frame) :
    (enter (some hook) vm s code args callers).untraced =
      enter none vm () code args (callers.map Frame.untraced) := by
  by_cases hargs : args.length = code.argcount
  · rcases Nat.lt_or_ge vm.depth vm.limit with hlimit | hlimit
    · rw [enter_of_lt_limit hargs hlimit, enter_of_lt_limit hargs hlimit, untraced_begin hcalm]
      rfl
    · rw [enter_of_limit_le hargs hlimit, enter_of_limit_le hargs hlimit]
      rfl
  · rw [enter_of_length_ne hargs, enter_of_length_ne hargs]
    rfl

theorem untraced_invoke (vm : Vm) (s : σ) (callee : Value) (args : List Value)
    (callers : List Frame) :
    (invoke (some hook) vm s callee args callers).untraced =
      invoke none vm () callee args (callers.map Frame.untraced) := by
  cases callee with
  | function id => exact untraced_enter hcalm vm s _ args callers
  | _ => rfl

theorem untraced_leave (vm : Vm) (s : σ) (f : Frame) (result : Except Fault Value)
    (callers : List Frame) :
    (leave (some hook) vm s f result callers).untraced =
      leave none vm () f.untraced result (callers.map Frame.untraced) := by
  rw [leave_none]
  cases hactive : f.active with
  | false =>
    rw [leave_of_inactive hactive]
    rfl
  | true =>
    rw [leave_of_active hactive]
    dsimp only
    rw [if_neg (Frame.verdict_notify_ne hcalm s vm f (lastEvent result))]
    rfl

theorem untraced_proceed (s : σ) (callers : List Frame) (e : Effect) :
    (proceed (some hook) s callers e).untraced =
      proceed none () (callers.map Frame.untraced) (e.map id Frame.untraced) := by
  cases e with
  | next vm f => rfl
  | jump vm f target => rfl
  | call vm f callee args => exact untraced_invoke hcalm vm s callee args (f :: callers)
  | leave vm f result => exact untraced_leave hcalm vm s f result callers

theorem untraced_executeNext (vm : Vm) (s : σ) (f : Frame) (callers : List Frame) :
    (executeNext (some hook) vm s f callers).untraced =
      executeNext none vm () f.untraced (callers.map Frame.untraced) := by
  have hsame : f.untraced.fetch = f.fetch := rfl
  cases hfetch : f.fetch with
  | error e =>
    rw [executeNext_of_error hfetch, executeNext_of_error (hsame.trans hfetch),
      untraced_leave hcalm]
  | ok fetched =>
    obtain ⟨op, low⟩ := fetched
    rw [executeNext_some hfetch, executeNext_none (hsame.trans hfetch)]
    dsimp only
    rw [if_neg (Frame.verdict_notifyInstruction_ne hcalm s vm.count _), untraced_proceed hcalm,
      ← execute_map Vm.unseen_id Frame.unseen_untraced, Frame.untraced_notifyInstruction]
    rfl

/-- A step under a hook is a step without it, once what belongs to the hook is left out. -/
theorem untraced_step (m : Machine σ) :
    (m.step (some hook)).untraced = m.untraced.step none := by
  obtain ⟨vm, s, phase⟩ := m
  cases phase with
  | running f callers => exact untraced_executeNext hcalm vm s f callers
  | giving result frames =>
    cases frames with
    | nil => cases result <;> rfl
    | cons f callers =>
      cases result with
      | ok v => rfl
      | error e => exact untraced_leave hcalm vm s f (.error e) callers
  | unwinding frames => cases frames <;> rfl

theorem untraced_iterate_step (n : Nat) (m : Machine σ) :
    ((step (some hook))^[n] m).untraced = (step none)^[n] m.untraced :=
  Function.Semiconj.iterate_right (untraced_step hcalm) n m

end Machine

theorem Vm.untraced_start {σ : Type} {hook : Tracer σ} (hcalm : hook.NeverAborts) (vm : Vm) (s : σ)
    (request : Request) :
    (vm.start (some hook) s request).untraced = vm.start none () request := by
  cases request with
  | run id => exact Machine.untraced_enter hcalm vm s _ [] []
  | call callee args => exact Machine.untraced_invoke hcalm vm s callee args []
  | callGlobal name args =>
    rw [start, start]
    split
    · exact Machine.untraced_invoke hcalm vm s _ args []
    · rfl

/-! ### Runs without a hook -/

namespace Machine

/-- A machine whose frames are not left because a hook has given up. -/
def Steady {σ : Type} (m : Machine σ) : Prop := ∀ frames, m.phase ≠ .unwinding frames

theorem steady_enter (vm : Vm) (code : Code) (args : List Value) (callers : List Frame) :
    (enter none vm () code args callers).Steady := by
  unfold enter
  split
  · exact fun _ => Phase.noConfusion
  · split <;> exact fun _ => Phase.noConfusion

theorem steady_invoke (vm : Vm) (callee : Value) (args : List Value) (callers : List Frame) :
    (invoke none vm () callee args callers).Steady := by
  cases callee with
  | function id => exact steady_enter vm _ args callers
  | _ => exact fun _ => Phase.noConfusion

theorem steady_proceed (callers : List Frame) (e : Effect) :
    (proceed none () callers e).Steady := by
  cases e with
  | call vm f callee args => exact steady_invoke vm callee args (f :: callers)
  | _ => exact fun _ => Phase.noConfusion

theorem Steady.step {m : Machine Unit} (h : m.Steady) : (m.step none).Steady := by
  obtain ⟨vm, s, phase⟩ := m
  cases phase with
  | running f callers =>
    show (executeNext none vm () f callers).Steady
    cases hfetch : f.fetch with
    | error e =>
      rw [executeNext_of_error hfetch]
      exact fun _ => Phase.noConfusion
    | ok fetched =>
      rw [executeNext_none hfetch]
      exact steady_proceed callers _
  | giving result frames =>
    cases frames <;> cases result <;> exact fun _ => Phase.noConfusion
  | unwinding frames => exact absurd rfl (h frames)

theorem Steady.iterate_step {m : Machine Unit} (h : m.Steady) (n : Nat) :
    ((Machine.step none)^[n] m).Steady := by
  induction n with
  | zero => exact h
  | succ n ih =>
    rw [Function.iterate_succ_apply']
    exact ih.step

theorem Steady.exists_finished {m : Machine Unit} (h : m.Steady) {ending : Ending}
    (hending : m.phase.ending? = some ending) : ∃ result, ending = .finished result := by
  obtain ⟨vm, s, phase⟩ := m
  cases phase with
  | running f callers => cases hending
  | giving result frames =>
    cases frames with
    | nil => exact ⟨result, (Option.some.inj hending).symm⟩
    | cons f callers => cases hending
  | unwinding frames => exact absurd rfl (h frames)

end Machine

theorem Vm.steady_start (vm : Vm) (request : Request) : (vm.start none () request).Steady := by
  cases request with
  | run id => exact Machine.steady_enter vm _ [] []
  | call callee args => exact Machine.steady_invoke vm callee args []
  | callGlobal name args =>
    rw [start]
    split
    · exact Machine.steady_invoke vm _ args []
    · exact fun _ => Phase.noConfusion

/-! ### Traced and untraced runs -/

theorem Vm.onTopOf_installHook (vm : Vm) : vm.installHook.onTopOf vm.fresh = vm.installHook := by
  simp [onTopOf, fresh, installHook, record]

section Runs

variable {σ : Type} {hook : Tracer σ} (hcalm : hook.NeverAborts) (vm : Vm) (s : σ)
  (request : Request) (n : Nat)

/-- The machine after `n` steps without a hook, from a fresh virtual machine. -/
theorem Vm.iterate_start (past : Vm) (h : past.onTopOf vm.fresh = past) :
    (Machine.step none)^[n] (past.start none () request) =
      ((Machine.step none)^[n] (vm.fresh.start none () request)).mapVm past.onTopOf := by
  rw [← Machine.iterate_step_onTopOf, ← start_onTopOf, h]

include hcalm in
/-- After each number of steps the machine under the hook is the machine without it, but for what
belongs to the hook. -/
theorem Vm.lockstep :
    let traced := (Machine.step (some hook))^[n] (vm.installHook.start (some hook) s request)
    let plain := (Machine.step none)^[n] (vm.start none () request)
    traced.vm.unhooked = plain.vm.unhooked ∧ traced.phase.untraced = plain.phase := by
  intro traced plain
  have htraced : traced.untraced =
      ((Machine.step none)^[n] (vm.fresh.start none () request)).mapVm
        vm.installHook.onTopOf := by
    rw [← vm.iterate_start request n vm.installHook vm.onTopOf_installHook,
      ← untraced_start hcalm vm.installHook s request]
    exact Machine.untraced_iterate_step hcalm n _
  have hplain : plain =
      ((Machine.step none)^[n] (vm.fresh.start none () request)).mapVm vm.onTopOf :=
    vm.iterate_start request n vm vm.onTopOf_fresh
  have hvm := congrArg Machine.vm htraced
  have hphase := congrArg Machine.phase htraced
  refine ⟨?_, ?_⟩
  · show traced.untraced.vm.unhooked = _
    rw [hvm, hplain]
    rfl
  · show traced.untraced.phase = _
    rw [hphase, hplain]
    rfl

end Runs

/-- An operation under a hook that never gives up ends as it does without the hook. -/
theorem Vm.map_trace {σ : Type} {hook : Tracer σ} (hcalm : hook.NeverAborts) (vm : Vm) (s : σ)
    (request : Request) (fuel : Nat) :
    (vm.trace hook s request fuel).map (fun r => (r.ending, r.vm.unhooked)) =
      (vm.execute request fuel).map fun r => (r.ending, r.vm.unhooked) := by
  obtain ⟨hvm, hphase⟩ := vm.lockstep hcalm s request fuel
  simp only [trace, execute, perform, Machine.run_eq, Option.map_map]
  rw [← Phase.ending?_untraced, hphase]
  cases ((Machine.step none)^[fuel] (vm.start none () request)).phase.ending? with
  | none => rfl
  | some ending => exact congrArg (fun w => some (ending, w)) hvm

theorem Vm.exists_finished_of_trace {σ : Type} {hook : Tracer σ} (hcalm : hook.NeverAborts)
    (vm : Vm) (s : σ) (request : Request) {fuel : Nat} {r : Run σ}
    (hr : vm.trace hook s request fuel = some r) : ∃ result, r.ending = .finished result := by
  have hplain := vm.map_trace hcalm s request fuel
  rw [hr] at hplain
  obtain ⟨r', hr', hsame⟩ := Option.map_eq_some_iff.mp hplain.symm
  simp only [execute, perform, Machine.run_eq, Option.map_map, Option.map_eq_some_iff] at hr'
  obtain ⟨ending, hending, rfl⟩ := hr'
  obtain ⟨result, hresult⟩ :=
    ((vm.steady_start request).iterate_step fuel).exists_finished hending
  exact ⟨result, by rw [← hresult]; exact (congrArg Prod.fst hsame).symm⟩

/-- Tracing changes nothing.  An operation under a hook that never gives up ends after the same
number of steps as without the hook, with the same value or fault, and leaves the same virtual
machine but for the log; and all along the two machines have the same frames and the same virtual
machine, their depth and their counter included. -/
theorem trace_eq_execute {σ : Type} {hook : Tracer σ} (hcalm : hook.NeverAborts) (vm : Vm) (s : σ)
    (request : Request) :
    (∀ fuel, (vm.trace hook s request fuel).map (fun r => (r.ending, r.vm.unhooked)) =
      (vm.execute request fuel).map fun r => (r.ending, r.vm.unhooked)) ∧
    (∀ fuel r, vm.trace hook s request fuel = some r → ∃ result, r.ending = .finished result) ∧
    ∀ n,
      let traced := (Machine.step (some hook))^[n] (vm.installHook.start (some hook) s request)
      let plain := (Machine.step none)^[n] (vm.start none () request)
      traced.vm.unhooked = plain.vm.unhooked ∧ traced.phase.untraced = plain.phase := by
  refine ⟨?_, ?_, ?_⟩
  · intro fuel
    exact vm.map_trace hcalm s request fuel
  · intro fuel r hr
    exact vm.exists_finished_of_trace hcalm s request hr
  · intro n
    exact vm.lockstep hcalm s request n

/-- A hook that asks for opcode events and wants no more of a frame at every second event. -/
def restlessHook : Tracer Nat where
  onEvent s view _ :=
    ⟨s + 1, { view.flags with opcodes := true }, if s % 2 = 0 then .proceed else .stop⟩

/-- A machine with a function 0 that calls function 1, which returns 7. -/
def nestedVm : Vm where
  store.functions :=
    #[⟨"outer", 0, #[], #[], #[.function ⟨1⟩], #[2, 0, 18, 0, 19, 0], [⟨0, 1⟩]⟩,
      ⟨"inner", 0, #[], #[], #[.int 7], #[2, 0, 19, 0], [⟨0, 1⟩, ⟨2, 2⟩]⟩]

theorem trace_eq_execute_restless :
    restlessHook.NeverAborts ∧
      (nestedVm.trace restlessHook 0 (.run ⟨0⟩) 6).map (fun r => (r.ending, r.vm.executed)) =
        some (.finished (.ok (.int 7)), 5) := by
  have hcalm : restlessHook.NeverAborts := by
    intro s view e
    unfold restlessHook
    dsimp only
    split <;> decide
  have h := congrArg (Option.map fun x => (x.1, x.2.executed))
    ((trace_eq_execute hcalm nestedVm 0 (.run ⟨0⟩)).1 6)
  rw [Option.map_map, Option.map_map] at h
  exact ⟨hcalm, h⟩

end Wordcode
