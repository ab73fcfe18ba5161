import Wordcode.Proofs.Frames

/-! What a step comes to as a whole.  A step that executes an instruction goes on as the effect of
the instruction says, and one that executes none leaves the data of the machine alone; a call comes
to the first frame of a function, to the answer of a native function, or to a fault.  Frames that
are unwound execute nothing any more, so what becomes of them is left open. -/

namespace Wordcode

open Trace

namespace Machine

variable {σ : Type} (hook : Option (Tracer σ))

/-! ### Calls -/

/-- What a call leaves of the data of a machine, and the phase that it comes to. -/
inductive Invocation (vm : Vm) (callee : Value) (args : List Value) (callers : List Frame) :
    Vm.Data → Phase → Prop
  | entered {g : Frame} (hcalls : vm.Calls callee args g.code) (hbegins : g.Begins args) :
      Invocation vm callee args callers vm.data (.running g callers)
  | answered {b : Builtin} (hcallee : callee = .builtin b) :
      Invocation vm callee args callers (b.call args vm).2.data
        (.giving (b.call args vm).1 callers)
  | refused (e : Fault) : Invocation vm callee args callers vm.data (.giving (.error e) callers)
  | gaveUp (frames : List Frame) : Invocation vm callee args callers vm.data (.unwinding frames)

theorem invocation_invoke (vm : Vm) (s : σ) (callee : Value) (args : List Value)
    (callers : List Frame) :
    Invocation vm callee args callers (invoke hook vm s callee args callers).vm.data
      (invoke hook vm s callee args callers).phase := by
  cases callee with
  | function id =>
    rw [invoke]
    by_cases hargs : args.length = (vm.store.code id).argcount
    · rcases Nat.lt_or_ge vm.depth vm.limit with hlimit | hlimit
      · obtain ⟨s', g, phase, hbegin, hphase, huntraced⟩ := exists_frame_begin hook
          (vm.pushFrame (vm.store.code id).name) s (Frame.enter (vm.store.code id) args) callers
        have hcode : g.code = vm.store.code id := (congrArg Frame.code huntraced :)
        rw [enter_of_lt_limit hargs hlimit, hbegin]
        rw [← hcode] at hargs huntraced
        obtain rfl | rfl := hphase
        · exact .entered ⟨id, rfl, hcode.symm, hargs⟩ ⟨hargs, huntraced⟩
        · exact .gaveUp _
      · rw [enter_of_limit_le hargs hlimit]
        exact .refused _
    · rw [enter_of_length_ne hargs]
      exact .refused _
  | builtin b => exact .answered rfl
  | _ => exact .refused _

/-- What the beginning of an operation leaves of the data of the machine, and the phase that it
comes to: those of its call, or the fault of a name without a meaning. -/
theorem invocation_start (vm : Vm) (s : σ) (request : Request) :
    (∃ callee args, vm.call? request = some (callee, args) ∧
      Invocation vm callee args [] (vm.start hook s request).vm.data
        (vm.start hook s request).phase) ∨
    (vm.start hook s request).vm = vm ∧
      ∃ e, (vm.start hook s request).phase = .giving (.error e) [] := by
  cases request with
  | run id => exact Or.inl ⟨_, _, rfl, invocation_invoke hook vm s (.function id) [] []⟩
  | call callee args => exact Or.inl ⟨_, _, rfl, invocation_invoke hook vm s callee args []⟩
  | callGlobal name args =>
    rw [Vm.start, Vm.call?]
    cases vm.lookup name with
    | ok callee => exact Or.inl ⟨_, _, rfl, invocation_invoke hook vm s callee args []⟩
    | error e => exact Or.inr ⟨rfl, e, rfl⟩

/-! ### Steps -/

/-- The instruction that the next step executes, with its argument and the frame that executes it,
unless the hook gives up before. -/
def performing? (m : Machine σ) : Option (Opcode × UInt32 × Frame) :=
  match m.phase with
  | .running f _ =>
    match f.fetch with
    | .ok (op, low) =>
      let arg := foldArg f.pending low
      let n := (f.advance op arg).observe hook m.tracer m.vm.count
      if n.verdict = .abort then none else some (op, arg, n.frame)
    | .error _ => none
  | _ => none

/-- How the phase changes where no instruction is executed. -/
inductive Idle : Phase → Phase → Prop
  | ended {result : Except Fault Value} : Idle (.giving result []) (.giving result [])
  | resumed {v : Value} {f : Frame} {callers : List Frame} :
      Idle (.giving (.ok v) (f :: callers)) (.running (f.push v) callers)
  | failed {f : Frame} {callers : List Frame} {e : Fault} :
      Idle (.running f callers) (.giving (.error e) callers)
  | passedOn {f : Frame} {callers : List Frame} {e : Fault} :
      Idle (.giving (.error e) (f :: callers)) (.giving (.error e) callers)
  | unwound {phase : Phase} {frames : List Frame} : Idle phase (.unwinding frames)

variable {hook} {m : Machine σ}

theorem performing?_of_ok {vm : Vm} {s : σ} {f : Frame} {callers : List Frame} {op : Opcode}
    {low : UInt8} (h : f.fetch = .ok (op, low)) :
    performing? hook ⟨vm, s, .running f callers⟩ =
      let n := (f.advance op (foldArg f.pending low)).observe hook s vm.count
      if n.verdict = .abort then none else some (op, foldArg f.pending low, n.frame) := by
  unfold performing?
  simp only [h]

theorem effect?_eq (m : Machine σ) :
    m.effect? hook = (m.performing? hook).map fun (op, arg, f) => execute op arg m.vm.count f := by
  unfold effect? performing?
  cases m.phase with
  | running f callers =>
    dsimp only
    cases f.fetch with
    | ok fetched =>
      dsimp only
      split <;> rfl
    | error e => rfl
  | _ => rfl

theorem effect?_of_performing? {op : Opcode} {arg : UInt32} {f : Frame}
    (h : m.performing? hook = some (op, arg, f)) :
    m.effect? hook = some (execute op arg m.vm.count f) := by
  rw [effect?_eq, h]
  rfl

/-- A step that executes no instruction leaves the data alone. -/
theorem idle_step (hnone : m.performing? hook = none) :
    (m.step hook).vm.data = m.vm.data ∧ Idle m.phase (m.step hook).phase := by
  have hleave : ∀ {vm : Vm} {s : σ} {phase : Phase} {f : Frame} {callers : List Frame} {e : Fault},
      Idle phase (.giving (.error e) callers) →
      let m' := leave hook vm s f (.error e) callers
      m'.vm.data = vm.data ∧ Idle phase m'.phase := by
    intro vm s phase f callers e hidle
    obtain ⟨s', h⟩ | ⟨s', f', h⟩ := leave_cases hook vm s f (.error e) callers
    · rw [h]
      exact ⟨rfl, hidle⟩
    · rw [h]
      exact ⟨rfl, .unwound⟩
  obtain ⟨vm, s, phase⟩ := m
  cases phase with
  | running f callers =>
    rw [step]
    cases hfetch : f.fetch with
    | error e =>
      rw [executeNext_of_error hfetch]
      exact hleave .failed
    | ok fetched =>
      obtain ⟨op, low⟩ := fetched
      rw [performing?_of_ok hfetch] at hnone
      rw [executeNext_of_ok hfetch]
      dsimp only at hnone ⊢
      split
      · exact ⟨rfl, .unwound⟩
      · rename_i hverdict
        rw [if_neg hverdict] at hnone
        cases hnone
  | giving result frames =>
    cases frames with
    | nil => cases result <;> exact ⟨rfl, .ended⟩
    | cons f callers =>
      cases result with
      | ok v => exact ⟨rfl, .resumed⟩
      | error e => exact hleave .passedOn
  | unwinding frames => cases frames <;> exact ⟨rfl, .unwound⟩

/-- A step that executes an instruction goes on as the effect of the instruction says. -/
theorem step_of_performing? {op : Opcode} {arg : UInt32} {g : Frame}
    (h : m.performing? hook = some (op, arg, g)) :
    ∃ f callers low s', m.phase = .running f callers ∧ f.fetch = .ok (op, low) ∧
      arg = foldArg f.pending low ∧ g.untraced = (f.advance op arg).untraced ∧
      m.step hook = proceed hook s' callers (execute op arg m.vm.count g) := by
  obtain ⟨vm, s, phase⟩ := m
  cases phase with
  | running f callers =>
    cases hfetch : f.fetch with
    | error e =>
      simp only [performing?, hfetch] at h
      cases h
    | ok fetched =>
      obtain ⟨op', low⟩ := fetched
      rw [performing?_of_ok hfetch] at h
      dsimp only at h
      split at h
      · cases h
      · rename_i hverdict
        cases h
        let n := (f.advance op (foldArg f.pending low)).observe hook s vm.count
        refine ⟨f, callers, low, n.tracer, rfl, hfetch, rfl, Frame.untraced_observe .., ?_⟩
        rw [step, executeNext_of_ok hfetch]
        exact if_neg hverdict
  | _ => cases h

end Machine

end Wordcode
