import Mathlib.Logic.Function.Iterate
import Wordcode.Machine.Run
import Wordcode.Proofs.Execute

/-! Steps and runs.  A machine that has ended stays as it is, so a run of so many steps is the
machine after so many steps, if it has ended.  Steps commute with every change of the virtual
machine that running code overlooks, such as what it counted and logged before, and with the
replacement of a hook by one that answers alike. -/

namespace Wordcode

open Trace

namespace Vm

/-- The machine with one frame more, for a function of the given name. -/
def pushFrame (vm : Vm) (name : String) : Vm :=
  { vm with depth := vm.depth + 1 }.record (.frameEntered name (vm.depth + 1))

/-- The machine with one frame less. -/
def popFrame (vm : Vm) : Vm := { vm with depth := vm.depth - 1 }

/-- The machine with one more instruction executed. -/
def count (vm : Vm) : Vm := { vm with executed := vm.executed + 1 }

end Vm

/-- What is left of the events of an instruction; without a hook there are none. -/
def Frame.observe {σ : Type} (hook : Option (Tracer σ)) (s : σ) (vm : Vm) (f : Frame) :
    Notice σ :=
  match hook with
  | none => ⟨s, f, .proceed⟩
  | some tracer => f.notifyInstruction tracer s vm

namespace Machine

variable {σ : Type} {hook : Option (Tracer σ)} {vm : Vm} {s : σ}

/-! ### One step -/

/-- A frame begins: the hook, if there is one, is shown its call. -/
def begin (hook : Option (Tracer σ)) (vm : Vm) (s : σ) (f : Frame) (callers : List Frame) :
    Machine σ :=
  match hook with
  | none => ⟨vm, s, .running f callers⟩
  | some tracer =>
    let n := f.notify tracer s vm .call
    match n.verdict with
    | .proceed => ⟨vm, n.tracer, .running { n.frame with active := true } callers⟩
    | .stop => ⟨vm, n.tracer, .running n.frame callers⟩
    | .abort => ⟨vm, n.tracer, .unwinding (n.frame :: callers)⟩

section Enter

variable {code : Code} {args : List Value} {callers : List Frame}

theorem enter_of_length_ne (h : args.length ≠ code.argcount) :
    enter hook vm s code args callers =
      ⟨vm, s, .giving (.error (.wrongArgumentCount code.name code.argcount args.length))
        callers⟩ := by
  rw [enter, if_pos h]

theorem enter_of_limit_le (h : args.length = code.argcount) (hlimit : vm.limit ≤ vm.depth) :
    enter hook vm s code args callers =
      ⟨vm.record (.recursionLimitHit vm.limit code.name), s,
        .giving (.error (.recursionLimit code.name)) callers⟩ := by
  rw [enter, if_neg (not_not_intro h), if_pos hlimit]

theorem enter_of_lt_limit (h : args.length = code.argcount) (hlimit : vm.depth < vm.limit) :
    enter hook vm s code args callers =
      begin hook (vm.pushFrame code.name) s (Frame.enter code args) callers := by
  rw [enter, if_neg (not_not_intro h), if_neg (Nat.not_le.mpr hlimit)]
  cases hook <;> rfl

end Enter

section Leave

variable {f : Frame} {result : Except Fault Value} {callers : List Frame}

theorem leave_none :
    leave none vm s f result callers = ⟨vm.popFrame, s, .giving result callers⟩ := by
  unfold leave
  rfl

theorem leave_of_inactive (h : f.active = false) :
    leave hook vm s f result callers = ⟨vm.popFrame, s, .giving result callers⟩ := by
  unfold leave
  rw [h]
  cases hook <;> rfl

theorem leave_of_active {tracer : Tracer σ} (h : f.active = true) :
    leave (some tracer) vm s f result callers =
      let n := f.notify tracer s vm (lastEvent result)
      if n.verdict = .abort then ⟨vm, n.tracer, .unwinding (n.frame :: callers)⟩
      else ⟨vm.popFrame, n.tracer, .giving result callers⟩ := by
  unfold leave
  rw [h]
  rfl

end Leave

section ExecuteNext

variable {f : Frame} {callers : List Frame}

theorem executeNext_of_error {e : Fault} (h : f.fetch = .error e) :
    executeNext hook vm s f callers = leave hook vm s f (.error e) callers := by
  rw [executeNext, h]

theorem executeNext_none {op : Opcode} {low : UInt8} (h : f.fetch = .ok (op, low)) :
    executeNext none vm s f callers =
      proceed none s callers (execute op (foldArg f.pending low) vm.count
        (f.advance op (foldArg f.pending low))) := by
  rw [executeNext, h]
  rfl

theorem executeNext_some {tracer : Tracer σ} {op : Opcode} {low : UInt8}
    (h : f.fetch = .ok (op, low)) :
    executeNext (some tracer) vm s f callers =
      let n := (f.advance op (foldArg f.pending low)).notifyInstruction tracer s vm.count
      if n.verdict = .abort then ⟨vm.count, n.tracer, .unwinding (n.frame :: callers)⟩
      else proceed (some tracer) n.tracer callers
        (execute op (foldArg f.pending low) vm.count n.frame) := by
  rw [executeNext, h]
  rfl

theorem executeNext_of_ok {op : Opcode} {low : UInt8} (h : f.fetch = .ok (op, low)) :
    executeNext hook vm s f callers =
      let n := (f.advance op (foldArg f.pending low)).observe hook s vm.count
      if n.verdict = .abort then ⟨vm.count, n.tracer, .unwinding (n.frame :: callers)⟩
      else proceed hook n.tracer callers (execute op (foldArg f.pending low) vm.count n.frame) := by
  cases hook with
  | none => exact executeNext_none h
  | some tracer => exact executeNext_some h

end ExecuteNext

/-! ### Runs -/

theorem step_of_ending? {m : Machine σ} {ending : Ending} (h : m.phase.ending? = some ending) :
    m.step hook = m := by
  obtain ⟨vm, s, phase⟩ := m
  cases phase with
  | running f callers => cases h
  | giving result frames =>
    cases frames with
    | nil => cases result <;> rfl
    | cons f callers => cases h
  | unwinding frames =>
    cases frames with
    | nil => rfl
    | cons f callers => cases h

theorem iterate_step_of_ending? {m : Machine σ} {ending : Ending}
    (h : m.phase.ending? = some ending) (n : Nat) : (step hook)^[n] m = m :=
  Function.iterate_fixed (step_of_ending? h) n

/-- A run ends within `fuel` steps exactly when the machine has ended after `fuel` steps. -/
theorem run_eq (fuel : Nat) (m : Machine σ) :
    m.run hook fuel = ((step hook)^[fuel] m).phase.ending?.map (·, (step hook)^[fuel] m) := by
  induction fuel generalizing m with
  | zero => rfl
  | succ fuel ih =>
    rw [run, Function.iterate_succ_apply]
    split
    · rename_i ending hending
      rw [step_of_ending? hending, iterate_step_of_ending? hending, hending]
      rfl
    · exact ih (m.step hook)

/-- The machine `m` with its virtual machine and the state of its hook changed. -/
def map {τ : Type} (φ : Vm → Vm) (ψ : σ → τ) (m : Machine σ) : Machine τ :=
  ⟨φ m.vm, ψ m.tracer, m.phase⟩

/-- The machine `m` with its virtual machine changed. -/
def mapVm (φ : Vm → Vm) (m : Machine σ) : Machine σ := { m with vm := φ m.vm }

end Machine

/-! ### Changes that running code overlooks -/

/-- The change `φ` of the virtual machine is one that running code overlooks: it keeps what the code
can ask for, but perhaps the recursion limit, and commutes with all that a step does. -/
structure Vm.Overlooked (φ : Vm → Vm) : Prop where
  store : ∀ vm, (φ vm).store = vm.store
  depth : ∀ vm, (φ vm).depth = vm.depth
  lookup : ∀ vm name, (φ vm).lookup name = vm.lookup name
  execute : ∀ op arg vm f,
    Wordcode.execute op arg (φ vm) f = (Wordcode.execute op arg vm f).map φ id
  call : ∀ (b : Builtin) args vm, b.call args (φ vm) = ((b.call args vm).1, φ (b.call args vm).2)
  count : ∀ vm, φ vm.count = (φ vm).count
  record : ∀ vm e, φ (vm.record e) = (φ vm).record e
  pushFrame : ∀ vm name, φ (vm.pushFrame name) = (φ vm).pushFrame name
  popFrame : ∀ vm, φ vm.popFrame = (φ vm).popFrame

theorem Effect.map_id (e : Effect) : e.map id id = e := by cases e <;> rfl

theorem Vm.overlooked_id : Overlooked id where
  store _ := rfl
  depth _ := rfl
  lookup _ _ := rfl
  execute _ _ _ _ := (Effect.map_id _).symm
  call _ _ _ := rfl
  count _ := rfl
  record _ _ := rfl
  pushFrame _ _ := rfl
  popFrame _ := rfl

/-- `callee` is a function with the code `code`, and takes as many arguments as `args`. -/
def Vm.Calls (vm : Vm) (callee : Value) (args : List Value) (code : Code) : Prop :=
  ∃ id, callee = .function id ∧ vm.store.code id = code ∧ args.length = code.argcount

/-- If there is room for one frame more on `vm`, there is on `φ vm`, and the other way round; and
where there is none, the limits are the same. -/
def Vm.SameRoom (φ : Vm → Vm) (vm : Vm) : Prop :=
  (φ vm).limit = vm.limit ∨ vm.depth < vm.limit ∧ vm.depth < (φ vm).limit

/-- A function that is called in effect finds the same room on the changed machine. -/
def Effect.SameRoom (φ : Vm → Vm) : Effect → Prop
  | call vm _ callee args => ∀ code, vm.Calls callee args code → vm.SameRoom φ
  | _ => True

/-- What the instruction of the next step does, if one is executed. -/
def Machine.effect? {σ : Type} (hook : Option (Tracer σ)) (m : Machine σ) : Option Effect :=
  match m.phase with
  | .running f _ =>
    match f.fetch with
    | .ok (op, low) =>
      let n := (f.advance op (foldArg f.pending low)).observe hook m.tracer m.vm.count
      if n.verdict = .abort then none
      else some (execute op (foldArg f.pending low) m.vm.count n.frame)
    | .error _ => none
  | _ => none

theorem Machine.effect?_of_ok {σ : Type} {hook : Option (Tracer σ)} {vm : Vm} {s : σ} {f : Frame}
    {callers : List Frame} {op : Opcode} {low : UInt8} (h : f.fetch = .ok (op, low)) :
    effect? hook ⟨vm, s, .running f callers⟩ =
      let n := (f.advance op (foldArg f.pending low)).observe hook s vm.count
      if n.verdict = .abort then none
      else some (execute op (foldArg f.pending low) vm.count n.frame) := by
  unfold effect?
  simp only [h]

/-- An effect is that of the instruction that the frame on top fetches. -/
theorem Machine.effect?_eq_some {σ : Type} {hook : Option (Tracer σ)} {m : Machine σ} {e : Effect}
    (h : m.effect? hook = some e) :
    ∃ f callers op low, m.phase = .running f callers ∧ f.fetch = .ok (op, low) ∧
      e = execute op (foldArg f.pending low) m.vm.count
        ((f.advance op (foldArg f.pending low)).observe hook m.tracer m.vm.count).frame := by
  obtain ⟨vm, s, phase⟩ := m
  cases phase with
  | running f callers =>
    cases hfetch : f.fetch with
    | error e =>
      simp only [effect?, hfetch] at h
      cases h
    | ok fetched =>
      rw [effect?_of_ok hfetch] at h
      dsimp only at h
      split at h
      · cases h
      · exact ⟨f, callers, _, _, rfl, hfetch, (Option.some.inj h).symm⟩
  | _ => cases h

section Mirrors

variable {σ τ : Type}

def Trace.Reply.map (ψ : σ → τ) (r : Reply σ) : Reply τ := ⟨ψ r.state, r.flags, r.verdict⟩

def Notice.map (ψ : σ → τ) (n : Notice σ) : Notice τ := ⟨ψ n.tracer, n.frame, n.verdict⟩

/-- The second hook answers in the state `ψ s` as the first does in the state `s`. -/
def Trace.Tracer.Mirrors (ψ : σ → τ) (hook : Tracer σ) (hook' : Tracer τ) : Prop :=
  ∀ s view e, hook'.onEvent (ψ s) view e = (hook.onEvent s view e).map ψ

/-- The same of two hooks that may be missing, both or none. -/
inductive Trace.Mirrors (ψ : σ → τ) : Option (Tracer σ) → Option (Tracer τ) → Prop
  | none : Mirrors ψ none none
  | some {hook : Tracer σ} {hook' : Tracer τ} :
      hook.Mirrors ψ hook' → Mirrors ψ (some hook) (some hook')

theorem Trace.Mirrors.refl (hook : Option (Tracer σ)) : Mirrors id hook hook := by
  cases hook with
  | none => exact .none
  | some tracer => exact .some fun _ _ _ => rfl

namespace Frame

variable {ψ : σ → τ} {hook : Tracer σ} {hook' : Tracer τ} (hhook : hook.Mirrors ψ hook')
  {vm vm' : Vm} (hstore : vm'.store = vm.store) (hdepth : vm'.depth = vm.depth) (s : σ)
include hhook hstore hdepth

theorem notify_map (f : Frame) (e : Trace.Event) :
    f.notify hook' (ψ s) vm' e = (f.notify hook s vm e).map ψ := by
  unfold notify
  rw [hstore, hdepth, hhook]
  rfl

theorem notifyLocal_map (f : Frame) (e : Trace.Event) :
    f.notifyLocal hook' (ψ s) vm' e = (f.notifyLocal hook s vm e).map ψ := by
  unfold notifyLocal
  rw [notify_map hhook hstore hdepth]
  dsimp only [Notice.map]
  split <;> rfl

theorem notifyLine_map (f : Frame) :
    f.notifyLine hook' (ψ s) vm' = (f.notifyLine hook s vm).map ψ := by
  unfold notifyLine
  split
  · exact notifyLocal_map hhook hstore hdepth s _ _
  · rfl

theorem notifyOpcode_map (f : Frame) :
    f.notifyOpcode hook' (ψ s) vm' = (f.notifyOpcode hook s vm).map ψ := by
  unfold notifyOpcode
  split
  · exact notifyLocal_map hhook hstore hdepth s _ _
  · rfl

theorem notifyInstruction_map (f : Frame) :
    f.notifyInstruction hook' (ψ s) vm' = (f.notifyInstruction hook s vm).map ψ := by
  unfold notifyInstruction
  split
  · rw [notifyLine_map hhook hstore hdepth]
    dsimp only [Notice.map]
    split
    · exact notifyOpcode_map hhook hstore hdepth _ _
    · rfl
  · rfl

end Frame

namespace Machine

variable {φ : Vm → Vm} (hφ : Vm.Overlooked φ) {ψ : σ → τ} {hook : Option (Tracer σ)}
  {hook' : Option (Tracer τ)} (hhook : Mirrors ψ hook hook') (vm : Vm) (s : σ)
include hφ hhook

theorem observe_map (f : Frame) :
    f.observe hook' (ψ s) (φ vm) = (f.observe hook s vm).map ψ := by
  cases hhook with
  | none => rfl
  | some h => exact Frame.notifyInstruction_map h (hφ.store vm) (hφ.depth vm) s f

theorem begin_map (f : Frame) (callers : List Frame) :
    begin hook' (φ vm) (ψ s) f callers = (begin hook vm s f callers).map φ ψ := by
  cases hhook with
  | none => rfl
  | some h =>
    unfold begin
    dsimp only
    rw [Frame.notify_map h (hφ.store vm) (hφ.depth vm)]
    dsimp only [Notice.map]
    split <;> rfl

theorem enter_map {code : Code} {args : List Value} (callers : List Frame)
    (hroom : args.length = code.argcount → vm.SameRoom φ) :
    enter hook' (φ vm) (ψ s) code args callers =
      (enter hook vm s code args callers).map φ ψ := by
  have hdepth := hφ.depth vm
  by_cases hargs : args.length = code.argcount
  · have hroom := hroom hargs
    unfold Vm.SameRoom at hroom
    rcases Nat.lt_or_ge vm.depth vm.limit with hlimit | hlimit
    · rw [enter_of_lt_limit hargs hlimit, enter_of_lt_limit hargs (by omega), ← hφ.pushFrame,
        begin_map hφ hhook]
    · have hsame : (φ vm).limit = vm.limit := by omega
      rw [enter_of_limit_le hargs hlimit, enter_of_limit_le hargs (by omega), hsame, ← hφ.record]
      rfl
  · rw [enter_of_length_ne hargs, enter_of_length_ne hargs]
    rfl

theorem invoke_map {callee : Value} {args : List Value} (callers : List Frame)
    (hroom : ∀ code, vm.Calls callee args code → vm.SameRoom φ) :
    invoke hook' (φ vm) (ψ s) callee args callers =
      (invoke hook vm s callee args callers).map φ ψ := by
  cases callee with
  | function id =>
    rw [invoke, hφ.store]
    exact enter_map hφ hhook vm s callers fun hargs => hroom _ ⟨id, rfl, rfl, hargs⟩
  | builtin b =>
    rw [invoke, hφ.call]
    rfl
  | _ => rfl

theorem leave_map (f : Frame) (result : Except Fault Value) (callers : List Frame) :
    leave hook' (φ vm) (ψ s) f result callers =
      (leave hook vm s f result callers).map φ ψ := by
  cases hactive : f.active with
  | false =>
    rw [leave_of_inactive hactive, leave_of_inactive hactive, ← hφ.popFrame]
    rfl
  | true =>
    cases hhook with
    | none =>
      rw [leave_none, leave_none, ← hφ.popFrame]
      rfl
    | some h =>
      rw [leave_of_active hactive, leave_of_active hactive,
        Frame.notify_map h (hφ.store vm) (hφ.depth vm), ← hφ.popFrame]
      dsimp only [Notice.map]
      split <;> rfl

theorem proceed_map (callers : List Frame) {e : Effect} (hroom : e.SameRoom φ) :
    proceed hook' (ψ s) callers (e.map φ id) = (proceed hook s callers e).map φ ψ := by
  cases e with
  | next vm f => rfl
  | jump vm f target => rfl
  | call vm f callee args => exact invoke_map hφ hhook vm s (f :: callers) hroom
  | leave vm f result => exact leave_map hφ hhook vm s f result callers

theorem executeNext_map (f : Frame) (callers : List Frame)
    (hroom : ∀ e ∈ effect? hook ⟨vm, s, .running f callers⟩, e.SameRoom φ) :
    executeNext hook' (φ vm) (ψ s) f callers =
      (executeNext hook vm s f callers).map φ ψ := by
  cases hfetch : f.fetch with
  | error e => rw [executeNext_of_error hfetch, executeNext_of_error hfetch, leave_map hφ hhook]
  | ok fetched =>
    obtain ⟨op, low⟩ := fetched
    rw [effect?_of_ok hfetch] at hroom
    rw [executeNext_of_ok hfetch, executeNext_of_ok hfetch, ← hφ.count, observe_map hφ hhook]
    dsimp only [Notice.map]
    split
    · rfl
    · rename_i hverdict
      rw [hφ.execute]
      exact proceed_map hφ hhook _ callers (hroom _ (if_neg hverdict))

/-- A step commutes with a change that running code overlooks, and with a change to a hook that
answers alike, unless a function that is called would find room for its frame on one side only. -/
theorem step_map {m : Machine σ} (hroom : ∀ e ∈ m.effect? hook, e.SameRoom φ) :
    (m.map φ ψ).step hook' = (m.step hook).map φ ψ := by
  obtain ⟨vm, s, phase⟩ := m
  cases phase with
  | running f callers => exact executeNext_map hφ hhook vm s f callers hroom
  | giving result frames =>
    cases frames with
    | nil => cases result <;> rfl
    | cons f callers =>
      cases result with
      | ok v => rfl
      | error e => exact leave_map hφ hhook vm s f (.error e) callers
  | unwinding frames =>
    cases frames with
    | nil => rfl
    | cons f callers =>
      exact congrArg (Machine.mk · (ψ s) (.unwinding callers)) (hφ.popFrame vm).symm

variable (hlimit : ∀ vm, (φ vm).limit = vm.limit)
include hlimit

theorem iterate_step_map (n : Nat) (m : Machine σ) :
    (step hook')^[n] (m.map φ ψ) = ((step hook)^[n] m).map φ ψ := by
  have hroom : ∀ e : Effect, e.SameRoom φ := by
    intro e
    cases e with
    | call vm f callee args => exact fun _ _ => Or.inl (hlimit vm)
    | _ => trivial
  have hstep : Function.Semiconj (Machine.map φ ψ) (step hook) (step hook') :=
    fun _ => (step_map hφ hhook fun e _ => hroom e).symm
  exact (hstep.iterate_right n m).symm

end Machine

/-- The callee and the arguments of the call that an operation is, if it comes to one. -/
def Vm.call? (vm : Vm) : Request → Option (Value × List Value)
  | .run id => some (.function id, [])
  | .call callee args => some (callee, args)
  | .callGlobal name args => (vm.lookup name).toOption.map (·, args)

/-- An operation begins alike on a machine with a change that running code overlooks, and under a
hook that answers alike, if it finds the same room. -/
theorem Vm.start_map {φ : Vm → Vm} (hφ : Vm.Overlooked φ) {ψ : σ → τ} {hook : Option (Tracer σ)}
    {hook' : Option (Tracer τ)} (hhook : Mirrors ψ hook hook') {vm : Vm} (s : σ)
    {request : Request} (hroom : ∀ callee args, vm.call? request = some (callee, args) →
      ∀ code, vm.Calls callee args code → vm.SameRoom φ) :
    (φ vm).start hook' (ψ s) request = (vm.start hook s request).map φ ψ := by
  cases request with
  | run id =>
    rw [start, hφ.store]
    exact Machine.enter_map hφ hhook vm s [] fun hargs => hroom _ [] rfl _ ⟨id, rfl, rfl, hargs⟩
  | call callee args => exact Machine.invoke_map hφ hhook vm s [] (hroom callee args rfl)
  | callGlobal name args =>
    rw [start, start, hφ.lookup]
    split
    · rename_i callee hlookup
      refine Machine.invoke_map hφ hhook vm s [] (hroom callee args ?_)
      rw [call?, hlookup]
      rfl
    · rfl

end Mirrors

/-! ### What was counted and logged before -/

namespace Vm

/-- The machine `vm`, with what it counted and logged on top of what `past` did. -/
def onTopOf (past vm : Vm) : Vm :=
  { vm with
    tracing := past.tracing
    executed := past.executed + vm.executed
    log := past.log ++ vm.log }

/-- The machine `vm` before it counted or logged anything. -/
def fresh (vm : Vm) : Vm := { vm with tracing := false, executed := 0, log := #[] }

theorem onTopOf_fresh (vm : Vm) : vm.onTopOf vm.fresh = vm := by
  simp [onTopOf, fresh]

theorem unseen_onTopOf (past : Vm) : Vm.Unseen past.onTopOf := fun _ _ => rfl

theorem record_onTopOf (past vm : Vm) (e : Log.Event) :
    past.onTopOf (vm.record e) = (past.onTopOf vm).record e := by
  simp [record, onTopOf]

theorem overlooked_onTopOf (past : Vm) : Overlooked past.onTopOf where
  store _ := rfl
  depth _ := rfl
  lookup _ _ := rfl
  execute := execute_map past.unseen_onTopOf Frame.unseen_id
  call := Builtin.call_map past.unseen_onTopOf
  count _ := rfl
  record := past.record_onTopOf
  pushFrame vm _ := past.record_onTopOf { vm with depth := vm.depth + 1 } _
  popFrame _ := rfl

end Vm

theorem Machine.iterate_step_onTopOf {σ : Type} (hook : Option (Tracer σ)) (past : Vm) (n : Nat)
    (m : Machine σ) :
    (step hook)^[n] (m.mapVm past.onTopOf) = ((step hook)^[n] m).mapVm past.onTopOf :=
  iterate_step_map past.overlooked_onTopOf (.refl hook) (fun _ => rfl) n m

/-- An operation begins alike whatever was counted and logged before. -/
theorem Vm.start_onTopOf {σ : Type} (past vm : Vm) (hook : Option (Tracer σ)) (s : σ)
    (request : Request) :
    (past.onTopOf vm).start hook s request = (vm.start hook s request).mapVm past.onTopOf :=
  start_map past.overlooked_onTopOf (.refl hook) s fun _ _ _ _ _ => Or.inl rfl

end Wordcode
