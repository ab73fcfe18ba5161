import Wordcode.Proofs.Faults
import Wordcode.Proofs.Instructions
import Wordcode.Proofs.Tracing

/-! What a step can do to the virtual machine and to the frames, whatever hook watches it.  The
recursion limit refuses a frame only to a function that is called with as many arguments as it
takes, and the depth of the virtual machine is always the number of active frames. -/

namespace Wordcode

open Trace

/-! ### Calls -/

/-- The call that an effect is, if it is one. -/
def Effect.call? : Effect → Option (Value × List Value)
  | call _ _ callee args => some (callee, args)
  | _ => none

/-- The call that the next step makes, if it executes an instruction that calls. -/
def Machine.call? {σ : Type} (hook : Option (Tracer σ)) (m : Machine σ) :
    Option (Value × List Value) :=
  (m.effect? hook).bind Effect.call?

theorem Machine.vm_of_effect? {σ : Type} {hook : Option (Tracer σ)} {m : Machine σ} {vm' : Vm}
    {g : Frame} {callee : Value} {args : List Value}
    (h : m.effect? hook = some (.call vm' g callee args)) : vm' = m.vm.count := by
  obtain ⟨f, callers, op, low, -, -, hexecute⟩ := effect?_eq_some h
  exact vm_of_execute_call hexecute.symm

/-! ### Faults -/

/-- A fault that says that the recursion limit was reached. -/
def CutOff (result : Except Fault Value) : Prop :=
  ∃ e, result = .error e ∧ e.kind = .recursion

theorem not_cutOff_ok (v : Value) : ¬CutOff (.ok v) := by
  rintro ⟨e, he, -⟩
  cases he

theorem not_cutOff_error {e : Fault} (h : e.kind ≠ .recursion) : ¬CutOff (.error e) := by
  rintro ⟨e', he, hkind⟩
  cases he
  exact h hkind

theorem PlainResult.not_cutOff {result : Except Fault Value} (h : PlainResult result) :
    ¬CutOff result := by
  rintro ⟨e, he, hkind⟩
  exact (h e he).1 hkind

/-- The results with which a frame is left in effect. -/
def Effect.result? : Effect → Option (Except Fault Value)
  | leave _ _ result => some result
  | _ => none

theorem Frame.not_cutOff_of_fetch {f : Frame} {e : Fault} (h : f.fetch = .error e) :
    ¬CutOff (.error e) := by
  obtain rfl | ⟨byte, -, -, rfl⟩ := fault_of_fetch h <;>
    exact not_cutOff_error ErrorKind.noConfusion

/-- No instruction says that the recursion limit was reached. -/
theorem not_cutOff_execute (op : Opcode) (arg : UInt32) (vm : Vm) (f : Frame) :
    ∀ r ∈ (execute op arg vm f).result?, ¬CutOff r := by
  intro r hr
  cases heffect : execute op arg vm f with
  | leave vm' g result =>
    rw [heffect] at hr
    obtain rfl : result = r := Option.some.inj hr
    cases result with
    | ok v => exact not_cutOff_ok v
    | error e =>
      apply not_cutOff_error
      have hfault : (execute op arg vm f).fault? = some e := by
        rw [heffect]
        rfl
      obtain rfl | ⟨rfl, -⟩ | hplain := fault_of_execute hfault
      · exact ErrorKind.noConfusion
      · exact ErrorKind.noConfusion
      · exact hplain.1
  | _ =>
    rw [heffect] at hr
    cases hr

/-! ### Moves -/

/-- The two virtual machines have the same number of frames, limit, tracing mark and log. -/
structure Vm.SameBooks (vm vm' : Vm) : Prop where
  depth : vm'.depth = vm.depth
  limit : vm'.limit = vm.limit
  tracing : vm'.tracing = vm.tracing
  log : vm'.log = vm.log

theorem Vm.SameBooks.refl (vm : Vm) : vm.SameBooks vm := ⟨rfl, rfl, rfl, rfl⟩

/-- What a call can come to.  Only the call of a function with as many arguments as it takes depends
on the limit. -/
inductive Called (vm : Vm) (callee : Value) (args : List Value) (callers : List Frame) :
    Vm → Phase → Prop
  | entered {f : Frame} (hcalls : vm.Calls callee args f.code) (hroom : vm.depth < vm.limit) :
      Called vm callee args callers (vm.pushFrame f.code.name) (.running f callers)
  | givenUp {code : Code} {f : Frame} (hcalls : vm.Calls callee args code)
      (hroom : vm.depth < vm.limit) :
      Called vm callee args callers (vm.pushFrame code.name) (.unwinding (f :: callers))
  | refused {code : Code} (hcalls : vm.Calls callee args code) (hfull : vm.limit ≤ vm.depth) :
      Called vm callee args callers (vm.record (.recursionLimitHit vm.limit code.name))
        (.giving (.error (.recursionLimit code.name)) callers)
  | answered {vm' : Vm} {result : Except Fault Value} (hcalls : ∀ code, ¬vm.Calls callee args code)
      (hresult : ¬CutOff result) (hbooks : vm.SameBooks vm') :
      Called vm callee args callers vm' (.giving result callers)

/-- What a step can do to a virtual machine and to its frames, whatever the hook, if it makes the
given call or none. -/
inductive Move (vm : Vm) : Phase → Option (Value × List Value) → Vm → Phase → Prop
  | ended {phase : Phase} {ending : Ending} (h : phase.ending? = some ending) :
      Move vm phase none vm phase
  | resumed {v : Value} {f : Frame} {callers : List Frame} :
      Move vm (.giving (.ok v) (f :: callers)) none vm (.running (f.push v) callers)
  | passedOn {e : Fault} {f : Frame} {callers : List Frame} :
      Move vm (.giving (.error e) (f :: callers)) none vm.popFrame (.giving (.error e) callers)
  | unwound {f : Frame} {callers : List Frame} :
      Move vm (.unwinding (f :: callers)) none vm.popFrame (.unwinding callers)
  | went {vm' : Vm} {f f' : Frame} {callers : List Frame} (hbooks : vm.SameBooks vm') :
      Move vm (.running f callers) none vm' (.running f' callers)
  | called {vm' : Vm} {phase' : Phase} {f f' : Frame} {callers : List Frame} {callee : Value}
      {args : List Value} (h : Called vm.count callee args (f' :: callers) vm' phase') :
      Move vm (.running f callers) (some (callee, args)) vm' phase'
  | left {vm' : Vm} {f : Frame} {callers : List Frame} {result : Except Fault Value}
      (hresult : ¬CutOff result) (hbooks : vm.SameBooks vm') :
      Move vm (.running f callers) none vm'.popFrame (.giving result callers)
  | gaveUp {vm' : Vm} {phase : Phase} {f f' : Frame} {callers : List Frame}
      (hframes : phase.frames = f :: callers) (hbooks : vm.SameBooks vm') :
      Move vm phase none vm' (.unwinding (f' :: callers))

namespace Machine

variable {σ : Type} (hook : Option (Tracer σ))

/-- The machine came about by a move that makes the given call or none. -/
def MovedFrom (vm : Vm) (phase : Phase) (call? : Option (Value × List Value)) (m : Machine σ) :
    Prop :=
  Move vm phase call? m.vm m.phase

theorem begin_cases (vm : Vm) (s : σ) (f : Frame) (callers : List Frame) :
    (∃ s' f', begin hook vm s f callers = ⟨vm, s', .running f' callers⟩ ∧ f'.code = f.code) ∨
      ∃ s' f', begin hook vm s f callers = ⟨vm, s', .unwinding (f' :: callers)⟩ := by
  cases hook with
  | none => exact Or.inl ⟨s, f, rfl, rfl⟩
  | some tracer =>
    unfold begin
    dsimp only
    split
    · exact Or.inl ⟨_, _, rfl, rfl⟩
    · exact Or.inl ⟨_, _, rfl, rfl⟩
    · exact Or.inr ⟨_, _, rfl⟩

theorem leave_cases (vm : Vm) (s : σ) (f : Frame) (result : Except Fault Value)
    (callers : List Frame) :
    (∃ s', leave hook vm s f result callers = ⟨vm.popFrame, s', .giving result callers⟩) ∨
      ∃ s' f', leave hook vm s f result callers = ⟨vm, s', .unwinding (f' :: callers)⟩ := by
  cases hactive : f.active with
  | false => exact Or.inl ⟨s, leave_of_inactive hactive⟩
  | true =>
    cases hook with
    | none => exact Or.inl ⟨s, leave_none⟩
    | some tracer =>
      rw [leave_of_active hactive]
      dsimp only
      split
      · exact Or.inr ⟨_, _, rfl⟩
      · exact Or.inl ⟨_, rfl⟩

theorem called_enter (vm : Vm) (s : σ) (id : FunctionId) (args : List Value)
    (callers : List Frame) :
    let m := enter hook vm s (vm.store.code id) args callers
    Called vm (.function id) args callers m.vm m.phase := by
  intro m
  by_cases hargs : args.length = (vm.store.code id).argcount
  · have hcalls : vm.Calls (.function id) args (vm.store.code id) := ⟨id, rfl, rfl, hargs⟩
    rcases Nat.lt_or_ge vm.depth vm.limit with hlimit | hlimit
    · have hm : m = begin hook (vm.pushFrame (vm.store.code id).name) s
          (Frame.enter (vm.store.code id) args) callers := enter_of_lt_limit hargs hlimit
      obtain ⟨s', f', h, hcode⟩ | ⟨s', f', h⟩ := begin_cases hook _ s _ callers
      · rw [hm, h]
        have hcode : f'.code = vm.store.code id := hcode
        rw [← hcode] at hcalls ⊢
        exact .entered hcalls hlimit
      · rw [hm, h]
        exact .givenUp hcalls hlimit
    · have hm : m = _ := enter_of_limit_le hargs hlimit
      rw [hm]
      exact .refused hcalls hlimit
  · have hm : m = _ := enter_of_length_ne hargs
    rw [hm]
    refine .answered ?_ (not_cutOff_error ErrorKind.noConfusion) (.refl vm)
    rintro code ⟨id', hid, rfl, h⟩
    cases hid
    exact hargs h

theorem called_invoke (vm : Vm) (s : σ) (callee : Value) (args : List Value)
    (callers : List Frame) :
    let m := invoke hook vm s callee args callers
    Called vm callee args callers m.vm m.phase := by
  have hnone : (∀ id, callee ≠ .function id) → ∀ code, ¬vm.Calls callee args code := by
    rintro hne code ⟨id, rfl, -⟩
    exact hne id rfl
  cases callee with
  | function id => exact called_enter hook vm s id args callers
  | builtin b =>
    have hself := congrArg Prod.snd (b.call_withData args vm vm)
    refine .answered (hnone fun _ => Value.noConfusion) (b.plain_call args vm).not_cutOff ?_
    show vm.SameBooks (b.call args vm).2
    rw [show (b.call args vm).2 = vm.withData _ from hself]
    exact ⟨rfl, rfl, rfl, rfl⟩
  | _ =>
    exact .answered (hnone fun _ => Value.noConfusion) (not_cutOff_error ErrorKind.noConfusion)
      (.refl vm)

theorem move_leave {vm vm' : Vm} {f g : Frame} {callers : List Frame}
    {result : Except Fault Value} (hresult : ¬CutOff result) (hbooks : vm.SameBooks vm') (s : σ) :
    (leave hook vm' s g result callers).MovedFrom vm (.running f callers) none := by
  obtain ⟨s', h⟩ | ⟨s', f', h⟩ := leave_cases hook vm' s g result callers
  · rw [h]
    exact .left hresult hbooks
  · rw [h]
    exact .gaveUp rfl hbooks

theorem move_proceed {vm : Vm} {f : Frame} {callers : List Frame} {e : Effect}
    (hcalls : ∀ vm' g callee args, e = .call vm' g callee args → vm' = vm.count)
    (hresult : ∀ r ∈ e.result?, ¬CutOff r) (hbooks : vm.SameBooks e.vm) (s : σ) :
    (proceed hook s callers e).MovedFrom vm (.running f callers) e.call? := by
  cases e with
  | next vm' g => exact .went hbooks
  | jump vm' g target => exact .went hbooks
  | call vm' g callee args =>
    obtain rfl := hcalls vm' g callee args rfl
    exact .called (called_invoke hook vm.count s callee args (g :: callers))
  | leave vm' g result => exact move_leave hook (hresult result rfl) hbooks s

theorem move_executeNext (vm : Vm) (s : σ) (f : Frame) (callers : List Frame) :
    (executeNext hook vm s f callers).MovedFrom vm (.running f callers)
      (call? hook ⟨vm, s, .running f callers⟩) := by
  cases hfetch : f.fetch with
  | error e =>
    have hcall : call? hook ⟨vm, s, .running f callers⟩ = none := by
      simp only [call?, effect?, hfetch, Option.bind_none]
    rw [executeNext_of_error hfetch, hcall]
    exact move_leave hook (Frame.not_cutOff_of_fetch hfetch) (.refl vm) s
  | ok fetched =>
    obtain ⟨op, low⟩ := fetched
    rw [executeNext_of_ok hfetch, call?, effect?_of_ok hfetch]
    dsimp only
    split
    · exact .gaveUp rfl ⟨rfl, rfl, rfl, rfl⟩
    -- Only the events could have given up; what the instruction does is a move in any frame.
    · refine move_proceed hook (fun vm' g callee args => vm_of_execute_call)
        (not_cutOff_execute op _ vm.count _) ?_ _
      rw [vm_execute]
      exact ⟨rfl, rfl, rfl, rfl⟩

/-- Every step is a move. -/
theorem move_step (m : Machine σ) : (m.step hook).MovedFrom m.vm m.phase (m.call? hook) := by
  obtain ⟨vm, s, phase⟩ := m
  cases phase with
  | running f callers => exact move_executeNext hook vm s f callers
  | giving result frames =>
    cases frames with
    | nil => cases result <;> exact .ended rfl
    | cons f callers =>
      cases result with
      | ok v => exact .resumed
      | error e =>
        obtain ⟨s', h⟩ | ⟨s', f', h⟩ := leave_cases hook vm s f (.error e) callers
        · rw [step, h]
          exact .passedOn
        · rw [step, h]
          exact .gaveUp rfl (.refl vm)
  | unwinding frames =>
    cases frames with
    | nil => exact .ended rfl
    | cons f callers => exact .unwound

end Machine

/-! ### Balance -/

theorem Phase.cases_of_ending? {phase : Phase} {ending : Ending}
    (h : phase.ending? = some ending) :
    (∃ result, phase = .giving result [] ∧ ending = .finished result) ∨
      phase = .unwinding [] ∧ ending = .aborted := by
  cases phase with
  | running f callers => cases h
  | giving result frames =>
    cases frames with
    | nil => exact Or.inl ⟨result, rfl, (Option.some.inj h).symm⟩
    | cons f callers => cases h
  | unwinding frames =>
    cases frames with
    | nil => exact Or.inr ⟨rfl, (Option.some.inj h).symm⟩
    | cons f callers => cases h

theorem Phase.frames_of_ending? {phase : Phase} {ending : Ending}
    (h : phase.ending? = some ending) : phase.frames = [] := by
  obtain ⟨result, rfl, -⟩ | ⟨rfl, -⟩ := cases_of_ending? h <;> rfl

/-- The depth of the machine is the number of active frames, and its limit and its tracing mark are
those of `vm`. -/
structure Vm.Balances (vm vm' : Vm) (phase : Phase) : Prop where
  depth : vm'.depth = phase.frames.length
  limit : vm'.limit = vm.limit
  tracing : vm'.tracing = vm.tracing

section Balance

variable {past vm vm' : Vm} {phase phase' : Phase}

theorem Vm.SameBooks.balances (hbooks : vm.SameBooks vm') (hb : past.Balances vm phase)
    (hframes : phase'.frames.length = phase.frames.length) : past.Balances vm' phase' :=
  ⟨hbooks.depth.trans (hb.depth.trans hframes.symm), hbooks.limit.trans hb.limit,
    hbooks.tracing.trans hb.tracing⟩

theorem Vm.Balances.popFrame (hb : past.Balances vm phase)
    (hframes : phase.frames.length = phase'.frames.length + 1) :
    past.Balances vm.popFrame phase' :=
  ⟨congrArg (· - 1) (hb.depth.trans hframes), hb.limit, hb.tracing⟩

theorem Called.balances {callee : Value} {args : List Value} {callers : List Frame}
    (h : Called vm callee args callers vm' phase') (hb : past.Balances vm phase)
    (hframes : callers.length = phase.frames.length) : past.Balances vm' phase' := by
  cases h with
  | entered | givenUp =>
    exact ⟨congrArg (· + 1) (hb.depth.trans hframes.symm), hb.limit, hb.tracing⟩
  | refused => exact ⟨hb.depth.trans hframes.symm, hb.limit, hb.tracing⟩
  | answered _ _ hbooks => exact hbooks.balances hb hframes

theorem Vm.Balances.move {call? : Option (Value × List Value)} (hb : past.Balances vm phase)
    (h : Move vm phase call? vm' phase') : past.Balances vm' phase' := by
  cases h with
  | ended => exact hb
  | resumed => exact ⟨hb.depth, hb.limit, hb.tracing⟩
  | passedOn | unwound => exact hb.popFrame rfl
  | went hbooks => exact hbooks.balances hb rfl
  | called h =>
    have hb : past.Balances vm.count (.running _ _) := ⟨hb.depth, hb.limit, hb.tracing⟩
    exact h.balances hb rfl
  | left _ hbooks =>
    have hb : past.Balances _ (.running _ _) := hbooks.balances hb rfl
    exact hb.popFrame rfl
  | gaveUp hframes hbooks => exact hbooks.balances hb (congrArg List.length hframes).symm

end Balance

namespace Vm

variable {σ : Type} (hook : Option (Tracer σ))

/-- An operation begins with a call, unless a name has no meaning. -/
theorem called_start (vm : Vm) (s : σ) (request : Request) :
    let m := vm.start hook s request
    (∃ callee args, vm.call? request = some (callee, args) ∧
      Called vm callee args [] m.vm m.phase) ∨
    vm.call? request = none ∧ m.vm = vm ∧
      ∃ e, ¬CutOff (.error e) ∧ m.phase = .giving (.error e) [] := by
  cases request with
  | run id => exact Or.inl ⟨_, _, rfl, Machine.called_enter hook vm s id [] []⟩
  | call callee args => exact Or.inl ⟨_, _, rfl, Machine.called_invoke hook vm s callee args []⟩
  | callGlobal name args =>
    have hresult := (vm.plain_lookup name).not_cutOff
    rw [start, call?]
    cases hlookup : vm.lookup name with
    | ok callee => exact Or.inl ⟨_, _, rfl, Machine.called_invoke hook vm s callee args []⟩
    | error e =>
      rw [hlookup] at hresult
      exact Or.inr ⟨rfl, rfl, e, hresult, rfl⟩

theorem balances_start {vm : Vm} (hdepth : vm.depth = 0) (s : σ) (request : Request) :
    let m := vm.start hook s request
    vm.Balances m.vm m.phase := by
  intro m
  have hb : vm.Balances vm (.unwinding []) := ⟨hdepth, rfl, rfl⟩
  obtain ⟨callee, args, -, h⟩ | ⟨-, hvm, e, -, hphase⟩ := called_start hook vm s request
  · exact h.balances hb rfl
  · rw [hvm, hphase]
    exact ⟨hdepth, rfl, rfl⟩

/-- At every moment of an operation the depth is the number of active frames. -/
theorem balances_iterate {vm : Vm} (hdepth : vm.depth = 0) (s : σ) (request : Request) (n : Nat) :
    let m := (Machine.step hook)^[n] (vm.start hook s request)
    vm.Balances m.vm m.phase := by
  induction n with
  | zero => exact balances_start hook hdepth s request
  | succ n ih =>
    rw [Function.iterate_succ_apply']
    exact ih.move (Machine.move_step hook _)

/-! ### Operations -/

/-- The machine on which an operation begins: a hook is installed for the operation alone. -/
def setUp (vm : Vm) : Vm :=
  match hook with
  | none => vm
  | some _ => vm.installHook

def tearDown (vm : Vm) : Vm :=
  match hook with
  | none => vm
  | some _ => vm.releaseHook

theorem limit_setUp {vm : Vm} : (vm.setUp hook).limit = vm.limit := by cases hook <;> rfl

theorem depth_setUp {vm : Vm} : (vm.setUp hook).depth = vm.depth := by cases hook <;> rfl

theorem calls_setUp {vm : Vm} {callee : Value} {args : List Value} {code : Code} :
    (vm.setUp hook).Calls callee args code ↔ vm.Calls callee args code := by
  cases hook <;> exact Iff.rfl

theorem call?_setUp {vm : Vm} (request : Request) :
    (vm.setUp hook).call? request = vm.call? request := by
  cases hook <;> cases request <;> rfl

/-- Performs an operation, with or without a hook. -/
def operate (vm : Vm) (s : σ) (request : Request) (fuel : Nat) : Option (Run σ) :=
  match hook with
  | none => vm.perform none s request fuel
  | some tracer => vm.trace tracer s request fuel

/-- The running machine after `n` steps of an operation. -/
def stepped (vm : Vm) (s : σ) (request : Request) (n : Nat) : Machine σ :=
  (Machine.step hook)^[n] ((vm.setUp hook).start hook s request)

theorem operate_eq (vm : Vm) (s : σ) (request : Request) (fuel : Nat) :
    vm.operate hook s request fuel =
      let m := vm.stepped hook s request fuel
      m.phase.ending?.map fun ending => ⟨ending, m.vm.tearDown hook, m.tracer⟩ := by
  cases hook with
  | none =>
    rw [operate, perform, Machine.run_eq, Option.map_map]
    rfl
  | some tracer =>
    rw [operate, trace, perform, Machine.run_eq, Option.map_map, Option.map_map]
    rfl

/-- A run that has ended, as the machine after its last step. -/
theorem stepped_of_operate {hook : Option (Tracer σ)} {vm : Vm} {s : σ} {request : Request}
    {fuel : Nat} {r : Run σ} (h : vm.operate hook s request fuel = some r) :
    let m := vm.stepped hook s request fuel
    m.phase.ending? = some r.ending ∧ r.vm = m.vm.tearDown hook ∧ r.tracer = m.tracer := by
  rw [operate_eq] at h
  obtain ⟨ending, hending, rfl⟩ := Option.map_eq_some_iff.mp h
  exact ⟨hending, rfl, rfl⟩

theorem stepped_succ (vm : Vm) (s : σ) (request : Request) (n : Nat) :
    vm.stepped hook s request (n + 1) = (vm.stepped hook s request n).step hook :=
  Function.iterate_succ_apply' ..

theorem stepped_map {τ : Type} {φ : Vm → Vm} (hφ : Overlooked φ)
    (hlimit : ∀ vm, (φ vm).limit = vm.limit) {ψ : σ → τ} {hook : Option (Tracer σ)}
    {hook' : Option (Tracer τ)} (hhook : Mirrors ψ hook hook') {vm : Vm}
    (hsetUp : (φ vm).setUp hook' = φ (vm.setUp hook)) (s : σ) (request : Request) (n : Nat) :
    (φ vm).stepped hook' (ψ s) request n = (vm.stepped hook s request n).map φ ψ := by
  rw [stepped, hsetUp, start_map hφ hhook s fun _ _ _ _ _ => Or.inl (hlimit _)]
  exact Machine.iterate_step_map hφ hhook hlimit n _

theorem balances_stepped {vm : Vm} (hdepth : vm.depth = 0) (s : σ) (request : Request) (n : Nat) :
    let m := vm.stepped hook s request n
    (vm.setUp hook).Balances m.vm m.phase := by
  exact balances_iterate hook ((depth_setUp hook).trans hdepth) s request n

end Vm

end Wordcode
