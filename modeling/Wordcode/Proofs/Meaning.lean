import Wordcode.Proofs.Items
import Wordcode.Proofs.Reachable

/-! Assembling preserves meaning: the machine that executes built code goes the way of the symbolic
machine that executes its items.  A step of the symbolic machine is a step of the other one, and one
more for each prefix of the item; all else that the two hold is the same, but for the place that a
frame has come to. -/

namespace Wordcode

/-- The functions that an operation can come by are assembled from the given sources. -/
def Sources.Describe (sources : Sources) (past : Vm) (request : Request) : Prop :=
  ∀ id, past.Reaches request (.function id) → (sources id).Assembles (past.store.code id)

theorem Sources.Describe.consts {sources : Sources} {past : Vm} {request : Request}
    (h : sources.Describe past request) (id : FunctionId)
    (hid : past.Reaches request (.function id)) :
    (sources id).tables.consts = (past.store.code id).consts :=
  (h id hid).sameTables.consts.symm

/-- The number of instructions that items take on a machine: one for each, and its prefixes. -/
def Vm.cost (past : Vm) (stepped : List (FunctionId × Nat)) : Nat :=
  stepped.length + (stepped.map fun (id, k) => (past.store.code id).prefixCount k).sum

theorem Vm.cost_append (past : Vm) (before after : List (FunctionId × Nat)) :
    past.cost (before ++ after) = past.cost before + past.cost after := by
  simp only [cost, List.length_append, List.map_append, List.sum_append]
  omega

theorem Vm.unseen_withExecuted (n : Nat) : Vm.Unseen (Vm.withExecuted · n) := fun _ _ => rfl

theorem Vm.code_of_confined {past vm : Vm} {request : Request} (h : past.Confined request vm)
    (id : FunctionId) : vm.store.code id = past.store.code id := by
  rw [Store.code, Store.code, h.functions]

theorem Fault.at_at (e : Fault) (offset offset' : Nat) :
    (e.at offset).at offset' = e.at offset' := by
  cases e <;> rfl

theorem Item.At.argument_eq {item : Item} {d : Draft} {code : Code} {place units : Nat}
    {arg : UInt32} (h : item.At d code place units arg) :
    arg = item.operand.argument ∨ ∃ id, item.operand = .label id := by
  have hdecodes := h.decodes.2
  cases hoperand : item.operand with
  | label id => exact Or.inr ⟨id, rfl⟩
  | _ =>
    rw [hoperand] at hdecodes
    exact Or.inl hdecodes

/-- A jump's argument is the place of the item that its label is bound to. -/
theorem Item.At.places_target {item : Item} {d : Draft} {code : Code} {place units : Nat}
    {arg : UInt32} (h : item.At d code place units arg) {id : Nat}
    (hoperand : item.operand = .label id) :
    code.places[d.target item.operand]? = some arg.toNat := by
  have hdecodes := h.decodes.2
  rw [hoperand] at hdecodes ⊢
  obtain ⟨k, hlabel, hplace⟩ := hdecodes
  rw [Draft.target, Array.getD_eq_getD_getElem?, hlabel]
  exact hplace

namespace Symbolic

/-! ### Agreement -/

/-- The frame `f` is that of the activation `a`: it executes the function's code, has come to the
place of the next item, and has the same operands and locals. -/
structure Activation.Agrees (past : Vm) (a : Activation) (f : Frame) : Prop where
  code : f.code = past.store.code a.function
  place : ∃ place, f.code.places[a.item]? = some place ∧ f.pc = 2 * place
  pending : f.pending = 0
  stack : f.stack = a.stack
  locals : f.locals = a.locals

/-- The same result, but for a byte offset that the text of a fault quotes. -/
def SameResult (result result' : Except Fault Value) : Prop :=
  result'.mapError (Fault.at 0) = result.mapError (Fault.at 0)

inductive Phase.Agrees (past : Vm) : Phase → Wordcode.Phase → Prop
  | running {a : Activation} {f : Frame} {callers : List Activation} {frames : List Frame} :
      a.Agrees past f → List.Forall₂ (Activation.Agrees past) callers frames →
      Agrees past (.running a callers) (.running f frames)
  | giving {result result' : Except Fault Value} {callers : List Activation}
      {frames : List Frame} :
      SameResult result result' → List.Forall₂ (Activation.Agrees past) callers frames →
      Agrees past (.giving result callers) (.giving result' frames)

/-- The machine `m` is in the state `s`, and has executed `n` instructions. -/
structure State.Agrees (past : Vm) (n : Nat) (s : State) (m : Machine Unit) : Prop where
  vm : m.vm = s.vm.withExecuted n
  phase : s.phase.Agrees past m.phase

section

variable {past vm : Vm} {sources : Sources} {n : Nat} {callers : List Activation}
  {frames : List Frame} (hcallers : List.Forall₂ (Activation.Agrees past) callers frames)
include hcallers

theorem agrees_enter {id : FunctionId} (hsource : (sources id).Assembles (past.store.code id))
    (args : List Value) :
    (enter sources vm id args callers).Agrees past n
      (Machine.enter none (vm.withExecuted n) () (past.store.code id) args frames) := by
  have hname := hsource.sameTables.name
  have hvarnames := hsource.sameTables.varnames
  have hlocals : (Frame.enter (past.store.code id) args).locals =
      (Frame.enter (sources id).tables args).locals := by
    rw [Frame.enter, Frame.enter, Code.nlocals, Code.nlocals, hvarnames]
  unfold enter
  dsimp only
  rw [← hsource.argcount_eq, ← hname]
  by_cases hargs : args.length = (past.store.code id).argcount
  · rw [if_neg (not_not_intro hargs)]
    rcases Nat.lt_or_ge vm.depth vm.limit with hlimit | hlimit
    · have hlimit' : (vm.withExecuted n).depth < (vm.withExecuted n).limit := hlimit
      rw [if_neg (Nat.not_le.mpr hlimit), Machine.enter_of_lt_limit hargs hlimit']
      exact ⟨rfl, .running ⟨rfl, ⟨0, rfl, rfl⟩, rfl, rfl, hlocals⟩ hcallers⟩
    · have hlimit' : (vm.withExecuted n).limit ≤ (vm.withExecuted n).depth := hlimit
      rw [if_pos hlimit, Machine.enter_of_limit_le hargs hlimit']
      exact ⟨rfl, .giving rfl hcallers⟩
  · rw [if_pos hargs, Machine.enter_of_length_ne hargs]
    exact ⟨rfl, .giving rfl hcallers⟩

theorem agrees_invoke {request : Request} (hsources : sources.Describe past request)
    (hvm : past.Confined request vm) {callee : Value} (hcallee : past.Holds request callee)
    (args : List Value) :
    (invoke sources vm callee args callers).Agrees past n
      (Machine.invoke none (vm.withExecuted n) () callee args frames) := by
  cases callee with
  | function id =>
    have hcode : (vm.withExecuted n).store.code id = past.store.code id :=
      Vm.code_of_confined hvm id
    rw [Machine.invoke, hcode]
    exact agrees_enter hcallers (hsources id hcallee) args
  | builtin b =>
    rw [Machine.invoke, Builtin.call_map (Vm.unseen_withExecuted n)]
    exact ⟨rfl, .giving rfl hcallers⟩
  | _ => exact ⟨rfl, .giving rfl hcallers⟩

theorem agrees_proceed {request : Request} (hsources : sources.Describe past request)
    {a : Activation} (ha : past.Reaches request (.function a.function)) {item : Item}
    (hitem : (sources a.function).draft.items[a.item]? = some item) {place units : Nat}
    {arg : UInt32} (hnext : (past.store.code a.function).places[a.item + 1]? = some (place + units))
    (hat : item.At (sources a.function).draft (past.store.code a.function) place units arg)
    {e : Effect} (he : Wordcode.execute item.op item.operand.argument vm (a.frame sources) = e)
    (hconfined : e.Confined past request) {f : Frame}
    (hcode : f.code = past.store.code a.function) (hpc : f.pc = 2 * (place + units))
    (hpending : f.pending = 0) :
    (proceed sources a item callers e).Agrees past n
      (Machine.proceed none () frames (e.onto (vm.withExecuted n) f arg.toNat)) := by
  have hvm : e.vm = vm.withData e.vm.data := by
    rw [← he]
    exact vm_execute _ _ _ _
  have hdata : (vm.withExecuted n).withData e.vm.data = e.vm.withExecuted n := by
    rw [hvm]
    rfl
  have hgoTo : ∀ g : Frame, (a.goTo (a.item + 1) g).Agrees past
      (f.withOperands g.stack g.locals) :=
    fun g => ⟨hcode, ⟨place + units, hcode ▸ hnext, hpc⟩, hpending, rfl, rfl⟩
  cases e with
  | next vm' g => exact ⟨hdata, .running (hgoTo g) hcallers⟩
  | jump vm' g target =>
    obtain ⟨id, hlabel⟩ := (hsources _ ha).exists_label_of_isJump
      (Array.mem_toList_iff.mpr (Array.mem_of_getElem? hitem)) (isJump_of_execute he)
    have htarget := hat.places_target hlabel
    refine ⟨hdata, .running ⟨hcode, ⟨arg.toNat, ?_, Nat.mul_comm _ _⟩, hpending, rfl, rfl⟩ hcallers⟩
    show f.code.places[_]? = _
    rw [hcode]
    exact htarget
  | call vm' g callee args =>
    obtain ⟨hvm', -, hcallee, -⟩ := hconfined
    have hinvoke := agrees_invoke (n := n) (.cons (hgoTo g) hcallers) hsources hvm' hcallee args
    have hdata' : (vm.withExecuted n).withData vm'.data = vm'.withExecuted n := hdata
    rw [← hdata'] at hinvoke
    exact hinvoke
  | leave vm' g result =>
    have hsame : SameResult result (result.mapError (Fault.at f.lasti)) := by
      cases result with
      | ok v => rfl
      | error cause => exact congrArg Except.error (cause.at_at _ _)
    rw [Effect.onto, Machine.proceed, Machine.leave_none]
    exact ⟨congrArg Vm.popFrame hdata, .giving hsame hcallers⟩

/-- The steps of an item, in built code and in its source. -/
theorem agrees_executeItem {request : Request} (hsources : sources.Describe past request)
    (hvm : past.Confined request vm) {a : Activation} (ha : a.Confined past request) {f : Frame}
    (hf : a.Agrees past f) {item : Item}
    (hitem : (sources a.function).draft.items[a.item]? = some item) :
    (executeItem sources vm a callers).Agrees past (n + past.cost [(a.function, a.item)])
      ((Machine.step none)^[past.cost [(a.function, a.item)]]
        ⟨vm.withExecuted n, (), .running f frames⟩) := by
  have hsource := hsources _ ha.function
  obtain ⟨place, units, arg, hplace, hnext, hcount, hat⟩ := hsource.exists_at hitem
  obtain ⟨rest, hbytes⟩ := hat.bytes
  have hcost : past.cost [(a.function, a.item)] = units := by
    rw [← hcount]
    simp [Vm.cost, Nat.add_comm]
  have hpc : f.pc = 2 * place := by
    obtain ⟨place', hplace', hpc⟩ := hf.place
    rw [hf.code, hplace] at hplace'
    rw [hpc, Option.some.inj hplace']
  rw [← hf.code, ← hpc] at hbytes
  obtain ⟨lasti, hrun⟩ := Machine.iterate_item (vm.withExecuted n) frames hat.op hat.room
    hf.pending hbytes
  let g : Frame := { f with pc := f.pc + 2 * units, lasti }
  have hg : g.withOperands (a.frame sources).stack (a.frame sources).locals = g := by
    show ({ g with stack := a.stack, locals := a.locals } : Frame) = g
    rw [← hf.stack, ← hf.locals]
  have htables : (a.frame sources).code.SameTables g.code := by
    show (sources a.function).tables.SameTables f.code
    rw [hf.code]
    exact hsource.sameTables
  have harg : arg = item.operand.argument ∨ item.op.isJump = true := by
    rcases hat.argument_eq with hsame | ⟨id, hlabel⟩
    · exact Or.inl hsame
    · exact Or.inr (hsource.isJump_of_label
        (Array.mem_toList_iff.mpr (Array.mem_of_getElem? hitem)) hlabel)
  have heffect : Wordcode.execute item.op arg (vm.withExecuted (n + units)) g =
      (Wordcode.execute item.op item.operand.argument vm (a.frame sources)).onto
        (vm.withExecuted (n + units)) g arg.toNat := by
    rw [← execute_onto vm (vm.withExecuted (n + units)) htables harg, hg]
    rfl
  have hframe := ha.frame hsources.consts
  rw [hcost, hrun, executeItem, hitem]
  show State.Agrees past _ _ (Machine.proceed none () frames (Wordcode.execute item.op arg
    (vm.withExecuted (n + units)) g))
  rw [heffect]
  exact agrees_proceed hcallers hsources ha.function hitem hnext hat rfl
    (execute_confined hvm hframe _ _) hf.code (by rw [Nat.mul_add, ← hpc]) hf.pending

end

/-! ### Runs -/

variable {past : Vm} {request : Request} {sources : Sources} {n : Nat}

/-- A frame that has come to the place behind the last item is past the end of its code. -/
theorem fetch_of_agrees {a : Activation} {f : Frame} (hf : a.Agrees past f)
    (hsource : (sources a.function).Assembles (past.store.code a.function))
    (hitem : (sources a.function).draft.items[a.item]? = none) :
    f.fetch = .error (.pastEnd (sources a.function).tables.name f.pc) := by
  obtain ⟨place, hplace, hpc⟩ := hf.place
  rw [hf.code] at hplace
  have hlast : a.item = (sources a.function).draft.items.size := by
    have hge := Array.getElem?_eq_none_iff.mp hitem
    have hle := hsource.le_of_places hplace
    omega
  rw [hlast] at hplace
  have hsize := hsource.size_bytes_eq hplace
  rw [← hsource.sameTables.name, ← hf.code]
  apply Frame.fetch_of_size_le
  rw [hf.code]
  omega

/-- One step of the symbolic machine is one or more steps in built code: one for what it steps over,
and one for each prefix. -/
theorem State.Agrees.step (hsources : sources.Describe past request) {s : State}
    (hs : s.Confined past request) {m : Machine Unit} (h : s.Agrees past n m) :
    ∃ k, 1 ≤ k ∧ (step sources s).Agrees past (n + past.cost (s.item? sources).toList)
      ((Machine.step none)^[k] m) := by
  obtain ⟨vm, phase⟩ := s
  obtain ⟨vm', ⟨⟩, phase'⟩ := m
  obtain ⟨hvm, hphase⟩ := h
  dsimp only at hvm hphase
  subst hvm
  cases hphase with
  | running hf hcallers =>
    rename_i a f callers frames
    obtain ⟨ha, -⟩ := List.forall_mem_cons.mp hs.activations
    cases hitem : (sources a.function).draft.items[a.item]? with
    | some item =>
      obtain ⟨hlt, -⟩ := Array.getElem?_eq_some_iff.mp hitem
      refine ⟨past.cost [(a.function, a.item)], ?_, ?_⟩
      · exact Nat.le_add_right 1 _
      · have hstepped : State.item? sources ⟨vm, .running a callers⟩ = some (a.function, a.item) :=
          if_pos hlt
        rw [hstepped]
        exact agrees_executeItem hcallers hsources hs.vm ha hf hitem
    | none =>
      have hfetch := fetch_of_agrees hf (hsources _ ha.function) hitem
      have hstepped : State.item? sources ⟨vm, .running a callers⟩ = none :=
        if_neg (Nat.not_lt.mpr (Array.getElem?_eq_none_iff.mp hitem))
      refine ⟨1, Nat.le_refl 1, ?_⟩
      rw [hstepped]
      show (executeItem sources vm a callers).Agrees past n
        (Machine.executeNext none (vm.withExecuted n) () f frames)
      rw [executeItem, hitem, Machine.executeNext_of_error hfetch, Machine.leave_none]
      exact ⟨rfl, .giving rfl hcallers⟩
  | giving hresult hcallers =>
    rename_i result result' callers frames
    refine ⟨1, Nat.le_refl 1, ?_⟩
    cases hcallers with
    | nil => cases result <;> cases result' <;> exact ⟨rfl, .giving hresult .nil⟩
    | cons hf hcallers =>
      cases result with
      | ok v =>
        cases result' with
        | error e => cases hresult
        | ok v' =>
          cases hresult
          exact ⟨rfl, .running ⟨hf.code, hf.place, hf.pending, congrArg _ hf.stack, hf.locals⟩
            hcallers⟩
      | error e =>
        cases result' with
        | ok v => cases hresult
        | error e' =>
          rename_i a f callers frames
          show State.Agrees past n _ (Machine.leave none _ () f (.error e') frames)
          rw [Machine.leave_none]
          exact ⟨rfl, .giving hresult hcallers⟩

theorem State.Agrees.iterate_step (hsources : sources.Describe past request) (fuel : Nat)
    {s : State} (hs : s.Confined past request) {m : Machine Unit} (h : s.Agrees past n m) :
    ∃ k, fuel ≤ k ∧
      ((Symbolic.step sources)^[fuel] s).Agrees past (n + past.cost (s.items sources fuel))
        ((Machine.step none)^[k] m) := by
  induction fuel generalizing s m n with
  | zero => exact ⟨0, Nat.le_refl 0, h⟩
  | succ fuel ih =>
    obtain ⟨k, hk, hstep⟩ := h.step hsources hs
    obtain ⟨l, hl, hrest⟩ := ih (hs.step hsources.consts) hstep
    refine ⟨l + k, by omega, ?_⟩
    rw [Function.iterate_succ_apply, Function.iterate_add_apply, State.items, Vm.cost_append,
      ← Nat.add_assoc]
    exact hrest

theorem agrees_start (hsources : sources.Describe past request) :
    (start sources past request).Agrees past past.executed (past.start none () request) := by
  have hvm := past.confined_self request
  cases request with
  | run id => exact agrees_enter .nil (hsources id (.root List.mem_cons_self)) []
  | call callee args =>
    exact agrees_invoke .nil hsources hvm (Vm.Reaches.root List.mem_cons_self).holds args
  | callGlobal name args =>
    rw [start, Vm.start]
    cases hcallee : past.lookup name with
    | ok callee => exact agrees_invoke .nil hsources hvm (hvm.holds_of_lookup hcallee) args
    | error e => exact ⟨rfl, .giving rfl .nil⟩

/-- A run in built code ends as the symbolic run does: with the same value, or the same fault but
for a byte offset in its text, and with the same machine, which has executed one instruction for
each item that was stepped through, and its prefixes. -/
structure Outcome.Agrees (past : Vm) (o : Outcome) (r : Run Unit) : Prop where
  result : ∃ result, r.ending = .finished result ∧ SameResult o.result result
  vm : r.vm = o.vm.withExecuted (past.executed + past.cost o.stepped)

theorem Phase.Agrees.ending? {phase : Phase} {phase' : Wordcode.Phase}
    (h : phase.Agrees past phase') :
    (phase.result? = none ∧ phase'.ending? = none) ∨
      ∃ result result', phase.result? = some result ∧
        phase'.ending? = some (.finished result') ∧ SameResult result result' := by
  cases h with
  | running hf hcallers => exact Or.inl ⟨rfl, rfl⟩
  | giving hresult hcallers =>
    cases hcallers with
    | nil => exact Or.inr ⟨_, _, rfl, rfl, hresult⟩
    | cons hf hcallers => exact Or.inl ⟨rfl, rfl⟩

end Symbolic

/-- Assembling preserves meaning.  When all functions that an operation can come by were assembled,
it ends in the code that was built exactly when it ends on the symbolic machine, which executes the
items, and then with the same value or fault and the same machine.  The count of executed
instructions advances by the items that were stepped through and their prefixes. -/
theorem execute_agrees_symbolic {sources : Sources} {vm : Vm} {request : Request}
    (hsources : sources.Describe vm request) :
    (∀ fuel o, Symbolic.execute sources vm request fuel = some o →
      ∃ fuel' r, vm.execute request fuel' = some r ∧ o.Agrees vm r) ∧
    ∀ fuel r, vm.execute request fuel = some r →
      ∃ o, Symbolic.execute sources vm request fuel = some o ∧ o.Agrees vm r := by
  have hrun := fun fuel => (Symbolic.agrees_start hsources).iterate_step hsources fuel
    (Symbolic.confined_start sources vm request)
  constructor
  · intro fuel o ho
    obtain ⟨k, -, hvm, hphase⟩ := hrun fuel
    simp only [Symbolic.execute, Option.map_eq_some_iff] at ho
    obtain ⟨result, hresult, rfl⟩ := ho
    rcases hphase.ending? with ⟨hnone, -⟩ | ⟨result₁, result', hresult', hending, hsame⟩
    · rw [hresult] at hnone
      cases hnone
    · obtain rfl := Option.some.inj (hresult.symm.trans hresult')
      refine ⟨k, ⟨.finished result', _, ()⟩, ?_, ⟨result', rfl, hsame⟩, hvm⟩
      simp only [Vm.execute, Vm.perform, Machine.run_eq, hending]
      rfl
  · intro fuel r hr
    obtain ⟨k, hk, hvm, hphase⟩ := hrun fuel
    simp only [Vm.execute, Vm.perform, Machine.run_eq, Option.map_map,
      Option.map_eq_some_iff] at hr
    obtain ⟨ending, hending, rfl⟩ := hr
    -- The machine has ended after `fuel` steps, so it is the same after the `k` steps.
    have hsame : (Machine.step none)^[k] (vm.start none () request) =
        (Machine.step none)^[fuel] (vm.start none () request) := by
      rw [← Nat.sub_add_cancel hk, Function.iterate_add_apply]
      exact Machine.iterate_step_of_ending? hending (k - fuel)
    rw [hsame] at hvm hphase
    rcases hphase.ending? with ⟨-, hnone⟩ | ⟨result, result', hresult, hending', hsame'⟩
    · rw [hending] at hnone
      cases hnone
    · obtain rfl := Option.some.inj (hending.symm.trans hending')
      refine ⟨⟨result, _, _⟩, ?_, ⟨result', rfl, hsame'⟩, hvm⟩
      rw [Symbolic.execute, hresult]
      rfl

/-- Calls function 1, after a jump over an instruction with two prefixes. -/
def callerSource : Source where
  name := "caller"
  commands :=
    [.newLabel, .emitJump .jumpAbsolute 0, .emitArg .buildMap 70000, .bind 0,
      .loadConst (.function ⟨1⟩), .call 0, .ret]

/-- Executes an instruction with a prefix, and returns 7. -/
def calleeSource : Source where
  name := "callee"
  commands := [.emitArg .buildMap 300, .loadConst (.int 7), .ret]

def sampleSources : Sources := fun id => if id.index = 0 then callerSource else calleeSource

def sampleVm : Vm where
  store.functions :=
    #[⟨"caller", 0, #[], #[], #[.function ⟨1⟩],
        #[15, 4, 21, 1, 21, 17, 11, 112, 2, 0, 18, 0, 19, 0], [⟨0, 1⟩]⟩,
      ⟨"callee", 0, #[], #[], #[.int 7], #[21, 1, 11, 44, 2, 0, 19, 0], [⟨0, 1⟩]⟩]

theorem assembles_callerSource : callerSource.Assembles (sampleVm.store.code ⟨0⟩) where
  build := by
    have hbuild : assemble callerSource.name callerSource.commands =
        .ok (callerSource.draft.toCode #[2] (layout #[2] callerSource.draft.items.toList)) := by
      with_unfolding_all rfl
    rw [hbuild, layout_eq_widen rfl (by decide +kernel)]
    with_unfolding_all rfl
  symbolic := by decide
  size := by decide

theorem assembles_calleeSource : calleeSource.Assembles (sampleVm.store.code ⟨1⟩) where
  build := by
    have hbuild : assemble calleeSource.name calleeSource.commands =
        .ok (calleeSource.draft.toCode #[] (layout #[] calleeSource.draft.items.toList)) := by
      with_unfolding_all rfl
    rw [hbuild, layout_eq_widen rfl (by decide +kernel)]
    with_unfolding_all rfl
  symbolic := by decide
  size := by decide

theorem describe_sampleSources : sampleSources.Describe sampleVm (.run ⟨0⟩) := by
  have hreach : ∀ v, sampleVm.Reaches (.run ⟨0⟩) v →
      v = .function ⟨0⟩ ∨ v = .function ⟨1⟩ ∨ v = .int 7 := by
    intro v hv
    induction hv with
    | root h => exact Or.inl (List.mem_singleton.mp h)
    | global h =>
      rw [sampleVm, Std.HashMap.getElem?_empty] at h
      cases h
    | entry _ _ ih => simp at ih
    | const _ h ih =>
      rcases ih with ih | ih | ih
      · cases ih
        exact Or.inr (Or.inl (Array.mem_singleton.mp h))
      · cases ih
        exact Or.inr (Or.inr (Array.mem_singleton.mp h))
      · cases ih
  intro id hid
  rcases hreach _ hid with h | h | h <;> cases h
  · exact assembles_callerSource
  · exact assembles_calleeSource

theorem execute_agrees_symbolic_sample :
    sampleSources.Describe sampleVm (.run ⟨0⟩) ∧
      ∃ fuel r, sampleVm.execute (.run ⟨0⟩) fuel = some r ∧
        r.ending = .finished (.ok (.int 7)) ∧ r.vm.executed = 8 := by
  refine ⟨describe_sampleSources, ?_⟩
  have hrun : (Symbolic.execute sampleSources sampleVm (.run ⟨0⟩) 9).map
      (fun o => (o.result, o.stepped)) = some (.ok (.int 7),
        [(⟨0⟩, 0), (⟨0⟩, 2), (⟨0⟩, 3), (⟨1⟩, 0), (⟨1⟩, 1), (⟨1⟩, 2), (⟨0⟩, 4)]) := by
    with_unfolding_all rfl
  obtain ⟨o, ho, hsame⟩ := Option.map_eq_some_iff.mp hrun
  obtain ⟨hresult, hstepped⟩ := Prod.mk.inj hsame
  obtain ⟨fuel, r, hr, ⟨result, hending, hvalue⟩, hvm⟩ :=
    (execute_agrees_symbolic describe_sampleSources).1 9 o ho
  rw [hresult] at hvalue
  cases result with
  | error e => cases hvalue
  | ok v =>
    cases hvalue
    refine ⟨fuel, r, hr, hending, ?_⟩
    rw [hvm, hstepped]
    rfl
end Wordcode
