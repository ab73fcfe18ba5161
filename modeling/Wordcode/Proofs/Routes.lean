import Wordcode.Proofs.Counting

/-! Routes: stretches of an untraced run, with the opcodes that are executed on the way.  There is
one rule for each instruction that goes well, and routes are chained; where a route ends is told
only up to what was counted and logged, so that the calls of a function come back to the machine
that made them.  The route of a whole operation says how it ends, with and without a hook. -/

namespace Wordcode

open Trace

namespace Vm

theorem overlooked_count : Overlooked Vm.count where
  store _ := rfl
  depth _ := rfl
  lookup _ _ := rfl
  execute := execute_map (fun _ _ => rfl) Frame.unseen_id
  call := Builtin.call_map fun _ _ => rfl
  count _ := rfl
  record _ _ := rfl
  pushFrame _ _ := rfl
  popFrame _ := rfl

end Vm

namespace Machine

/-- The two machines differ at most in what was counted and logged, and in whether a hook is
installed. -/
structure Alike (m m' : Machine Unit) : Prop where
  vm : m.vm.fresh = m'.vm.fresh
  phase : m.phase = m'.phase

namespace Alike

variable {m m' m'' : Machine Unit}

theorem refl (m : Machine Unit) : Alike m m := ⟨rfl, rfl⟩

theorem trans (h : Alike m m') (h' : Alike m' m'') : Alike m m'' :=
  ⟨h.vm.trans h'.vm, h.phase.trans h'.phase⟩

theorem iterate_step (h : Alike m m') (n : Nat) :
    Alike ((step none)^[n] m) ((step none)^[n] m') := by
  have hfresh : ∀ m : Machine Unit, (step none)^[n] m =
      ((step none)^[n] (m.mapVm Vm.fresh)).mapVm m.vm.onTopOf := by
    intro m
    rw [← iterate_step_onTopOf]
    show _ = (step none)^[n] ⟨m.vm.onTopOf m.vm.fresh, m.tracer, m.phase⟩
    rw [Vm.onTopOf_fresh]
  have hsame : m.mapVm Vm.fresh = m'.mapVm Vm.fresh := by
    obtain ⟨vm, ⟨⟩, phase⟩ := m
    obtain ⟨vm', ⟨⟩, phase'⟩ := m'
    obtain ⟨hvm, hphase⟩ := h
    dsimp only at hvm hphase
    subst hphase
    exact congrArg (Machine.mk · () phase) hvm
  rw [hfresh m, hfresh m', hsame]
  exact ⟨rfl, rfl⟩

theorem opcodes (h : Alike m m') (n : Nat) : m.opcodes none n = m'.opcodes none n := by
  induction n generalizing m m' with
  | zero => rfl
  | succ n ih =>
    have hstep : Alike (m.step none) (m'.step none) := h.iterate_step 1
    rw [Machine.opcodes, Machine.opcodes, ih hstep, opcode?, opcode?, h.phase]

end Alike

theorem opcodes_add {σ : Type} (hook : Option (Tracer σ)) (n k : Nat) (m : Machine σ) :
    m.opcodes hook (n + k) = m.opcodes hook n ++ ((step hook)^[n] m).opcodes hook k := by
  induction n generalizing m with
  | zero => rw [Nat.zero_add]; rfl
  | succ n ih =>
    rw [Nat.add_right_comm, opcodes, opcodes, ih, List.append_assoc, Function.iterate_succ_apply]

/-- From `m` the run goes to `m'`, but for what is counted and logged, by steps that execute
instructions with the opcodes `ops`. -/
def Goes (m : Machine Unit) (ops : List Opcode) (m' : Machine Unit) : Prop :=
  ∃ n, Alike ((step none)^[n] m) m' ∧ m.opcodes none n = ops

namespace Goes

variable {m m' m'' : Machine Unit} {ops ops' : List Opcode}

theorem refl (m : Machine Unit) : m.Goes [] m := ⟨0, .refl m, rfl⟩

theorem trans (h : m.Goes ops m') (h' : m'.Goes ops' m'') : m.Goes (ops ++ ops') m'' := by
  obtain ⟨n, hm, rfl⟩ := h
  obtain ⟨k, hm', rfl⟩ := h'
  refine ⟨n + k, ?_, ?_⟩
  · rw [Nat.add_comm, Function.iterate_add_apply]
    exact (hm.iterate_step k).trans hm'
  · rw [opcodes_add, hm.opcodes]

theorem alike (h : m.Goes ops m') (h' : Alike m' m'') : m.Goes ops m'' := by
  obtain ⟨n, hm, hops⟩ := h
  exact ⟨n, hm.trans h', hops⟩

theorem of_alike (h : Alike m m') : m.Goes [] m' := (refl m).alike h

/-- A loop of `n` rounds, where `x` is what else a round may leave different. -/
theorem rounds {α : Type} {m : Nat → α → Machine Unit} {ops : Nat → List Opcode} {n : Nat}
    (h : ∀ i < n, ∀ x, ∃ y, (m i x).Goes (ops i) (m (i + 1) y)) (x : α) :
    ∃ y, (m 0 x).Goes ((List.range n).flatMap ops) (m n y) := by
  induction n with
  | zero => exact ⟨x, refl _⟩
  | succ n ih =>
    obtain ⟨y, hy⟩ := ih fun i hi => h i (Nat.lt_succ_of_lt hi)
    obtain ⟨z, hz⟩ := h n (Nat.lt_succ_self n) y
    refine ⟨z, ?_⟩
    rw [List.range_succ, List.flatMap_append, List.flatMap_singleton]
    exact hy.trans hz

end Goes

/-- From `m` the run goes to `m'`, by whatever instructions. -/
def Leads (m m' : Machine Unit) : Prop := ∃ ops, m.Goes ops m'

theorem Goes.leads {m m' : Machine Unit} {ops : List Opcode} (h : m.Goes ops m') : m.Leads m' :=
  ⟨ops, h⟩

theorem Leads.trans {m m' m'' : Machine Unit} (h : m.Leads m') (h' : m'.Leads m'') :
    m.Leads m'' := by
  obtain ⟨ops, h⟩ := h
  obtain ⟨ops', h'⟩ := h'
  exact ⟨ops ++ ops', h.trans h'⟩

/-! ### Instructions -/

/-- The instruction that a frame executes next, on a machine that did not count it yet. -/
theorem goes_execute (vm : Vm) {f : Frame} (callers : List Frame) {op : Opcode} {low : UInt8}
    (h : f.fetch = .ok (op, low)) :
    Goes ⟨vm, (), .running f callers⟩ [op]
      (proceed none () callers (execute op (foldArg f.pending low) vm
        (f.advance op (foldArg f.pending low)))) := by
  refine ⟨1, ?_, ?_⟩
  · show Alike (executeNext none vm () f callers) _
    have hroom : ∀ e : Effect, e.SameRoom Vm.count := by
      intro e
      cases e with
      | call vm' g callee args => exact fun _ _ => Or.inl rfl
      | _ => trivial
    rw [executeNext_none h, Vm.overlooked_count.execute,
      proceed_map Vm.overlooked_count (.refl none) () callers (hroom _)]
    exact ⟨rfl, rfl⟩
  · simp only [opcodes, opcode?, h]
    rfl

end Machine

/-- A frame without events that has come to the instruction at byte `pc`, behind no prefix. -/
def Code.frame (code : Code) (pc : Nat) (locals : Array (Option Value)) (stack : List Value)
    (lasti : Nat) : Frame := { code, locals, stack, pc, lasti }

/-- The code has the instruction with opcode `op` and argument byte `low` at byte `pc`. -/
structure Code.Has (code : Code) (pc : Nat) (op : Opcode) (low : UInt8) : Prop where
  op : code.bytes[pc]? = some op.byte
  low : code.bytes[pc + 1]? = some low

@[simp] theorem toNat_foldArg_zero (low : UInt8) : (foldArg 0 low).toNat = low.toNat := by
  simp [foldArg]

section Frames

variable (code : Code) (pc : Nat) (locals : Array (Option Value)) (stack : List Value)
  (lasti : Nat)

@[simp] theorem Code.code_frame : (code.frame pc locals stack lasti).code = code := rfl

@[simp] theorem Code.locals_frame : (code.frame pc locals stack lasti).locals = locals := rfl

@[simp] theorem Code.stack_frame : (code.frame pc locals stack lasti).stack = stack := rfl

@[simp] theorem Code.push_frame (v : Value) :
    (code.frame pc locals stack lasti).push v = code.frame pc locals (v :: stack) lasti := rfl

end Frames

namespace Machine

section Rules

variable {code : Code} {pc lasti : Nat} {locals : Array (Option Value)} {stack : List Value}
  {low : UInt8} {vm : Vm} {callers : List Frame} {a b v : Value}

theorem goes_of_execute {op : Opcode} {e : Effect} (h : code.Has pc op low)
    (hop : op ≠ .extendedArg)
    (he : execute op (foldArg 0 low) vm (code.frame (pc + 2) locals stack pc) = e) :
    Goes ⟨vm, (), .running (code.frame pc locals stack lasti) callers⟩ [op]
      (proceed none () callers e) := by
  have hfetch : (code.frame pc locals stack lasti).fetch = .ok (op, low) := by
    have hop := h.op
    have hlow := h.low
    simp only [Frame.fetch, Code.frame, hop, hlow, Opcode.ofByte?_byte]
  have hgoes := goes_execute vm callers hfetch
  rw [Frame.advance, if_neg hop] at hgoes
  rw [← he]
  exact hgoes

theorem goes_nop (h : code.Has pc .nop low) :
    Goes ⟨vm, (), .running (code.frame pc locals stack lasti) callers⟩ [.nop]
      ⟨vm, (), .running (code.frame (pc + 2) locals stack pc) callers⟩ :=
  goes_of_execute h (by decide) rfl

theorem goes_loadConst (h : code.Has pc .loadConst low) (hv : code.consts[low.toNat]? = some v) :
    Goes ⟨vm, (), .running (code.frame pc locals stack lasti) callers⟩ [.loadConst]
      ⟨vm, (), .running (code.frame (pc + 2) locals (v :: stack) pc) callers⟩ :=
  goes_of_execute (e := .next vm _) h (by decide) (by simp [execute, hv])

theorem goes_loadFast (h : code.Has pc .loadFast low) (hv : locals[low.toNat]? = some (some v)) :
    Goes ⟨vm, (), .running (code.frame pc locals stack lasti) callers⟩ [.loadFast]
      ⟨vm, (), .running (code.frame (pc + 2) locals (v :: stack) pc) callers⟩ :=
  goes_of_execute (e := .next vm _) h (by decide) (by simp [execute, hv])

theorem goes_storeFast (h : code.Has pc .storeFast low) (hslot : low.toNat < locals.size) :
    Goes ⟨vm, (), .running (code.frame pc locals (v :: stack) lasti) callers⟩ [.storeFast]
      ⟨vm, (), .running (code.frame (pc + 2) (locals.setIfInBounds low.toNat (some v)) stack pc)
        callers⟩ :=
  goes_of_execute (e := .next vm _) h (by decide) (by simp [execute, hslot]; rfl)

theorem goes_loadGlobal {name : String} {r : Except Fault Value} (h : code.Has pc .loadGlobal low)
    (hname : code.names[low.toNat]? = some name) (hr : vm.lookup name = r) :
    Goes ⟨vm, (), .running (code.frame pc locals stack lasti) callers⟩ [.loadGlobal]
      (proceed none () callers (.give vm (code.frame (pc + 2) locals stack pc) stack r)) :=
  goes_of_execute h (by decide) (by simp [execute, hname, hr])

theorem goes_storeGlobal {name : String} (h : code.Has pc .storeGlobal low)
    (hname : code.names[low.toNat]? = some name) :
    Goes ⟨vm, (), .running (code.frame pc locals (v :: stack) lasti) callers⟩ [.storeGlobal]
      ⟨vm.define name v, (), .running (code.frame (pc + 2) locals stack pc) callers⟩ :=
  goes_of_execute (e := .next _ _) h (by decide) (by simp [execute, hname]; rfl)

theorem goes_binaryAdd {r : Except Fault Value} (h : code.Has pc .binaryAdd low)
    (hr : a.add b = r) :
    Goes ⟨vm, (), .running (code.frame pc locals (b :: a :: stack) lasti) callers⟩ [.binaryAdd]
      (proceed none () callers (.give vm (code.frame (pc + 2) locals (b :: a :: stack) pc) stack
        r)) :=
  goes_of_execute h (by decide) (by simp [execute, hr])

theorem goes_binarySubtract {r : Except Fault Value} (h : code.Has pc .binarySubtract low)
    (hr : a.subtract b = r) :
    Goes ⟨vm, (), .running (code.frame pc locals (b :: a :: stack) lasti) callers⟩
      [.binarySubtract]
      (proceed none () callers (.give vm (code.frame (pc + 2) locals (b :: a :: stack) pc) stack
        r)) :=
  goes_of_execute h (by decide) (by simp [execute, hr])

theorem goes_binarySubscr {r : Except Fault Value} (h : code.Has pc .binarySubscr low)
    (hr : a.subscript vm.store b = r) :
    Goes ⟨vm, (), .running (code.frame pc locals (b :: a :: stack) lasti) callers⟩ [.binarySubscr]
      (proceed none () callers (.give vm (code.frame (pc + 2) locals (b :: a :: stack) pc) stack
        r)) :=
  goes_of_execute h (by decide) (by simp [execute, hr])

theorem goes_storeSubscr {id : MapId} {k : MapKey} (h : code.Has pc .storeSubscr low)
    (hentry : a.entry b .noItemAssignment = .ok (id, k)) :
    Goes ⟨vm, (), .running (code.frame pc locals (b :: a :: v :: stack) lasti) callers⟩
      [.storeSubscr]
      ⟨vm.insert id k v, (), .running (code.frame (pc + 2) locals stack pc) callers⟩ :=
  goes_of_execute (e := .next _ _) h (by decide) (by simp [execute, hentry]; rfl)

theorem goes_buildMap (h : code.Has pc .buildMap low) :
    Goes ⟨vm, (), .running (code.frame pc locals stack lasti) callers⟩ [.buildMap]
      ⟨(vm.addMap ∅).2, (),
        .running (code.frame (pc + 2) locals (.map (vm.addMap ∅).1 :: stack) pc) callers⟩ :=
  goes_of_execute (e := .next _ _) h (by decide) rfl

theorem goes_compareOp {op : Comparison} {r : Bool} (h : code.Has pc .compareOp low)
    (hop : Comparison.ofCode? (foldArg 0 low) = some op) (hr : Value.compare op a b = .ok r) :
    Goes ⟨vm, (), .running (code.frame pc locals (b :: a :: stack) lasti) callers⟩ [.compareOp]
      ⟨vm, (), .running (code.frame (pc + 2) locals (.bool r :: stack) pc) callers⟩ :=
  goes_of_execute (e := .next vm _) h (by decide) (by simp [execute, hop, hr]; rfl)

theorem goes_popJumpIfFalse (h : code.Has pc .popJumpIfFalse low) :
    Goes ⟨vm, (), .running (code.frame pc locals (v :: stack) lasti) callers⟩ [.popJumpIfFalse]
      ⟨vm, (), .running (code.frame (if vm.store.truthy v then pc + 2 else low.toNat * 2) locals
        stack pc) callers⟩ := by
  by_cases hv : vm.store.truthy v
  · rw [if_pos hv]
    exact goes_of_execute (e := .next vm _) h (by decide) (by simp [execute, hv]; rfl)
  · rw [if_neg hv]
    exact goes_of_execute (e := .jump vm (code.frame (pc + 2) locals stack pc) low.toNat) h
      (by decide) (by simp [execute, hv]; rfl)

theorem goes_popJumpIfTrue (h : code.Has pc .popJumpIfTrue low) :
    Goes ⟨vm, (), .running (code.frame pc locals (v :: stack) lasti) callers⟩ [.popJumpIfTrue]
      ⟨vm, (), .running (code.frame (if vm.store.truthy v then low.toNat * 2 else pc + 2) locals
        stack pc) callers⟩ := by
  by_cases hv : vm.store.truthy v
  · rw [if_pos hv]
    exact goes_of_execute (e := .jump vm (code.frame (pc + 2) locals stack pc) low.toNat) h
      (by decide) (by simp [execute, hv]; rfl)
  · rw [if_neg hv]
    exact goes_of_execute (e := .next vm _) h (by decide) (by simp [execute, hv]; rfl)

theorem goes_jumpAbsolute (h : code.Has pc .jumpAbsolute low) :
    Goes ⟨vm, (), .running (code.frame pc locals stack lasti) callers⟩ [.jumpAbsolute]
      ⟨vm, (), .running (code.frame (low.toNat * 2) locals stack pc) callers⟩ :=
  goes_of_execute (e := .jump vm (code.frame (pc + 2) locals stack pc) low.toNat) h (by decide)
    (by simp [execute])

theorem goes_getIter {id : RangeId} (h : code.Has pc .getIter low) :
    Goes ⟨vm, (), .running (code.frame pc locals (.range id :: stack) lasti) callers⟩ [.getIter]
      ⟨vm, (), .running (code.frame (pc + 2) locals (.range id :: stack) pc) callers⟩ :=
  goes_of_execute (e := .next vm _) h (by decide) rfl

theorem goes_forIter_next {id : RangeId} {i : Int64} {r : Range} (h : code.Has pc .forIter low)
    (hpull : (vm.store.range id).pull = some (i, r)) :
    Goes ⟨vm, (), .running (code.frame pc locals (.range id :: stack) lasti) callers⟩ [.forIter]
      ⟨{ vm with store := vm.store.setRange id r }, (),
        .running (code.frame (pc + 2) locals (.int i :: .range id :: stack) pc) callers⟩ :=
  goes_of_execute (e := .next _ _) h (by decide) (by simp [execute, hpull])

theorem goes_forIter_done {id : RangeId} (h : code.Has pc .forIter low)
    (hpull : (vm.store.range id).pull = none) :
    Goes ⟨vm, (), .running (code.frame pc locals (.range id :: stack) lasti) callers⟩ [.forIter]
      ⟨vm, (), .running (code.frame (low.toNat * 2) locals stack pc) callers⟩ :=
  goes_of_execute (e := .jump vm (code.frame (pc + 2) locals stack pc) low.toNat) h (by decide)
    (by simp [execute, hpull]; rfl)

theorem goes_callFunction {callee : Value} {rest : List Value} (h : code.Has pc .callFunction low)
    (hstack : stack.drop low.toNat = callee :: rest) :
    Goes ⟨vm, (), .running (code.frame pc locals stack lasti) callers⟩ [.callFunction]
      (invoke none vm () callee (stack.take low.toNat).reverse
        (code.frame (pc + 2) locals rest pc :: callers)) :=
  goes_of_execute (e := .call vm _ callee _) h (by decide) (by simp [execute, hstack]; rfl)

theorem goes_returnValue (h : code.Has pc .returnValue low) :
    Goes ⟨vm, (), .running (code.frame pc locals (v :: stack) lasti) callers⟩ [.returnValue]
      ⟨vm.popFrame, (), .giving (.ok v) callers⟩ :=
  goes_of_execute (e := .leave vm _ (.ok v)) h (by decide) rfl

theorem goes_given :
    Goes ⟨vm, (), .giving (.ok v) (code.frame pc locals stack lasti :: callers)⟩ []
      ⟨vm, (), .running (code.frame pc locals (v :: stack) lasti) callers⟩ :=
  ⟨1, ⟨rfl, rfl⟩, rfl⟩

theorem goes_passedOn {e : Fault} :
    Goes ⟨vm, (), .giving (.error e) (code.frame pc locals stack lasti :: callers)⟩ []
      ⟨vm.popFrame, (), .giving (.error e) callers⟩ :=
  ⟨1, ⟨rfl, rfl⟩, rfl⟩

/-- A function with as many arguments as it takes, and room for its frame, begins. -/
theorem enter_eq_running {args : List Value} (hargs : args.length = code.argcount)
    (hroom : vm.depth < vm.limit) :
    enter none vm () code args callers =
      ⟨vm.pushFrame code.name, (), .running (code.frame 0 (Frame.enter code args).locals [] 0)
        callers⟩ :=
  enter_of_lt_limit hargs hroom

theorem alike_popFrame_pushFrame {name : String} {phase : Phase} :
    Alike ⟨(vm.pushFrame name).popFrame, (), phase⟩ ⟨vm, (), phase⟩ := ⟨rfl, rfl⟩

theorem alike_record {e : Log.Event} {phase : Phase} :
    Alike ⟨vm.record e, (), phase⟩ ⟨vm, (), phase⟩ := ⟨rfl, rfl⟩

end Rules

end Machine

/-! ### Whole runs -/

namespace Vm

open Machine

/-- An operation that ends within so many steps ends alike when it is given more. -/
theorem perform_of_le {σ : Type} {hook : Option (Tracer σ)} {vm : Vm} {s : σ} {request : Request}
    {n fuel : Nat} {r : Run σ} (h : vm.perform hook s request n = some r) (hle : n ≤ fuel) :
    vm.perform hook s request fuel = some r := by
  obtain ⟨k, rfl⟩ := Nat.exists_eq_add_of_le hle
  rw [perform, run_eq, Option.map_map] at h ⊢
  obtain ⟨ending, hending, hr⟩ := Option.map_eq_some_iff.mp h
  rw [Nat.add_comm, Function.iterate_add_apply, iterate_step_of_ending? hending, hending]
  exact congrArg some hr

theorem execute_of_le {vm : Vm} {request : Request} {n fuel : Nat} {r : Run Unit}
    (h : vm.execute request n = some r) (hle : n ≤ fuel) : vm.execute request fuel = some r :=
  perform_of_le h hle

theorem trace_of_le {σ : Type} {hook : Tracer σ} {vm : Vm} {s : σ} {request : Request}
    {n fuel : Nat} {r : Run σ} (h : vm.trace hook s request n = some r) (hle : n ≤ fuel) :
    vm.trace hook s request fuel = some r := by
  obtain ⟨r', hr', hr⟩ := Option.map_eq_some_iff.mp h
  rw [trace, perform_of_le hr' hle, Option.map_some, hr]

theorem alike_start {vm vm' : Vm} (h : vm.fresh = vm'.fresh) (request : Request) :
    Alike (vm.start none () request) (vm'.start none () request) := by
  have hfresh : ∀ vm : Vm, vm.start none () request =
      (vm.fresh.start none () request).mapVm vm.onTopOf := by
    intro vm
    rw [← start_onTopOf, onTopOf_fresh]
  rw [hfresh vm, hfresh vm', h]
  exact ⟨rfl, rfl⟩

section Operations

variable {vm vm' : Vm} {request : Request} {ops : List Opcode} {result : Except Fault Value}
  (h : (vm.start none () request).Goes ops ⟨vm', (), .giving result []⟩)
include h

/-- An operation under a counting tracer, by the route that it takes without one. -/
theorem trace_of_goes {σ : Type} {hook : Tracer σ} {tally : σ → Trace.Histogram}
    (htally : hook.Tallies tally) (s : σ) :
    ∃ fuel r, vm.trace hook s request fuel = some r ∧ r.ending = .finished result ∧
      r.vm.executed = vm.executed + ops.length ∧
      tally r.tracer = (ops.map Opcode.name).foldl Trace.Histogram.record (tally s) := by
  have hcalm := htally.neverAborts
  obtain ⟨n, hplain, hops⟩ := h
  have hfresh : vm.installHook.fresh = vm.fresh := rfl
  have htraced : (vm.installHook.start (some hook) s request).opcodes (some hook) n = ops := by
    rw [← opcodes_untraced hcalm, untraced_start hcalm, (alike_start hfresh request).opcodes, hops]
  have hphase : ((step (some hook))^[n]
      (vm.installHook.start (some hook) s request)).phase.ending? = some (.finished result) := by
    rw [← Phase.ending?_untraced, (vm.lockstep hcalm s request n).2, hplain.phase]
    rfl
  have hrun : ∃ r, vm.trace hook s request n = some r ∧ r.ending = .finished result := by
    simp only [trace, perform, run_eq, hphase, Option.map_some]
    exact ⟨_, rfl, rfl⟩
  obtain ⟨r, hr, hending⟩ := hrun
  obtain ⟨hexecuted, hhistogram⟩ := vm.tally_of_trace htally s request hr
  rw [htraced] at hexecuted hhistogram
  exact ⟨n, r, hr, hending, hexecuted, hhistogram⟩

theorem execute_of_goes :
    ∃ fuel r, vm.execute request fuel = some r ∧ r.ending = .finished result ∧
      r.vm.fresh = vm'.fresh ∧ r.vm.executed = vm.executed + ops.length := by
  -- The counter of the machine is that of the run under a hook, which counts the opcodes.
  obtain ⟨k, r', hr', -, hexecuted, -⟩ := trace_of_goes h Trace.tallies_opcodeCounter {}
  obtain ⟨n, hplain, -⟩ := h
  have hr : vm.execute request n = some ⟨.finished result,
      ((step none)^[n] (vm.start none () request)).vm, ()⟩ := by
    rw [execute, perform, run_eq, hplain.phase]
    rfl
  refine ⟨n, _, hr, rfl, hplain.vm, ?_⟩
  have hsame := vm.map_trace Trace.tallies_opcodeCounter.neverAborts {} request (max n k)
  rw [trace_of_le hr' (Nat.le_max_right n k), execute_of_le hr (Nat.le_max_left n k)] at hsame
  rw [← hexecuted]
  exact congrArg (fun p => p.2.executed) (Option.some.inj hsame.symm)

end Operations
end Vm
end Wordcode
