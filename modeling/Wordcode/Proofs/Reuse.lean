import Mathlib.Logic.Relation
import Wordcode.Proofs.Moves

/-! A virtual machine can be used again, however its operations ended: with a value, with a fault in
any frame, or given up by a hook at any event.  After each of them no frame is active and no hook is
installed, and what comes next goes as it would on a machine that never ran anything. -/

namespace Wordcode

open Trace

namespace Vm

/-- No frame is active, and no hook is installed. -/
structure AtRest (vm : Vm) : Prop where
  depth : vm.depth = 0
  tracing : vm.tracing = false

/-- A machine that never ran anything, with the globals, the store, the kind of console and the
limit of `vm`. -/
def renewed (vm : Vm) : Vm where
  globals := vm.globals
  store := vm.store
  console.captures := vm.console.captures
  limit := vm.limit

/-- The machine `vm`, with what it counted, logged and printed after what `past` did. -/
def followedBy (past vm : Vm) : Vm :=
  { vm with
    console.lines := past.console.lines ++ vm.console.lines
    executed := past.executed + vm.executed
    log := past.log ++ vm.log }

theorem AtRest.followedBy_renewed {vm : Vm} (hrest : vm.AtRest) :
    vm.followedBy vm.renewed = vm := by
  obtain ⟨globals, store, console, depth, limit, tracing, executed, log⟩ := vm
  obtain ⟨rfl, rfl⟩ := hrest
  simp [followedBy, renewed]

theorem record_followedBy (past vm : Vm) (e : Log.Event) :
    past.followedBy (vm.record e) = (past.followedBy vm).record e := by
  simp [followedBy, record]

theorem print_followedBy (past vm : Vm) (line : String) :
    past.followedBy (vm.print line) = (past.followedBy vm).print line := by
  simp [followedBy, print]

end Vm

/-! ### Nothing looks back -/

/-- Instructions see nothing of what was printed before, since none of them prints. -/
theorem execute_followedBy (past : Vm) (op : Opcode) (arg : UInt32) (vm : Vm) (f : Frame) :
    execute op arg (past.followedBy vm) f = (execute op arg vm f).map past.followedBy id :=
  execute_changed (φ := past.followedBy) (fun _ => rfl) (fun _ _ => rfl) (fun _ _ _ => rfl)
    (fun _ _ _ _ => rfl) arg vm f

theorem Builtin.call_followedBy (past : Vm) (b : Builtin) (args : List Value) (vm : Vm) :
    b.call args (past.followedBy vm) =
      ((b.call args vm).1, past.followedBy (b.call args vm).2) := by
  unfold call
  split <;> try rfl
  exact congrArg (Prod.mk _) (past.print_followedBy vm _).symm

theorem Vm.overlooked_followedBy (past : Vm) : Overlooked past.followedBy where
  store _ := rfl
  depth _ := rfl
  lookup _ _ := rfl
  execute := execute_followedBy past
  call := Builtin.call_followedBy past
  count _ := rfl
  record := past.record_followedBy
  pushFrame vm _ := past.record_followedBy { vm with depth := vm.depth + 1 } _
  popFrame _ := rfl

section Operations

variable {σ : Type} (hook : Option (Tracer σ)) (s : σ) (request : Request)

namespace Vm

theorem setUp_followedBy (past vm : Vm) :
    (past.followedBy vm).setUp hook = past.followedBy (vm.setUp hook) := by
  cases hook with
  | none => rfl
  | some tracer => exact (past.record_followedBy { vm with tracing := true } _).symm

theorem tearDown_followedBy (past vm : Vm) :
    (past.followedBy vm).tearDown hook = past.followedBy (vm.tearDown hook) := by
  cases hook with
  | none => rfl
  | some tracer => exact (past.record_followedBy { vm with tracing := false } _).symm

/-- An operation goes the same whatever was counted, logged and printed before. -/
theorem operate_followedBy (past vm : Vm) (fuel : Nat) :
    (past.followedBy vm).operate hook s request fuel =
      (vm.operate hook s request fuel).map fun r => { r with vm := past.followedBy r.vm } := by
  have hstepped := stepped_map past.overlooked_followedBy (fun _ => rfl) (.refl hook)
    (setUp_followedBy hook past vm) s request fuel
  rw [id_eq] at hstepped
  rw [operate_eq, operate_eq, hstepped, Option.map_map]
  refine Option.map_congr fun ending _ => ?_
  exact congrArg (Run.mk ending · _) (tearDown_followedBy hook past _)

/-! ### Histories -/

theorem AtRest.operate {vm : Vm} (hrest : vm.AtRest) {hook : Option (Tracer σ)} {s : σ}
    {request : Request} {fuel : Nat} {r : Run σ} (h : vm.operate hook s request fuel = some r) :
    r.vm.AtRest ∧ r.vm.limit = vm.limit := by
  obtain ⟨hending, hvm, -⟩ := stepped_of_operate h
  obtain ⟨hdepth, hlimit, htracing⟩ := balances_stepped hook hrest.depth s request fuel
  rw [Phase.frames_of_ending? hending] at hdepth
  rw [hvm]
  cases hook with
  | none => exact ⟨⟨hdepth, htracing.trans hrest.tracing⟩, hlimit⟩
  | some tracer => exact ⟨⟨hdepth, rfl⟩, hlimit⟩

/-- What a host can do with a machine: give a global a value, perform an operation under any hook or
none, change the objects of the store, and take what was printed. -/
inductive Used (vm : Vm) : Vm → Prop
  | defined (name : String) (v : Value) : Used vm (vm.define name v)
  | operated {σ : Type} {hook : Option (Tracer σ)} {s : σ} {request : Request} {fuel : Nat}
      {r : Run σ} (h : vm.operate hook s request fuel = some r) : Used vm r.vm
  | stored (store : Store) : Used vm { vm with store }
  | tookOutput : Used vm vm.takeOutput.2
  | flushed : Used vm vm.flush.2

theorem Used.atRest {vm vm' : Vm} (h : vm.Used vm') (hrest : vm.AtRest) :
    vm'.AtRest ∧ vm'.limit = vm.limit := by
  cases h with
  | defined | stored => exact ⟨⟨hrest.depth, hrest.tracing⟩, rfl⟩
  | operated h => exact hrest.operate h
  | tookOutput =>
    unfold takeOutput
    split <;> exact ⟨⟨hrest.depth, hrest.tracing⟩, rfl⟩
  | flushed =>
    unfold flush
    split <;> exact ⟨⟨hrest.depth, hrest.tracing⟩, rfl⟩

end Vm

end Operations

/-- A machine that was at rest is at rest after each of any operations, with the limit that it had.
Whatever it runs then, it ends as a machine would that never ran anything, and counts, logs and
prints the same, after what it had counted, logged and printed; and at every moment its depth is the
number of frames of this operation alone. -/
theorem reusable {vm vm' : Vm} (hrest : vm.AtRest) (h : Relation.ReflTransGen Vm.Used vm vm') :
    vm'.AtRest ∧ vm'.limit = vm.limit ∧
      ∀ {σ : Type} (hook : Option (Tracer σ)) (s : σ) (request : Request),
        (∀ fuel, vm'.operate hook s request fuel =
          (vm'.renewed.operate hook s request fuel).map
            fun r => { r with vm := vm'.followedBy r.vm }) ∧
        ∀ n,
          let m := vm'.stepped hook s request n
          m.vm.depth = m.phase.frames.length ∧ m.vm.limit = vm.limit := by
  have hsound : vm'.AtRest ∧ vm'.limit = vm.limit := by
    induction h with
    | refl => exact ⟨hrest, rfl⟩
    | tail _ hused ih =>
      obtain ⟨hrest', hlimit⟩ := hused.atRest ih.1
      exact ⟨hrest', hlimit.trans ih.2⟩
  obtain ⟨hrest', hlimit⟩ := hsound
  refine ⟨hrest', hlimit, fun {σ} hook s request => ⟨?_, ?_⟩⟩
  · intro fuel
    rw [← Vm.operate_followedBy, hrest'.followedBy_renewed]
  · intro n
    have hbalance := Vm.balances_stepped hook hrest'.depth s request n
    exact ⟨hbalance.depth, hbalance.limit.trans ((Vm.limit_setUp hook).trans hlimit)⟩

/-- A hook that gives up at its fourth event. -/
def quittingHook : Tracer Nat where
  onEvent s view _ := ⟨s + 1, view.flags, if s = 3 then .abort else .proceed⟩

theorem reusable_quitting :
    ∃ r, nestedVm.operate (some quittingHook) 0 (.run ⟨0⟩) 8 = some r ∧ r.ending = .aborted ∧
      r.vm.AtRest := by
  have haborted : (nestedVm.operate (some quittingHook) 0 (.run ⟨0⟩) 8).map Run.ending =
      some .aborted := rfl
  obtain ⟨r, hr, hending⟩ := Option.map_eq_some_iff.mp haborted
  have hrest : nestedVm.AtRest := ⟨rfl, rfl⟩
  exact ⟨r, hr, hending, (reusable hrest (.single (.operated hr))).1⟩

end Wordcode
