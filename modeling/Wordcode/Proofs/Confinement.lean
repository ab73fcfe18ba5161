import Wordcode.Proofs.Frames
import Wordcode.Proofs.Reachable

/-! Confinement of running machines.  Whatever hook watches it, a machine executes only functions
that its operation can come by, and its frames hold only values that the operation may hold: these
are a realm that it keeps to. -/

namespace Wordcode

open Trace

variable {past : Vm} {request : Request}

/-- A frame of a function that the operation can come by, which holds only what it may. -/
structure Frame.Within (past : Vm) (request : Request) (f : Frame) : Prop where
  function : ∃ id, past.Reaches request (.function id) ∧ past.store.code id = f.code
  stack : ∀ v ∈ f.stack, past.Holds request v
  locals : ∀ v, some v ∈ f.locals → past.Holds request v

/-- A phase whose frames, and the value that they are given, are what the operation may hold.
Frames that are left because the hook has given up execute nothing. -/
def Phase.Within (past : Vm) (request : Request) : Phase → Prop
  | running f callers => ∀ g ∈ f :: callers, g.Within past request
  | giving result callers =>
    (∀ g ∈ callers, g.Within past request) ∧ ∀ v, result = .ok v → past.Holds request v
  | unwinding _ => True

/-- A machine that holds only what an operation begun on `past` may hold. -/
structure Machine.Within {σ : Type} (past : Vm) (request : Request) (m : Machine σ) : Prop where
  vm : past.Confined request m.vm
  phase : m.phase.Within past request

/-- The values that an operation begun on `past` may hold, and the code of the functions that it can
come by. -/
def Vm.realm (past : Vm) (request : Request) : Realm where
  values := past.Holds request
  codes code := ∃ id, past.Reaches request (.function id) ∧ past.store.code id = code
  plain _ := holds_of_isPlain
  consts := by
    rintro _ ⟨id, hid, rfl⟩ v hv
    exact (hid.const hv).holds

theorem Frame.within_iff {f : Frame} :
    f.Within past request ↔ f.KeepsTo (past.realm request) :=
  ⟨fun h => ⟨h.function, h.stack, h.locals⟩, fun h => ⟨h.code, h.stack, h.locals⟩⟩

theorem Phase.within_iff {phase : Phase} :
    phase.Within past request ↔ phase.KeepsTo (past.realm request) := by
  cases phase with
  | running | giving => simp only [Within, KeepsTo, Frame.within_iff, Vm.realm]
  | unwinding => exact Iff.rfl

theorem Vm.Confined.keepsTo {vm : Vm} (h : past.Confined request vm) :
    vm.KeepsTo (past.realm request) := by
  refine ⟨h.holdsOnly, fun id hid => ⟨id, hid, ?_⟩⟩
  rw [Store.code, Store.code, h.functions]

section Runs

variable {σ : Type} {hook : Option (Tracer σ)}

theorem Machine.Within.step {m : Machine σ} (h : m.Within past request) :
    (m.step hook).Within past request := by
  have hkeeps : m.KeepsTo (past.realm request) := ⟨h.vm.keepsTo, Phase.within_iff.mp h.phase⟩
  have hstep : (m.step hook).KeepsTo (past.realm request) :=
    hkeeps.step fun _ _ _ => Or.inr h.vm.maps
  obtain ⟨hvm, hphase⟩ := hstep
  exact ⟨h.vm.of_holdsOnly hvm.holdsOnly (m.size_maps_le_step hook) (functions_step hook m),
    Phase.within_iff.mpr hphase⟩

theorem Vm.within_start {vm : Vm} (hvm : past.Confined request vm) (s : σ) :
    (vm.start hook s request).Within past request := by
  have hstart : (vm.start hook s request).KeepsTo (past.realm request) :=
    keepsTo_start hvm.keepsTo s fun callee args =>
      hvm.holdsOnly.of_call? (fun _ => holds_of_isPlain) fun v hv => (Reaches.root hv).holds
  obtain ⟨hvm', hphase⟩ := hstart
  exact ⟨hvm.of_holdsOnly hvm'.holdsOnly (Nat.le_of_eq (congrArg Array.size maps_start.symm))
    (functions_start vm s request), Phase.within_iff.mpr hphase⟩

/-- All along an operation the machine holds only what the operation may hold. -/
theorem Vm.within_stepped (hook : Option (Tracer σ)) (vm : Vm) (s : σ) (request : Request)
    (n : Nat) : (vm.stepped hook s request n).Within vm request := by
  induction n with
  | zero =>
    refine within_start ((vm.confined_self request).congr _ ?_ ?_ ?_) s <;> cases hook <;> rfl
  | succ n ih =>
    rw [stepped_succ]
    exact ih.step

end Runs

end Wordcode
