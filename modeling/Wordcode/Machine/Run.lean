import Wordcode.Machine.Step

/-! The operations of a virtual machine that execute code: running a module and calling a value or
a global, each with or without a trace hook.  An operation is given a number of steps within which
it has to end; it has no answer if it does not. -/

namespace Wordcode

open Trace

inductive Request where
  /-- Runs a function without arguments, as the body of a module. -/
  | run (module : FunctionId)
  | call (callee : Value) (args : List Value)
  | callGlobal (name : String) (args : List Value)

/-- What an operation leaves behind. -/
structure Run (σ : Type) where
  ending : Ending
  vm : Vm
  tracer : σ

namespace Vm

variable {σ : Type}

/-- The machine with which an operation begins. -/
def start (vm : Vm) (hook : Option (Tracer σ)) (s : σ) : Request → Machine σ
  | .run id => Machine.enter hook vm s (vm.store.code id) [] []
  | .call callee args => Machine.invoke hook vm s callee args []
  | .callGlobal name args =>
    match vm.lookup name with
    | .ok callee => Machine.invoke hook vm s callee args []
    | .error e => ⟨vm, s, .giving (.error e) []⟩

/-- Performs an operation under a trace hook, if one is given. -/
def perform (vm : Vm) (hook : Option (Tracer σ)) (s : σ) (request : Request) (fuel : Nat) :
    Option (Run σ) :=
  ((vm.start hook s request).run hook fuel).map fun (ending, m) => ⟨ending, m.vm, m.tracer⟩

def execute (vm : Vm) (request : Request) (fuel : Nat) : Option (Run Unit) :=
  vm.perform none () request fuel

def installHook (vm : Vm) : Vm := { vm with tracing := true }.record .hookInstalled

def releaseHook (vm : Vm) : Vm := { vm with tracing := false }.record .hookReleased

/-- Performs an operation under a trace hook that is installed for it alone. -/
def trace (vm : Vm) (hook : Tracer σ) (s : σ) (request : Request) (fuel : Nat) :
    Option (Run σ) :=
  (vm.installHook.perform (some hook) s request fuel).map fun r =>
    { r with vm := r.vm.releaseHook }

end Vm

end Wordcode
