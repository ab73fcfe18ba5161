import Wordcode.Programs
import Wordcode.Workload.Fib
import Wordcode.Workload.Lookup
import Wordcode.Workload.Sequence

/-! Scenarios: the workloads at fixed sizes, each with the result that it has to give. -/

namespace Wordcode

/-- The argument of the Fibonacci program in its scenario. -/
def vmFibArgument : Nat := 20

/-- The entries that the getter program populates and probes in its scenario. -/
def vmGetterSize : Nat := 100000

inductive Scenario where
  | nativeFib
  | hashmapInt
  | hashmapStr
  | delegate
  | vmFib
  | vmCountLoop
  | vmCountLoopTraced
  | vmHashmapGetter
  deriving DecidableEq

inductive ScenarioError where
  | lookup (e : Workload.LookupError)
  | program (e : ProgramError)
  | notACount (v : Value)
  | mismatch (expected observed : Nat)

namespace Scenario

def all : List Scenario :=
  [nativeFib, hashmapInt, hashmapStr, delegate, vmFib, vmCountLoop, vmCountLoopTraced,
    vmHashmapGetter]

def key : Scenario → String
  | nativeFib => "native_fib"
  | hashmapInt => "hashmap_int"
  | hashmapStr => "hashmap_str"
  | delegate => "delegate"
  | vmFib => "vm_fib"
  | vmCountLoop => "vm_count_loop"
  | vmCountLoopTraced => "vm_count_loop_traced"
  | vmHashmapGetter => "vm_hashmap_getter"

def title : Scenario → String
  | nativeFib => "Recursive fibonacci"
  | hashmapInt => "Int-keyed populate and checked lookup"
  | hashmapStr => "String-keyed populate and lookup"
  | delegate => "Chained sequence drain"
  | vmFib => "Recursive fibonacci on the VM"
  | vmCountLoop => "Count loop, untraced"
  | vmCountLoopTraced => "Count loop under the opcode counter"
  | vmHashmapGetter => "Map populate and checked lookup on the VM"

/-- The number of instructions of the profiled count loop. -/
def traceLoopTotal : Nat := 6 * traceLoopIterations + 9

/-- The result that a scenario has to give. -/
def expected : Scenario → Nat
  | nativeFib => Workload.fibResult
  | hashmapInt | hashmapStr => Workload.mapSize
  | delegate => Workload.sequenceLength * Workload.delegateCount
  | vmFib => 6765
  | vmCountLoop | vmCountLoopTraced => traceLoopTotal
  | vmHashmapGetter => vmGetterSize

/-- The name of the benchmark case of a scenario. -/
def caseName (s : Scenario) : String := s.key ++ "_run"

/-- A scenario with its key and its result. -/
def debug (s : Scenario) : String :=
  "Scenario \x7b key: " ++ Text.quote s.key ++ ", expected: " ++ toString s.expected ++ " \x7d"

def find? (key : String) : Option Scenario := all.find? fun s => s.key == key

def countOfValue : Value → Except ScenarioError Nat
  | .int n => if 0 ≤ n then .ok n.toInt.toNat else .error (.notACount (.int n))
  | v => .error (.notACount v)

/-- The result of a call of a program in a new machine, with the machine before and after it. -/
def callProgram (p : Program) (args : List Value) (fuel : Nat) :
    Option (Except ProgramError (Value × Vm) × Vm) :=
  match Vm.standard.loadProgram p fuel with
  | none => none
  | some (.error e, vm) => some (.error e, vm)
  | some (.ok f, vm) =>
    (vm.execute (.call f args) fuel).map fun r => (r.ending.value.map (·, vm), r.vm)

/-- What a scenario gives, with the events that it reports. -/
def observe (s : Scenario) (fuel : Nat) : Option (Except ScenarioError Nat × List Log.Event) :=
  match s with
  | nativeFib => some (.ok (Workload.fib Workload.fibArgument), [])
  | hashmapInt =>
    let map := Workload.populateInt Workload.mapSize
    some ((Workload.lookupInt map 0 Workload.mapSize).mapError .lookup, [Workload.populatedInt map])
  | hashmapStr =>
    let map := Workload.populateStr Workload.mapSize
    some (.ok (Workload.lookupStr map 0 Workload.mapSize).hits, [Workload.populatedStr map])
  | delegate =>
    some (.ok (Workload.Sequence.drain (Workload.delegate Workload.sequenceLength)), [])
  | vmFib =>
    (callProgram .fib [.int (Int64.ofNat vmFibArgument)] fuel).map fun (result, vm) =>
      ((result.mapError .program).bind fun (v, _) => countOfValue v, vm.log.toList)
  | vmCountLoop =>
    (callProgram (.countLoop (Int64.ofNat traceLoopIterations)) [] fuel).map fun (result, vm) =>
      ((result.mapError .program).map fun (_, before) => vm.executed - before.executed,
        vm.log.toList)
  | vmCountLoopTraced =>
    (Vm.standard.countOpcodes (Int64.ofNat traceLoopIterations) fuel).map fun (result, vm) =>
      ((result.mapError .program).map Trace.Histogram.total, vm.log.toList)
  | vmHashmapGetter =>
    let size := Value.int (Int64.ofNat vmGetterSize)
    (callProgram .hashmapGetter [size, size] fuel).map fun (result, vm) =>
      ((result.mapError .program).bind fun (v, _) => countOfValue v, vm.log.toList)

/-- Runs a scenario and checks its result. -/
def run (s : Scenario) (fuel : Nat) : Option (Except ScenarioError Nat × List Log.Event) :=
  (s.observe fuel).map fun (result, events) =>
    (result.bind fun observed =>
      if observed = s.expected then .ok observed else .error (.mismatch s.expected observed),
      events)

end Scenario

def ScenarioError.message (s : Scenario) : ScenarioError → String
  | .mismatch expected observed =>
    "scenario " ++ s.key ++ ": expected " ++ toString expected ++ " but observed " ++
      toString observed
  | .lookup _ | .program _ | .notACount _ => "scenario " ++ s.key ++ " failed"

end Wordcode
