import Wordcode.Assembly.Build
import Wordcode.Machine.Run
import Wordcode.Trace.Counter

/-! The programs: three functions as wordcode, each in a module that binds it to a global name, and
what is measured of the second.  The lines are those of the sources shown. -/

namespace Wordcode

inductive Program where
  | fib
  | countLoop (iterations : Int64)
  | hashmapGetter

namespace Program

def name : Program → String
  | fib => "fib"
  | countLoop _ => "abc"
  | hashmapGetter => "getter"

/-- The recursive function
```
1 def fib(n):
2     if n == 1 or n == 2:
3         return 1
4     return fib(n - 1) + fib(n - 2)
```
with label 0 at line 3 and label 1 at line 4. -/
def fibCommands : List Command :=
  [.param "n", .newLabel, .newLabel,
    .line 2,
    .loadFast "n", .loadConst (.int 1), .compare .eq, .emitJump .popJumpIfTrue 0,
    .loadFast "n", .loadConst (.int 2), .compare .eq, .emitJump .popJumpIfFalse 1,
    .line 3, .bind 0, .loadConst (.int 1), .ret,
    .line 4, .bind 1,
    .loadGlobal "fib", .loadFast "n", .loadConst (.int 1), .emit .binarySubtract, .call 1,
    .loadGlobal "fib", .loadFast "n", .loadConst (.int 2), .emit .binarySubtract, .call 1,
    .emit .binaryAdd, .ret]

/-- The loop
```
1 def abc():
2     for i in range(iterations):
3         if i == 0:
4             pass
```
with label 0 at the head of the loop and label 1 behind it. -/
def countLoopCommands (iterations : Int64) : List Command :=
  [.newLabel, .newLabel,
    .line 2,
    .loadGlobal "range", .loadConst (.int iterations), .call 1, .emit .getIter,
    .bind 0, .emitJump .forIter 1, .storeFast "i",
    .line 3,
    .loadFast "i", .loadConst (.int 0), .compare .eq, .emitJump .popJumpIfFalse 0,
    .line 4, .emit .nop, .emitJump .jumpAbsolute 0,
    .bind 1, .loadConst .none, .ret]

/-- The two loops
```
1 def getter(n, probe):
2     a = {}
3     for i in range(n):
4         a[i] = i
5     for i in range(probe):
6         b = a[i]
7         if b != i:
8             raise AssertionError("Value mismatch")
9     return len(a)
```
with labels 0 and 2 at the heads of the loops and labels 1 and 3 behind them. -/
def hashmapGetterCommands : List Command :=
  [.param "n", .param "probe", .newLabel, .newLabel, .newLabel, .newLabel,
    .line 2, .emitArg .buildMap 0, .storeFast "a",
    .line 3,
    .loadGlobal "range", .loadFast "n", .call 1, .emit .getIter,
    .bind 0, .emitJump .forIter 1, .storeFast "i",
    .line 4,
    .loadFast "i", .loadFast "a", .loadFast "i", .emit .storeSubscr, .emitJump .jumpAbsolute 0,
    .line 5, .bind 1,
    .loadGlobal "range", .loadFast "probe", .call 1, .emit .getIter,
    .bind 2, .emitJump .forIter 3, .storeFast "i",
    .line 6, .loadFast "a", .loadFast "i", .emit .binarySubscr, .storeFast "b",
    .line 7,
    .loadFast "b", .loadFast "i", .compare .ne, .emitJump .popJumpIfFalse 2,
    .line 8, .raiseAssertion "Value mismatch",
    .line 9, .bind 3, .loadGlobal "len", .loadFast "a", .call 1, .ret]

def commands : Program → List Command
  | fib => fibCommands
  | countLoop iterations => countLoopCommands iterations
  | hashmapGetter => hashmapGetterCommands

def code (p : Program) : Except AssemblyError Code := assemble p.name p.commands

/-- The code of a module that binds the function `id` to `name`. -/
def moduleCode (name : String) (id : FunctionId) : Except AssemblyError Code :=
  assemble "<module>"
    [.line 1, .loadConst (.function id), .storeGlobal name, .loadConst .none, .ret]

end Program

/-- The functions of a program that was put into a store: the body of its module, and the function
that the module binds. -/
structure Module where
  body : FunctionId
  function : FunctionId

/-- Why a program does not come to a result. -/
inductive ProgramError where
  | assembly (e : AssemblyError)
  | fault (e : Fault)
  /-- The module did not bind the name. -/
  | undefined (name : String)
  | aborted

def ProgramError.message : ProgramError → String
  | .assembly e => e.message
  | .fault e => e.display
  | .undefined name => "module did not define '" ++ name ++ "'"
  | .aborted => "the trace hook gave up"

def Ending.value : Ending → Except ProgramError Value
  | .finished (.ok v) => .ok v
  | .finished (.error e) => .error (.fault e)
  | .aborted => .error .aborted

namespace Vm

/-- Puts the functions of a program into the store. -/
def addProgram (vm : Vm) (p : Program) : Except AssemblyError (Module × Vm) :=
  match p.code with
  | .error e => .error e
  | .ok code =>
    let (function, vm) := vm.addFunction code
    match Program.moduleCode p.name function with
    | .error e => .error e
    | .ok code =>
      let (body, vm) := vm.addFunction code
      .ok (⟨body, function⟩, vm)

/-- Runs the body of a module and answers with the global that it binds to `name`. -/
def load (vm : Vm) (body : FunctionId) (name : String) (fuel : Nat) :
    Option (Except ProgramError Value × Vm) :=
  (vm.execute (.run body) fuel).map fun r =>
    match r.ending.value with
    | .error e => (.error e, r.vm)
    | .ok _ =>
      match r.vm.global? name with
      | some v => (.ok v, r.vm)
      | none => (.error (.undefined name), r.vm)

/-- Puts a program into the store and loads it. -/
def loadProgram (vm : Vm) (p : Program) (fuel : Nat) :
    Option (Except ProgramError Value × Vm) :=
  match vm.addProgram p with
  | .error e => some (.error (.assembly e), vm)
  | .ok (m, vm) => vm.load m.body p.name fuel

/-- Loads the count loop and calls it under a trace hook, whose last state is the answer. -/
def traceCountLoop {σ : Type} (vm : Vm) (hook : Trace.Tracer σ) (s : σ) (iterations : Int64)
    (fuel : Nat) : Option (Except ProgramError σ × Vm) :=
  match vm.loadProgram (.countLoop iterations) fuel with
  | none => none
  | some (.error e, vm) => some (.error e, vm)
  | some (.ok abc, vm) =>
    (vm.trace hook s (.call abc []) fuel).map fun r =>
      (r.ending.value.map fun _ => r.tracer, r.vm)

/-- The histogram of one call of the count loop. -/
def countOpcodes (vm : Vm) (iterations : Int64) (fuel : Nat) :
    Option (Except ProgramError Trace.Histogram × Vm) :=
  vm.traceCountLoop Trace.opcodeCounter {} iterations fuel

/-- The profile of one call of the count loop, with times read off `clock`. -/
def profileOpcodes (vm : Vm) (clock : Nat → Nat) (iterations : Int64) (fuel : Nat) :
    Option (Except ProgramError Trace.Profile × Vm) :=
  (vm.traceCountLoop (Trace.opcodeProfiler clock) {} iterations fuel).map fun (result, vm) =>
    (result.map (Trace.Profiler.finish clock), vm)

end Vm

/-- The number of instructions that the count loop executes: 4 to set it up, 6 for each iteration, 2
more for the one where `i == 0`, and 3 to leave.  It is defined as long as it is a 64-bit number. -/
def countLoopInstructions (iterations : Nat) : Option Nat :=
  let total := 4 + 6 * iterations + (if 0 < iterations then 2 else 0) + 3
  if total < UInt64.size then some total else none

/-- The iterations of the count loop that is profiled. -/
def traceLoopIterations : Nat := 1800

end Wordcode
