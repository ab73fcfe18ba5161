import Wordcode.Assembly.Build
import Wordcode.Proofs.Steps

/-! The symbolic machine: it executes functions as they are described, item by item, with no code
object in between.  An instruction has the argument of its own item, and a jump goes to the item
that its label is bound to. -/

namespace Wordcode

/-- A function before it is assembled. -/
structure Source where
  name : String
  commands : List Command

/-- What the functions of a store were assembled from. -/
abbrev Sources := FunctionId → Source

namespace Source

def draft (src : Source) : Draft := .performAll { name := src.name } src.commands

/-- What instructions see of a function: its name and its tables. -/
def tables (src : Source) : Code where
  name := src.draft.name
  argcount := src.draft.argcount
  varnames := src.draft.varnames
  names := src.draft.names
  consts := src.draft.consts
  bytes := #[]
  lines := []

end Source

/-- The argument that an operand gives its instruction; a jump has no use for one. -/
def Operand.argument : Operand → UInt32
  | .immediate arg => arg
  | .none | .label _ => 0

/-- The item that a jump with the given operand goes to. -/
def Draft.target (d : Draft) : Operand → Nat
  | .label id => (d.labels.getD id none).getD 0
  | .none | .immediate _ => 0

namespace Symbolic

/-- One activation of a function. -/
structure Activation where
  function : FunctionId
  /-- The number of the next item. -/
  item : Nat
  stack : List Value
  locals : Array (Option Value)

inductive Phase where
  | running (a : Activation) (callers : List Activation)
  | giving (result : Except Fault Value) (callers : List Activation)

structure State where
  vm : Vm
  phase : Phase

/-- What an operation leaves behind, and the items that it stepped through, in order. -/
structure Outcome where
  result : Except Fault Value
  vm : Vm
  stepped : List (FunctionId × Nat)

/-- The activations that are under way, the innermost first. -/
def Phase.activations : Phase → List Activation
  | .running a callers => a :: callers
  | .giving _ callers => callers

def Phase.result? : Phase → Option (Except Fault Value)
  | .giving result [] => some result
  | _ => none

section

variable (sources : Sources)

/-- The frame in which the next item of an activation is executed.  Its offset is the number of the
item. -/
def Activation.frame (a : Activation) : Frame where
  code := (sources a.function).tables
  locals := a.locals
  stack := a.stack
  lasti := a.item

/-- The activation after an item was executed in its frame. -/
def Activation.goTo (a : Activation) (item : Nat) (f : Frame) : Activation where
  function := a.function
  item := item
  stack := f.stack
  locals := f.locals

def enter (vm : Vm) (id : FunctionId) (args : List Value) (callers : List Activation) : State :=
  let code := (sources id).tables
  if args.length ≠ code.argcount then
    ⟨vm, .giving (.error (.wrongArgumentCount code.name code.argcount args.length)) callers⟩
  else if vm.limit ≤ vm.depth then
    ⟨vm.record (.recursionLimitHit vm.limit code.name),
      .giving (.error (.recursionLimit code.name)) callers⟩
  else ⟨vm.pushFrame code.name, .running ⟨id, 0, [], (Frame.enter code args).locals⟩ callers⟩

def invoke (vm : Vm) (callee : Value) (args : List Value) (callers : List Activation) : State :=
  match callee with
  | .function id => enter sources vm id args callers
  | .builtin b => ⟨(b.call args vm).2, .giving (b.call args vm).1 callers⟩
  | v => ⟨vm, .giving (.error (.notCallable v.kind)) callers⟩

/-- Goes on as the item `item` of an activation says. -/
def proceed (a : Activation) (item : Item) (callers : List Activation) : Effect → State
  | .next vm f => ⟨vm, .running (a.goTo (a.item + 1) f) callers⟩
  | .jump vm f _ =>
    ⟨vm, .running (a.goTo ((sources a.function).draft.target item.operand) f) callers⟩
  | .call vm f callee args => invoke sources vm callee args (a.goTo (a.item + 1) f :: callers)
  | .leave vm _ result => ⟨vm.popFrame, .giving result callers⟩

def executeItem (vm : Vm) (a : Activation) (callers : List Activation) : State :=
  let src := sources a.function
  match src.draft.items[a.item]? with
  | none => ⟨vm.popFrame, .giving (.error (.pastEnd src.tables.name a.item)) callers⟩
  | some item =>
    proceed sources a item callers
      (execute item.op item.operand.argument vm (a.frame sources))

/-- One step: an item, or the result of a call handed over.  A machine that has ended stays as it
is. -/
def step (s : State) : State :=
  match s with
  | ⟨vm, .running a callers⟩ => executeItem sources vm a callers
  | ⟨vm, .giving (.ok v) (a :: callers)⟩ =>
    ⟨vm, .running { a with stack := v :: a.stack } callers⟩
  | ⟨vm, .giving (.error e) (_ :: callers)⟩ => ⟨vm.popFrame, .giving (.error e) callers⟩
  | s => s

/-- The item that the next step executes. -/
def State.item? (s : State) : Option (FunctionId × Nat) :=
  match s.phase with
  | .running a _ =>
    if a.item < (sources a.function).draft.items.size then some (a.function, a.item) else none
  | .giving .. => none

/-- The items that the next `n` steps execute. -/
def State.items (s : State) : Nat → List (FunctionId × Nat)
  | 0 => []
  | n + 1 => (s.item? sources).toList ++ items (step sources s) n

def start (vm : Vm) : Request → State
  | .run id => enter sources vm id [] []
  | .call callee args => invoke sources vm callee args []
  | .callGlobal name args =>
    match vm.lookup name with
    | .ok callee => invoke sources vm callee args []
    | .error e => ⟨vm, .giving (.error e) []⟩

/-- Performs an operation, if it ends within `fuel` steps. -/
def execute (vm : Vm) (request : Request) (fuel : Nat) : Option Outcome :=
  let s := (step sources)^[fuel] (start sources vm request)
  s.phase.result?.map fun result =>
    ⟨result, s.vm, (start sources vm request).items sources fuel⟩

end

end Symbolic

end Wordcode
