import Wordcode.Log.Event
import Wordcode.Machine.Operators

/-! The virtual machine at rest: the globals, the store, what was printed, and the counters.  This
is all that outlives a call. -/

namespace Wordcode

/-- Where printed lines go, with the lines that were not taken from it yet. -/
structure Console where
  /-- Whether the lines are kept for the caller; otherwise they are for standard output. -/
  captures : Bool := true
  lines : Array String := #[]

def defaultRecursionLimit : Nat := 1000

/-- A virtual machine between two operations. -/
structure Vm where
  globals : Std.HashMap String Value := ∅
  store : Store := {}
  console : Console := {}
  /-- The number of active frames. -/
  depth : Nat := 0
  /-- The number of frames that may be active. -/
  limit : Nat := defaultRecursionLimit
  tracing : Bool := false
  /-- The number of instructions executed so far. -/
  executed : Nat := 0
  log : Array Log.Event := #[]

namespace Vm

def standard : Vm := { console := { captures := false } }

def capturing : Vm := {}

def record (vm : Vm) (e : Log.Event) : Vm := { vm with log := vm.log.push e }

def define (vm : Vm) (name : String) (v : Value) : Vm :=
  { vm with globals := vm.globals.insert name v }

def global? (vm : Vm) (name : String) : Option Value := vm.globals[name]?

/-- What a program means by a name: a global, or else a native function. -/
def lookup (vm : Vm) (name : String) : Except Fault Value :=
  match vm.global? name with
  | some v => .ok v
  | none =>
    match Builtin.ofName? name with
    | some b => .ok (.builtin b)
    | none => .error (.undefinedName name)

def print (vm : Vm) (line : String) : Vm :=
  { vm with console := { vm.console with lines := vm.console.lines.push line } }

/-- Takes the lines that were kept; a machine that prints to standard output keeps none. -/
def takeOutput (vm : Vm) : List String × Vm :=
  if vm.console.captures then
    (vm.console.lines.toList, { vm with console := { vm.console with lines := #[] } })
  else ([], vm)

/-- Takes the text that is to go to standard output. -/
def flush (vm : Vm) : String × Vm :=
  if vm.console.captures then ("", vm)
  else
    (String.join (vm.console.lines.toList.map (· ++ "\n")),
      { vm with console := { vm.console with lines := #[] } })

def addFunction (vm : Vm) (code : Code) : FunctionId × Vm :=
  let (id, store) := vm.store.addFunction code
  (id, { vm with store })

/-- A new range iterator over the integers from `start` up to `stop`. -/
def addRange (vm : Vm) (start stop : Int64) : RangeId × Vm :=
  let (id, store) := vm.store.addRange ⟨start, stop⟩
  (id, { vm with store })

def addMap (vm : Vm) (d : Dict) : MapId × Vm :=
  let (id, store) := vm.store.addMap d
  (id, { vm with store })

def insert (vm : Vm) (id : MapId) (k : MapKey) (v : Value) : Vm :=
  { vm with store := vm.store.insert id k v }

end Vm

/-! ### Native functions -/

namespace Builtin

/-- The outcome of a call of a native function.  No frame is entered for it. -/
def call (b : Builtin) (args : List Value) (vm : Vm) : Except Fault Value × Vm :=
  match b, args with
  | range, [.int stop] =>
    let (id, vm) := vm.addRange 0 stop
    (.ok (.range id), vm)
  | range, [.int start, .int stop] =>
    let (id, vm) := vm.addRange start stop
    (.ok (.range id), vm)
  | range, _ => (.error (.rangeArguments (args.map Value.kind)), vm)
  | str, [v] => (.ok (.str (vm.store.display v)), vm)
  | len, [.str s] => (.ok (.int (Int64.ofNat s.length)), vm)
  | len, [.map id] => (.ok (.int (Int64.ofNat (vm.store.map id).size)), vm)
  | len, [v] => (.error (.noLength v.kind), vm)
  | str, _ | len, _ => (.error (.oneArgument b args.length), vm)
  | print, _ => (.ok .none, vm.print (" ".intercalate (args.map vm.store.display)))

end Builtin

end Wordcode
