import Wordcode.Machine.Vm
import Wordcode.Trace.Tracer

/-! Frames, and what one instruction does.  An instruction works on the frame that executes it and
on the machine, and says how execution goes on; how frames are entered and left is not its
concern. -/

namespace Wordcode

structure Frame where
  code : Code
  locals : Array (Option Value)
  /-- The operand stack, the top first. -/
  stack : List Value := []
  /-- The byte offset of the next instruction. -/
  pc : Nat := 0
  /-- The argument that the prefixes just executed give. -/
  pending : UInt32 := 0
  /-- The byte offset of the instruction executed last. -/
  lasti : Nat := 0
  /-- The source line of the last line event. -/
  lastLine : Option UInt32 := none
  /-- Whether the trace hook is shown events of this frame. -/
  active : Bool := false
  flags : Trace.Flags := {}

namespace Frame

/-- The frame of a call: the arguments are in the first local slots, the others are unassigned. -/
def enter (code : Code) (args : List Value) : Frame where
  code := code
  locals := (args.map some ++ List.replicate (code.nlocals - args.length) none).toArray

def push (f : Frame) (v : Value) : Frame := { f with stack := v :: f.stack }

def underflow (f : Frame) : Fault := .stackUnderflow f.code.name f.lasti

/-- The fault of an instruction whose argument indexes nothing. -/
def argumentFault (f : Frame) (op : Opcode) (arg : UInt32) : Fault :=
  .argumentRange op arg f.code.name

def fetch (f : Frame) : Except Fault (Opcode × UInt8) :=
  match f.code.bytes[f.pc]?, f.code.bytes[f.pc + 1]? with
  | some byte, some low =>
    match Opcode.ofByte? byte with
    | some op => .ok (op, low)
    | none => .error (.invalidOpcode byte f.pc)
  | _, _ => .error (.pastEnd f.code.name f.pc)

/-- The frame after an instruction was fetched: it is the last one, and if it is a prefix its
argument is pending. -/
def advance (f : Frame) (op : Opcode) (arg : UInt32) : Frame :=
  { f with pc := f.pc + 2, lasti := f.pc, pending := if op = .extendedArg then arg else 0 }

end Frame

/-- How execution goes on after an instruction. -/
inductive Effect where
  /-- With the next instruction. -/
  | next (vm : Vm) (f : Frame)
  /-- With the instruction of the given index. -/
  | jump (vm : Vm) (f : Frame) (target : Nat)
  /-- With a call, whose value the frame gets. -/
  | call (vm : Vm) (f : Frame) (callee : Value) (args : List Value)
  /-- The frame is left. -/
  | leave (vm : Vm) (f : Frame) (result : Except Fault Value)

namespace Effect

def fault (vm : Vm) (f : Frame) (e : Fault) : Effect := leave vm f (.error e)

/-- The frame gets the value of `result` on top of the operands `rest`, or is left with its
fault. -/
def give (vm : Vm) (f : Frame) (rest : List Value) : Except Fault Value → Effect
  | .ok v => next vm { f with stack := v :: rest }
  | .error e => fault vm f e

end Effect

/-- What an instruction with the folded argument `arg` does in the frame `f`, which was advanced
past it. -/
def execute (op : Opcode) (arg : UInt32) (vm : Vm) (f : Frame) : Effect :=
  match op with
  | .nop | .extendedArg => .next vm f
  | .popTop =>
    match f.stack with
    | _ :: rest => .next vm { f with stack := rest }
    | [] => .fault vm f f.underflow
  | .loadConst =>
    match f.code.consts[arg.toNat]? with
    | some v => .next vm (f.push v)
    | none => .fault vm f (f.argumentFault op arg)
  | .loadFast =>
    match f.locals[arg.toNat]? with
    | some (some v) => .next vm (f.push v)
    | some none => .fault vm f (.unassignedLocal (f.code.varnames.getD arg.toNat ""))
    | none => .fault vm f (f.argumentFault op arg)
  | .storeFast =>
    match f.stack with
    | v :: rest =>
      if arg.toNat < f.locals.size then
        .next vm { f with stack := rest, locals := f.locals.setIfInBounds arg.toNat (some v) }
      else .fault vm f (f.argumentFault op arg)
    | [] => .fault vm f f.underflow
  | .loadGlobal =>
    match f.code.names[arg.toNat]? with
    | some name => .give vm f f.stack (vm.lookup name)
    | none => .fault vm f (f.argumentFault op arg)
  | .storeGlobal =>
    match f.code.names[arg.toNat]? with
    | some name =>
      match f.stack with
      | v :: rest => .next (vm.define name v) { f with stack := rest }
      | [] => .fault vm f f.underflow
    | none => .fault vm f (f.argumentFault op arg)
  | .binaryAdd =>
    match f.stack with
    | b :: a :: rest => .give vm f rest (a.add b)
    | _ => .fault vm f f.underflow
  | .binarySubtract =>
    match f.stack with
    | b :: a :: rest => .give vm f rest (a.subtract b)
    | _ => .fault vm f f.underflow
  | .binarySubscr =>
    match f.stack with
    | key :: container :: rest => .give vm f rest (container.subscript vm.store key)
    | _ => .fault vm f f.underflow
  | .storeSubscr =>
    match f.stack with
    | key :: container :: v :: rest =>
      match container.entry key .noItemAssignment with
      | .ok (id, k) => .next (vm.insert id k v) { f with stack := rest }
      | .error e => .fault vm f e
    | _ => .fault vm f f.underflow
  | .buildMap =>
    let (id, vm) := vm.addMap ∅
    .next vm (f.push (.map id))
  | .compareOp =>
    match Comparison.ofCode? arg with
    | some comparison =>
      match f.stack with
      | b :: a :: rest => .give vm f rest ((Value.compare comparison a b).map .bool)
      | _ => .fault vm f f.underflow
    | none => .fault vm f (f.argumentFault op arg)
  | .popJumpIfFalse =>
    match f.stack with
    | v :: rest =>
      if vm.store.truthy v then .next vm { f with stack := rest }
      else .jump vm { f with stack := rest } arg.toNat
    | [] => .fault vm f f.underflow
  | .popJumpIfTrue =>
    match f.stack with
    | v :: rest =>
      if vm.store.truthy v then .jump vm { f with stack := rest } arg.toNat
      else .next vm { f with stack := rest }
    | [] => .fault vm f f.underflow
  | .jumpAbsolute => .jump vm f arg.toNat
  | .getIter =>
    match f.stack with
    | .range _ :: _ => .next vm f
    | v :: _ => .fault vm f (.notIterable v.kind)
    | [] => .fault vm f f.underflow
  | .forIter =>
    match f.stack with
    | .range id :: rest =>
      match (vm.store.range id).pull with
      | some (i, r) => .next { vm with store := vm.store.setRange id r } (f.push (.int i))
      | none => .jump vm { f with stack := rest } arg.toNat
    | v :: _ => .fault vm f (.notAnIterator v.kind)
    | [] => .fault vm f f.underflow
  | .callFunction =>
    match f.stack.drop arg.toNat with
    | callee :: rest =>
      .call vm { f with stack := rest } callee (f.stack.take arg.toNat).reverse
    | [] => .fault vm f f.underflow
  | .returnValue =>
    match f.stack with
    | v :: rest => .leave vm { f with stack := rest } (.ok v)
    | [] => .fault vm f f.underflow
  | .raiseAssertion =>
    match f.code.consts[arg.toNat]? with
    | some v => .fault vm f (.assertion (vm.store.display v))
    | none => .fault vm f (f.argumentFault op arg)

end Wordcode
