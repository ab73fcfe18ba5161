import Wordcode.Machine.Frame

/-! Running: the machine goes in small steps, with an explicit stack of frames, and a trace hook may
watch it.  One step executes an instruction, hands the result of a call to the frame that made it,
or leaves a frame when the hook has given up. -/

namespace Wordcode

open Trace

/-- What a running machine does next. -/
inductive Phase where
  /-- The frame on top executes its next instruction. -/
  | running (f : Frame) (callers : List Frame)
  /-- The call that the first of the frames made has ended. -/
  | giving (result : Except Fault Value) (frames : List Frame)
  /-- The hook has given up, and the frames are left one by one. -/
  | unwinding (frames : List Frame)

/-- A running machine, with the state of its trace hook. -/
structure Machine (σ : Type) where
  vm : Vm
  tracer : σ
  phase : Phase

/-- How a run ends: with a value or a fault, or given up by the hook. -/
inductive Ending where
  | finished (result : Except Fault Value)
  | aborted

/-- The frames that are active, the innermost first. -/
def Phase.frames : Phase → List Frame
  | running f callers => f :: callers
  | giving _ frames => frames
  | unwinding frames => frames

/-- How the run ended, once no frame is left. -/
def Phase.ending? : Phase → Option Ending
  | giving result [] => some (.finished result)
  | unwinding [] => some .aborted
  | _ => none

/-- What is left of an event once the hook has answered it. -/
structure Notice (σ : Type) where
  tracer : σ
  frame : Frame
  verdict : Verdict

namespace Frame

/-- Whether the next line event is due at the instruction at `offset`: it starts an entry of the
line table, or its line is not that of the last line event. -/
def entersLine (f : Frame) (offset : Nat) : Bool :=
  f.code.isLineStart offset || f.lastLine != some (f.code.lineAt offset)

/-- Shows an event of the frame to the hook. -/
def notify {σ : Type} (hook : Tracer σ) (s : σ) (vm : Vm) (f : Frame) (e : Trace.Event) :
    Notice σ :=
  let reply := hook.onEvent s ⟨vm.store, f.code, f.lasti, vm.depth, f.flags⟩ e
  ⟨reply.state, { f with flags := reply.flags }, reply.verdict⟩

/-- Shows an event to the hook, and no more of this frame if the hook wants no more. -/
def notifyLocal {σ : Type} (hook : Tracer σ) (s : σ) (vm : Vm) (f : Frame) (e : Trace.Event) :
    Notice σ :=
  let n := f.notify hook s vm e
  if n.verdict = .proceed then n else { n with frame := { n.frame with active := false } }

/-- Shows the line event of an instruction to the hook, if one is due. -/
def notifyLine {σ : Type} (hook : Tracer σ) (s : σ) (vm : Vm) (f : Frame) : Notice σ :=
  if f.flags.lines && f.entersLine f.lasti then
    let line := f.code.lineAt f.lasti
    { f with lastLine := some line }.notifyLocal hook s vm (.line line)
  else ⟨s, f, .proceed⟩

/-- Shows the opcode event of an instruction to the hook, if the frame sends any. -/
def notifyOpcode {σ : Type} (hook : Tracer σ) (s : σ) (vm : Vm) (f : Frame) : Notice σ :=
  if f.flags.opcodes then f.notifyLocal hook s vm .opcode else ⟨s, f, .proceed⟩

/-- Shows the events of an instruction to the hook: that of its line, then, unless this was answered
otherwise than with `proceed`, that of its opcode. -/
def notifyInstruction {σ : Type} (hook : Tracer σ) (s : σ) (vm : Vm) (f : Frame) : Notice σ :=
  if f.active then
    let n := f.notifyLine hook s vm
    if n.verdict = .proceed then n.frame.notifyOpcode hook n.tracer vm else n
  else ⟨s, f, .proceed⟩

end Frame

namespace Machine

variable {σ : Type} (hook : Option (Tracer σ))

/-- Calls the function with the given code: a wrong number of arguments is refused first, then a
frame too many. -/
def enter (vm : Vm) (s : σ) (code : Code) (args : List Value) (callers : List Frame) :
    Machine σ :=
  if args.length ≠ code.argcount then
    ⟨vm, s, .giving (.error (.wrongArgumentCount code.name code.argcount args.length)) callers⟩
  else if vm.limit ≤ vm.depth then
    ⟨vm.record (.recursionLimitHit vm.limit code.name), s,
      .giving (.error (.recursionLimit code.name)) callers⟩
  else
    let vm := { vm with depth := vm.depth + 1 }
    let vm := vm.record (.frameEntered code.name vm.depth)
    let f := Frame.enter code args
    match hook with
    | none => ⟨vm, s, .running f callers⟩
    | some hook =>
      let n := f.notify hook s vm .call
      match n.verdict with
      | .proceed => ⟨vm, n.tracer, .running { n.frame with active := true } callers⟩
      | .stop => ⟨vm, n.tracer, .running n.frame callers⟩
      | .abort => ⟨vm, n.tracer, .unwinding (n.frame :: callers)⟩

def invoke (vm : Vm) (s : σ) (callee : Value) (args : List Value) (callers : List Frame) :
    Machine σ :=
  match callee with
  | .function id => enter hook vm s (vm.store.code id) args callers
  | .builtin b =>
    let (result, vm) := b.call args vm
    ⟨vm, s, .giving result callers⟩
  | v => ⟨vm, s, .giving (.error (.notCallable v.kind)) callers⟩

def lastEvent : Except Fault Value → Trace.Event
  | .ok v => .returned v
  | .error e => .raised e.display

def leave (vm : Vm) (s : σ) (f : Frame) (result : Except Fault Value) (callers : List Frame) :
    Machine σ :=
  match hook, f.active with
  | some hook, true =>
    let n := f.notify hook s vm (lastEvent result)
    if n.verdict = .abort then ⟨vm, n.tracer, .unwinding (n.frame :: callers)⟩
    else ⟨{ vm with depth := vm.depth - 1 }, n.tracer, .giving result callers⟩
  | _, _ => ⟨{ vm with depth := vm.depth - 1 }, s, .giving result callers⟩

/-- Goes on as an instruction says. -/
def proceed (s : σ) (callers : List Frame) : Effect → Machine σ
  | .next vm f => ⟨vm, s, .running f callers⟩
  | .jump vm f target => ⟨vm, s, .running { f with pc := target * 2 } callers⟩
  | .call vm f callee args => invoke hook vm s callee args (f :: callers)
  | .leave vm f result => leave hook vm s f result callers

/-- Executes the next instruction of a frame.  It is counted, then shown to the hook, then
executed. -/
def executeNext (vm : Vm) (s : σ) (f : Frame) (callers : List Frame) : Machine σ :=
  match f.fetch with
  | .error e => leave hook vm s f (.error e) callers
  | .ok (op, low) =>
    let arg := foldArg f.pending low
    let vm := { vm with executed := vm.executed + 1 }
    let f := f.advance op arg
    match hook with
    | none => proceed hook s callers (execute op arg vm f)
    | some tracer =>
      let n := f.notifyInstruction tracer s vm
      if n.verdict = .abort then ⟨vm, n.tracer, .unwinding (n.frame :: callers)⟩
      else proceed hook n.tracer callers (execute op arg vm n.frame)

/-- One step.  A machine that has ended stays as it is. -/
def step (m : Machine σ) : Machine σ :=
  match m with
  | ⟨vm, s, .running f callers⟩ => executeNext hook vm s f callers
  | ⟨vm, s, .giving (.ok v) (f :: callers)⟩ => ⟨vm, s, .running (f.push v) callers⟩
  | ⟨vm, s, .giving (.error e) (f :: callers)⟩ => leave hook vm s f (.error e) callers
  | ⟨vm, s, .unwinding (_ :: frames)⟩ =>
    ⟨{ vm with depth := vm.depth - 1 }, s, .unwinding frames⟩
  | m => m

/-- How a machine ends, if it does within `fuel` steps, and what it is then. -/
def run : Nat → Machine σ → Option (Ending × Machine σ)
  | 0, m => m.phase.ending?.map (·, m)
  | fuel + 1, m =>
    match m.phase.ending? with
    | some ending => some (ending, m)
    | none => run fuel (m.step hook)

end Machine

end Wordcode
