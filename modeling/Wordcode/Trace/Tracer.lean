import Wordcode.Store

/-! Tracers: what a trace hook is shown, and what it answers.  A tracer is a state machine over the
events of the frames that it watches. -/

namespace Wordcode.Trace

/-- The events of a frame. -/
inductive Event where
  /-- The frame was entered. -/
  | call
  /-- An instruction of a new source line is about to be executed. -/
  | line (line : UInt32)
  /-- An instruction is about to be executed. -/
  | opcode
  /-- The frame is left with a value. -/
  | returned (v : Value)
  /-- The frame is left with a fault, of which this is the text. -/
  | raised (message : String)
  deriving DecidableEq

def Event.kind : Event → String
  | call => "call"
  | line _ => "line"
  | opcode => "opcode"
  | returned _ => "return"
  | raised _ => "exception"

/-- The events that a frame sends: a tracer may change these switches of the frame it is shown. -/
structure Flags where
  lines : Bool := true
  opcodes : Bool := false
  deriving DecidableEq

/-- What a tracer is shown of the frame that an event is about, and of the objects of the store. -/
structure View where
  store : Store
  code : Code
  /-- The byte offset of the instruction being executed. -/
  lasti : Nat
  /-- The number of active frames. -/
  depth : Nat
  flags : Flags

def View.function (view : View) : String := view.code.name

def View.line (view : View) : UInt32 := view.code.lineAt view.lasti

def View.opcode? (view : View) : Option Opcode := view.code.opcodeAt? view.lasti

/-- What a tracer wants: more events of this frame, no more of them, or to give up altogether. -/
inductive Verdict where
  | proceed
  | stop
  | abort
  deriving DecidableEq

/-- The answer of a tracer to an event. -/
structure Reply (σ : Type) where
  state : σ
  flags : Flags
  verdict : Verdict

/-- A trace hook with states of type `σ`. -/
structure Tracer (σ : Type) where
  onEvent : σ → View → Event → Reply σ

end Wordcode.Trace
