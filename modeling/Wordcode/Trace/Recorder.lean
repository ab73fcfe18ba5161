import Wordcode.Trace.Tracer

/-! The recorder: a tracer that writes down what it is shown and then acts by rules.  A rule that
matches an event may set the flags of the frame, stop the events of the frame, or give up. -/

namespace Wordcode.Trace

/-- What goes with an event: the line of a line event, the text of the value or of the fault with
which a frame is left. -/
inductive Payload where
  | nothing
  | line (line : UInt32)
  | text (s : String)
  deriving DecidableEq

/-- What goes with an event that a view shows. -/
def View.payload (view : View) : Event → Payload
  | .call | .opcode => .nothing
  | .line line => .line line
  | .returned v => .text (view.store.display v)
  | .raised message => .text message

/-- An event as the recorder writes it down, with the flags that the frame had then. -/
structure Sighting where
  kind : String
  payload : Payload
  function : String
  depth : Nat
  lasti : Nat
  line : UInt32
  opcode? : Option Opcode
  flags : Flags
  deriving DecidableEq

def View.sighting (view : View) (e : Event) : Sighting :=
  ⟨e.kind, view.payload e, view.function, view.depth, view.lasti, view.line, view.opcode?,
    view.flags⟩

inductive Action where
  | setOpcodes (enabled : Bool)
  | setLines (enabled : Bool)
  | stop
  | abort
  deriving DecidableEq

/-- A rule: what it does to the events that agree with all that it says about them. -/
structure Rule where
  kind? : Option String := none
  function? : Option String := none
  /-- The number of the event, from 0. -/
  nth? : Option Nat := none
  line? : Option Nat := none
  depth? : Option Nat := none
  /-- The name of the instruction, or that there is none. -/
  opcode? : Option (Option String) := none
  actions : List Action := []

/-- Whether a wanted value, if there is one, is the given one. -/
def agrees {α : Type} [DecidableEq α] (wanted? : Option α) (given : α) : Bool :=
  match wanted? with
  | some wanted => wanted = given
  | none => true

/-- Whether a rule matches event number `nth`. -/
def Rule.matches (rule : Rule) (nth : Nat) (s : Sighting) : Bool :=
  agrees rule.kind? s.kind && agrees rule.function? s.function && agrees rule.nth? nth &&
    agrees rule.line? s.line.toNat && agrees rule.depth? s.depth &&
    agrees rule.opcode? (s.opcode?.map Opcode.name)

/-- The flags and the verdict after an action. -/
def Action.apply (answer : Flags × Verdict) : Action → Flags × Verdict
  | setOpcodes enabled => ({ answer.1 with opcodes := enabled }, answer.2)
  | setLines enabled => ({ answer.1 with lines := enabled }, answer.2)
  | stop => (answer.1, if answer.2 = .abort then .abort else .stop)
  | abort => (answer.1, .abort)

/-- What the recorder has written down: how many events it was shown, and the first of them. -/
structure Recording where
  seen : Nat := 0
  events : Array Sighting := #[]

/-- The tracer that writes down the first `keep` events and acts by `rules`, in their order. -/
def recorder (rules : List Rule) (keep : Nat) : Tracer Recording where
  onEvent r view e :=
    let s := view.sighting e
    let actions := (rules.filter fun rule => rule.matches r.seen s).flatMap Rule.actions
    let (flags, verdict) := actions.foldl Action.apply (view.flags, .proceed)
    ⟨{ seen := r.seen + 1, events := if r.events.size < keep then r.events.push s else r.events },
      flags, verdict⟩

end Wordcode.Trace
