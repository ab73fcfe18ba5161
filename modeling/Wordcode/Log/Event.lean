import Wordcode.Text.Quoted

/-! Log events: what the library and its programs report about their work, each with a level, a
target, a message and named fields. -/

namespace Wordcode.Log

/-- How urgent an event is, the most urgent first. -/
inductive Level where
  | error
  | warn
  | info
  | debug
  | trace
  deriving DecidableEq

namespace Level

def all : List Level := [error, warn, info, debug, trace]

/-- The place of a level, 1 for the most urgent. -/
def rank : Level → Nat
  | error => 1
  | warn => 2
  | info => 3
  | debug => 4
  | trace => 5

def name : Level → String
  | error => "ERROR"
  | warn => "WARN"
  | info => "INFO"
  | debug => "DEBUG"
  | trace => "TRACE"

end Level

/-- The value of a field: a number, a text that is quoted in a log line, or one that is not. -/
inductive FieldValue where
  | number (n : Nat)
  | text (s : String)
  | plain (s : String)
  deriving DecidableEq

def FieldValue.display : FieldValue → String
  | number n => toString n
  | text s => Text.quote s
  | plain s => s

/-- The form in which all events are listed. -/
structure Record where
  level : Level
  target : String
  message : String
  fields : List (String × FieldValue)
  deriving DecidableEq

/-- The names of the fields of an event, of which its message is one. -/
def Record.fieldNames (r : Record) : List String := "message" :: r.fields.map Prod.fst

inductive Event where
  | frameEntered (function : String) (depth : Nat)
  | recursionLimitHit (limit : Nat) (function : String)
  | hookInstalled
  | hookReleased
  | intMapPopulated (entries : Nat)
  | strMapPopulated (entries : Nat)
  | dataReleased (freedObjects liveObjects : Nat)
  | fibFinished (n : Nat) (elapsedMs : String)
  | delegationDrained (yielded : Nat) (elapsedMs : String)
  | intMapChecked (entries : Nat) (elapsedMs : String)
  | strMapProbed (entries : Nat) (elapsedMs : String)
  | lookupFailed (reason : String)
  | profileCollected (distinct : Nat) (elapsed : String)
  deriving DecidableEq

namespace Event

def machineTarget : String := "opbench::vm"

def traceTarget : String := "opbench::vm::trace"

def workloadTarget : String := "opbench::workload"

def heapTarget : String := "opbench::heap"

def record : Event → Record
  | frameEntered function depth =>
    ⟨.trace, machineTarget, "enter frame", [("function", .text function), ("depth", .number depth)]⟩
  | recursionLimitHit limit function =>
    ⟨.debug, machineTarget, "recursion limit hit",
      [("limit", .number limit), ("function", .text function)]⟩
  | hookInstalled => ⟨.debug, traceTarget, "trace hook installed", []⟩
  | hookReleased => ⟨.debug, traceTarget, "trace hook released", []⟩
  | intMapPopulated entries =>
    ⟨.debug, workloadTarget, "populated int map", [("entries", .number entries)]⟩
  | strMapPopulated entries =>
    ⟨.debug, workloadTarget, "populated str map", [("entries", .number entries)]⟩
  | dataReleased freed live =>
    ⟨.debug, heapTarget, "released workload data",
      [("freed_objects", .number freed), ("live_objects", .number live)]⟩
  | fibFinished n elapsed =>
    ⟨.info, workloadTarget, "fib finished", [("n", .number n), ("elapsed_ms", .plain elapsed)]⟩
  | delegationDrained yielded elapsed =>
    ⟨.info, workloadTarget, "delegation drained",
      [("yielded", .number yielded), ("elapsed_ms", .plain elapsed)]⟩
  | intMapChecked entries elapsed =>
    ⟨.info, workloadTarget, "int map populated and checked",
      [("entries", .number entries), ("elapsed_ms", .plain elapsed)]⟩
  | strMapProbed entries elapsed =>
    ⟨.info, workloadTarget, "string map populated and probed",
      [("entries", .number entries), ("elapsed_ms", .plain elapsed)]⟩
  | lookupFailed reason =>
    ⟨.error, workloadTarget, "int map lookup failed", [("err", .plain reason)]⟩
  | profileCollected distinct elapsed =>
    ⟨.debug, traceTarget, "profile collected",
      [("distinct", .number distinct), ("elapsed", .plain elapsed)]⟩

end Event

end Wordcode.Log
