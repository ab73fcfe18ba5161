import Wordcode.Text.Duration
import Wordcode.Trace.Histogram
import Wordcode.Trace.Tracer

/-! Tracers that count: the opcode counter records the name of every instruction that is executed,
and the profiler also charges the time between two opcode events to the earlier one. -/

namespace Wordcode.Trace

/-- The name under which the instruction that a view shows is counted. -/
def View.counted? (view : View) : Option String :=
  view.code.bytes[view.lasti]?.map Opcode.nameOfByte

/-- The tracer that counts instructions by opcode.  It asks for opcode events at every event of a
frame, so each frame goes on sending them. -/
def opcodeCounter : Tracer Histogram where
  onEvent h view e :=
    let h :=
      match e, view.counted? with
      | .opcode, some name => h.record name
      | _, _ => h
    ⟨h, { view.flags with opcodes := true }, .proceed⟩

/-! ### Profiles -/

/-- Counts by opcode, with the nanoseconds charged to each. -/
structure Profile where
  histogram : Histogram := {}
  charged : Std.HashMap String Nat := ∅

namespace Profile

def elapsed (p : Profile) (name : String) : Nat := p.charged.getD name 0

def totalElapsed (p : Profile) : Nat := (p.charged.toList.map Prod.snd).foldr (· + ·) 0

def charge (p : Profile) (name : String) (nanos : Nat) : Profile :=
  { p with charged := p.charged.alter name fun spent? => some (spent?.getD 0 + nanos) }

/-- The listing of the counts, with a column of times. -/
def display (p : Profile) : String :=
  String.join (p.histogram.sorted.map fun (name, count) =>
    Histogram.row name count ++ " " ++ Text.alignRight 14 (Text.duration (p.elapsed name)) ++ "\n")

end Profile

/-- A profile in the making: the opcode that runs since a time, and the number of times that the
clock was read. -/
structure Profiler where
  profile : Profile := {}
  running : Option (String × Nat) := none
  readings : Nat := 0

namespace Profiler

/-- Charges the opcode that runs for the time up to `now`. -/
def settle (p : Profiler) (now : Nat) : Profiler :=
  match p.running with
  | some (name, since) => { p with profile := p.profile.charge name (now - since), running := none }
  | none => p

/-- The profile, once the opcode that still runs is charged. -/
def finish (clock : Nat → Nat) (p : Profiler) : Profile := (p.settle (clock p.readings)).profile

end Profiler

/-- The tracer that profiles, where reading the clock for the `i`-th time gives `clock i`.  The last
opcode of a frame runs until the frame is left. -/
def opcodeProfiler (clock : Nat → Nat) : Tracer Profiler where
  onEvent p view e :=
    let now := clock p.readings
    let p := { p with readings := p.readings + 1 }
    let p :=
      match e with
      | .opcode =>
        let p := p.settle now
        match view.counted? with
        | some name =>
          { p with
            profile := { p.profile with histogram := p.profile.histogram.record name }
            running := some (name, now) }
        | none => p
      | .returned _ | .raised _ => p.settle now
      | .call | .line _ => p
    ⟨p, { view.flags with opcodes := true }, .proceed⟩

end Wordcode.Trace
