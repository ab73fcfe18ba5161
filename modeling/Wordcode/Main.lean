import Std.Time.Format
import Wordcode.Bench

/-! The command line: the first argument names a benchmark program, which ignores all others.  The
output of the program goes to standard output, and the events that the environment variable
`RUST_LOG` lets through go to standard error, each with the time. -/

namespace Wordcode.CommandLine

/-- The number of steps within which a program has to end. -/
def stepLimit : Nat := 1000000000000000

/-- Steps a profiled machine to its end, and adds to `times` when each reading of the clock that the
profiler makes falls due. -/
partial def clockReadings (m : Machine Trace.Profiler) (times : Array Nat) : IO (Array Nat) := do
  let now ← IO.monoNanosNow
  match m.phase.ending? with
  | some _ => return times.push now
  | none =>
    let m := m.step (some (Trace.opcodeProfiler fun _ => 0))
    clockReadings m (times ++ Array.replicate (m.tracer.readings - times.size) now)

/-- The clock of the profiled loop: the times at which a run of the loop makes its readings. -/
def loopClock : IO (Nat → Nat) := do
  match Vm.standard.loadProgram (.countLoop (Int64.ofNat traceLoopIterations)) stepLimit with
  | some (.ok abc, vm) =>
    let hook := Trace.opcodeProfiler fun _ => 0
    let times ← clockReadings (vm.start (some hook) {} (.call abc [])) #[]
    return fun i => times.getD i 0
  | _ => return fun _ => 0

/-- Does the work of a program, with the time that it took in nanoseconds. -/
def measured (b : Bench) : IO (Option Work × Nat) := do
  let clock ← if b = .traceOpcodes then loopClock else pure fun _ => 0
  let start ← IO.monoNanosNow
  let work ← IO.lazyPure fun _ => b.work clock stepLimit
  return (work, (← IO.monoNanosNow) - start)

/-- Shows an event with the time. -/
def showEvent (e : Log.Record) : IO Unit := do
  let now ← Std.Time.Timestamp.now
  let time := (Std.Time.DateTime.ofTimestamp now Std.Time.TimeZone.ZoneRules.UTC).format
    "uuuu-MM-dd'T'HH:mm:ss.SSSSSS'Z'"
  IO.eprintln (time ++ "  " ++ e.line)

end Wordcode.CommandLine

open Wordcode Wordcode.CommandLine

/-- Runs the program that the first argument names. -/
def main (args : List String) : IO UInt32 := do
  match args.head?.bind Bench.ofName? with
  | none =>
    IO.eprintln ("usage: PROGRAM, one of " ++ ", ".intercalate (Bench.all.map Bench.name))
    return 2
  | some b =>
    let filter := Log.Filter.ofSetting (← IO.getEnv "RUST_LOG")
    match ← measured b with
    | (some work, nanos) =>
      let report := work.report { elapsedMs := Text.millis 0 nanos }
      for e in report.shown filter do
        showEvent e
      IO.print report.stdout
      return report.status.toUInt32
    | (none, _) =>
      IO.eprintln "the program did not end"
      return 1
