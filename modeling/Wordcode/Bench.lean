import Wordcode.Heap
import Wordcode.Log.Filter
import Wordcode.Scenario

/-! The benchmark programs: the work that each of them does, and then what it prints and which
events it reports.  What was measured around the work, times and heap counters, is given to the
report. -/

namespace Wordcode

inductive Bench where
  | fib
  | hashmapGetter
  | hashmapStr
  | delegate
  | traceOpcodes
  deriving DecidableEq

/-- What comes out of the work of a benchmark program. -/
inductive Work where
  | fib (value : Nat)
  | intMap (map : Workload.IntMap) (checked : Except Workload.LookupError Nat)
  | strMap (map : Workload.StrMap) (summary : Workload.LookupSummary)
  | delegate (yielded : Nat)
  | profile (result : Except ProgramError Trace.Profile) (log : List Log.Event)

/-- What is measured around the work. -/
structure Measures where
  /-- The time of the work, in milliseconds. -/
  elapsedMs : Nat := 0
  /-- The counters before the data of the work are released. -/
  before : HeapStats := {}
  /-- The counters after that. -/
  after : HeapStats := {}

/-- What a program leaves: its exit status, its output, and the events that it reports. -/
structure BenchReport where
  status : Nat := 0
  stdout : String
  events : List Log.Event

namespace Bench

def all : List Bench := [fib, hashmapGetter, hashmapStr, delegate, traceOpcodes]

def name : Bench → String
  | fib => "bench_fib"
  | hashmapGetter => "bench_hashmap_getter"
  | hashmapStr => "bench_hashmap_str"
  | delegate => "bench_delegate"
  | traceOpcodes => "trace_opcodes"

def ofName? (name : String) : Option Bench := all.find? fun b => b.name == name

/-- The work of a program, where the clock of the profiler gives `clock`, and the profiled loop has
to end within `fuel` steps. -/
def work (b : Bench) (clock : Nat → Nat) (fuel : Nat) : Option Work :=
  match b with
  | fib => some (.fib (Workload.fib Workload.fibArgument))
  | hashmapGetter =>
    let map := Workload.populateInt Workload.mapSize
    some (.intMap map (Workload.lookupInt map 0 Workload.mapSize))
  | hashmapStr =>
    let map := Workload.populateStr Workload.mapSize
    some (.strMap map (Workload.lookupStr map 0 Workload.mapSize))
  | delegate =>
    some (.delegate (Workload.Sequence.drain (Workload.delegate Workload.sequenceLength)))
  | traceOpcodes =>
    (Vm.standard.profileOpcodes clock (Int64.ofNat traceLoopIterations) fuel).map
      fun (result, vm) => .profile result vm.log.toList

end Bench

def Work.report (w : Work) (m : Measures) : BenchReport :=
  match w with
  | .fib value =>
    { stdout :=
        toString value ++ "\nheap objects: " ++ toString m.after.liveObjects ++ "\n"
      events := [.fibFinished Workload.fibArgument (toString m.elapsedMs)] }
  | .intMap map (.ok checked) =>
    { stdout := "checked=" ++ toString checked ++ "\n" ++ m.after.report ++ "\n"
      events :=
        [Workload.populatedInt map, .intMapChecked Workload.mapSize (toString m.elapsedMs),
          Heap.released m.before m.after] }
  | .intMap map (.error e) =>
    { status := 1
      stdout := ""
      events := [Workload.populatedInt map, .lookupFailed e.message] }
  | .strMap map summary =>
    { stdout :=
        "hits=" ++ toString summary.hits ++ " misses=" ++ toString summary.misses ++ "\n" ++
          m.after.report ++ "\n"
      events :=
        [Workload.populatedStr map, .strMapProbed Workload.mapSize (toString m.elapsedMs),
          Heap.released m.before m.after] }
  | .delegate yielded =>
    { stdout := toString yielded ++ "\n"
      events := [.delegationDrained yielded (toString m.elapsedMs)] }
  | .profile (.ok p) log =>
    { stdout := p.display ++ "Total opcodes executed: " ++ toString p.histogram.total ++ "\n"
      events := log ++ [.profileCollected p.histogram.size (Text.duration p.totalElapsed)] }
  | .profile (.error _) log => { status := 1, stdout := "", events := log }

def BenchReport.shown (r : BenchReport) (f : Log.Filter) : List Log.Record :=
  (r.events.map Log.Event.record).filter f.admits

end Wordcode
