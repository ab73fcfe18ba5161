import Wordcode.Opcode
import Wordcode.Text.CodePoints
import Wordcode.Text.Alphanumeric
import Wordcode.Text.Blank
import Wordcode.Text.Column
import Wordcode.Text.Duration
import Wordcode.Text.Nonprinting
import Wordcode.Text.Number
import Wordcode.Text.Pattern
import Wordcode.Text.Quoted
import Wordcode.Value
import Wordcode.Code
import Wordcode.Store
import Wordcode.Code.Listing
import Wordcode.Assembly.Draft
import Wordcode.Assembly.Layout
import Wordcode.Assembly.Build
import Wordcode.Log.Event
import Wordcode.Log.Directive
import Wordcode.Log.Filter
import Wordcode.Machine.Fault
import Wordcode.Machine.Operators
import Wordcode.Machine.Vm
import Wordcode.Machine.Frame
import Wordcode.Machine.Step
import Wordcode.Machine.Run
import Wordcode.Trace.Tracer
import Wordcode.Trace.Histogram
import Wordcode.Trace.Counter
import Wordcode.Trace.Recorder
import Wordcode.Programs
import Wordcode.Workload.Fib
import Wordcode.Workload.Lookup
import Wordcode.Workload.Sequence
import Wordcode.Heap
import Wordcode.Scenario
import Wordcode.Bench
import Wordcode.Main
import Wordcode.Proofs.Draft
import Wordcode.Proofs.Layout
import Wordcode.Proofs.Decode
import Wordcode.Proofs.Execute
import Wordcode.Proofs.Instructions
import Wordcode.Proofs.Steps
import Wordcode.Proofs.Tracing
import Wordcode.Proofs.Counting
import Wordcode.Proofs.Symbolic
import Wordcode.Proofs.Reachable
import Wordcode.Proofs.Items
import Wordcode.Proofs.Meaning
import Wordcode.Proofs.HeapCounters
import Wordcode.Proofs.Faults
import Wordcode.Proofs.Moves
import Wordcode.Proofs.Recording
import Wordcode.Proofs.Limit
import Wordcode.Proofs.Protocol
import Wordcode.Proofs.Reuse
import Wordcode.Proofs.Routes
import Wordcode.Proofs.Loading
import Wordcode.Proofs.Loops
import Wordcode.Proofs.Fibonacci
import Wordcode.Proofs.CountLoop
import Wordcode.Proofs.Getter
import Wordcode.Proofs.Words
import Wordcode.Proofs.Tables
import Wordcode.Proofs.Frames
import Wordcode.Proofs.Safety
import Wordcode.Proofs.LeastLayout
import Wordcode.Proofs.LineTable
import Wordcode.Proofs.LineEvents
import Wordcode.Proofs.Confinement
import Wordcode.Proofs.Interference
import Wordcode.Proofs.Activations
import Wordcode.Proofs.Folding
import Wordcode.Proofs.WellFormed
import Wordcode.Proofs.Iterators
import Wordcode.Proofs.ForLoop
import Wordcode.Proofs.Columns
import Wordcode.Proofs.Listing
import Wordcode.Proofs.Comparisons
import Wordcode.Proofs.Histograms
import Wordcode.Proofs.Interning
import Wordcode.Proofs.Outcomes
import Wordcode.Proofs.Arguments
import Wordcode.Proofs.Provenance
import Wordcode.Proofs.Dictionaries
import Wordcode.Proofs.Decimals
import Wordcode.Proofs.Lookups
import Wordcode.Proofs.Delegation
