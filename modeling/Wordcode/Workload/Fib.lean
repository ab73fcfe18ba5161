/-! The recursive Fibonacci workload. -/

namespace Wordcode.Workload

/-- The Fibonacci numbers by their recurrence, which is what the workload measures. -/
def fib : Nat → Nat
  | 0 => 0
  | 1 => 1
  | 2 => 1
  | n + 3 => fib (n + 2) + fib (n + 1)

/-- The argument of the benchmark. -/
def fibArgument : Nat := 29

def fibResult : Nat := 514229

end Wordcode.Workload
