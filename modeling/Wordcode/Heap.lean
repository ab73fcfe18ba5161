import Wordcode.Log.Event

/-! Heap accounting: counters that follow the blocks of a heap as they are allocated, resized and
freed.  The system may refuse a block; a refused request changes no counter and no block. -/

namespace Wordcode

/-- The counters of a heap, as machine words. -/
structure HeapStats where
  liveObjects : UInt64 := 0
  liveBytes : UInt64 := 0
  peakBytes : UInt64 := 0
  allocations : UInt64 := 0
  deallocations : UInt64 := 0
  reallocations : UInt64 := 0
  deriving DecidableEq

namespace HeapStats

def isTracking (s : HeapStats) : Bool := 0 < s.allocations

def display (s : HeapStats) : String :=
  "live_objects=" ++ toString s.liveObjects ++ " live_bytes=" ++ toString s.liveBytes ++
    " peak_bytes=" ++ toString s.peakBytes ++ " allocations=" ++ toString s.allocations ++
    " deallocations=" ++ toString s.deallocations ++ " reallocations=" ++
    toString s.reallocations

def report (s : HeapStats) : String := "heap: " ++ s.display

/-- The sum of two words, or the greatest word if that is less. -/
def saturatingAdd (a b : UInt64) : UInt64 := if a ≤ a + b then a + b else 0xFFFFFFFFFFFFFFFF

/-- Counts `size` more live bytes; the peak follows. -/
def growBytes (s : HeapStats) (size : UInt64) : HeapStats :=
  { s with
    liveBytes := s.liveBytes + size
    peakBytes := max s.peakBytes (saturatingAdd s.liveBytes size) }

def allocated (s : HeapStats) (size : UInt64) : HeapStats :=
  { s with allocations := s.allocations + 1, liveObjects := s.liveObjects + 1 }.growBytes size

def deallocated (s : HeapStats) (size : UInt64) : HeapStats :=
  { s with
    deallocations := s.deallocations + 1
    liveObjects := s.liveObjects - 1
    liveBytes := s.liveBytes - size }

/-- Counts a change of a block from `old` to `new` bytes: it moves bytes, not objects. -/
def reallocated (s : HeapStats) (old new : UInt64) : HeapStats :=
  let s := { s with reallocations := s.reallocations + 1 }
  if old < new then s.growBytes (new - old)
  else if new < old then { s with liveBytes := s.liveBytes - (old - new) }
  else s

def resetPeak (s : HeapStats) : HeapStats := { s with peakBytes := s.liveBytes }

end HeapStats

/-- A heap: its counters, and the blocks in the order in which they were requested, each with its
size while it is live. -/
structure Heap where
  stats : HeapStats := {}
  blocks : Array (Option UInt64) := #[]

namespace Heap

def size? (h : Heap) (block : Nat) : Option UInt64 := (h.blocks[block]?).join

/-- Requests the next block, which is live if the system grants it. -/
def alloc (h : Heap) (size : UInt64) (granted : Bool) : Heap :=
  if granted then
    { h with stats := h.stats.allocated size, blocks := h.blocks.push (some size) }
  else { h with blocks := h.blocks.push none }

def realloc (h : Heap) (block : Nat) (size : UInt64) (granted : Bool) : Heap :=
  match h.size? block with
  | some old =>
    if granted then
      { h with
        stats := h.stats.reallocated old size
        blocks := h.blocks.setIfInBounds block (some size) }
    else h
  | none => h

def dealloc (h : Heap) (block : Nat) : Heap :=
  match h.size? block with
  | some size =>
    { h with stats := h.stats.deallocated size, blocks := h.blocks.setIfInBounds block none }
  | none => h

def resetPeak (h : Heap) : Heap := { h with stats := h.stats.resetPeak }

/-- The event of a release that took the counters from `before` to `after`. -/
def released (before after : HeapStats) : Log.Event :=
  .dataReleased (before.liveObjects.toNat - after.liveObjects.toNat) after.liveObjects.toNat

/-- Frees a live block and reports the counters. -/
def release (h : Heap) (block : Nat) : Heap × Log.Event :=
  let after := h.dealloc block
  (after, released h.stats after.stats)

end Heap

/-- The number of addresses that a program has: addresses are of 47 bits. -/
def addressSpace : UInt64 := 0x800000000000

/-- Whether the system grants a block of a size: it refuses one that no address space holds. -/
def systemGrants (size : UInt64) : Bool := size < addressSpace

end Wordcode
