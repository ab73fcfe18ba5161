import Mathlib.Algebra.BigOperators.Group.List.Basic
import Mathlib.Algebra.GroupWithZero.Nat
import Mathlib.Order.Bounds.Basic
import Wordcode.Heap

/-! Heap accounting is exact.  After every history of requests that a program may make, whichever of
them the system refuses, the counters are those of the live blocks and of the requests that were
granted, and none of the subtractions on the way wraps around. -/

namespace Wordcode

/-- What a program asks of a heap, and whether the system grants it. -/
inductive Heap.Request where
  | alloc (size : UInt64) (granted : Bool)
  | allocZeroed (size : UInt64) (granted : Bool)
  | realloc (block : Nat) (size : UInt64) (granted : Bool)
  | dealloc (block : Nat)
  | resetPeak
  deriving DecidableEq

namespace Heap.Request

/-- Whether a request is granted a new block. -/
def allocates : Request → Bool
  | alloc _ granted | allocZeroed _ granted => granted
  | _ => false

/-- Whether a request is granted another size for a block. -/
def resizes : Request → Bool
  | realloc _ _ granted => granted
  | _ => false

def frees : Request → Bool
  | dealloc _ => true
  | _ => false

def refused : Request → Bool
  | alloc _ granted | allocZeroed _ granted | realloc _ _ granted => !granted
  | _ => false

end Heap.Request

namespace Heap

def perform (h : Heap) : Request → Heap
  | .alloc size granted | .allocZeroed size granted => h.alloc size granted
  | .realloc block size granted => h.realloc block size granted
  | .dealloc block => h.dealloc block
  | .resetPeak => h.resetPeak

/-- The heap after a history of requests. -/
def after (requests : List Request) : Heap := requests.foldl perform {}

/-- The sizes of the blocks that are live. -/
def liveSizes (h : Heap) : List Nat := h.blocks.toList.filterMap (·.map UInt64.toNat)

def liveTotal (h : Heap) : Nat := h.liveSizes.sum

/-- The requests that a program may make of the heap `h`: no size is 0, and only live blocks are
resized and freed. -/
def Admits (h : Heap) : Request → Prop
  | .alloc size _ | .allocZeroed size _ => size ≠ 0
  | .realloc block size _ => size ≠ 0 ∧ ∃ old, h.size? block = some old
  | .dealloc block => ∃ size, h.size? block = some size
  | .resetPeak => True

/-- The histories of requests that a program may make, with always less than `2 ^ 64` bytes in live
blocks. -/
inductive Lawful : List Request → Prop
  | nil : Lawful []
  | snoc {requests : List Request} {request : Request} :
      Lawful requests → (after requests).Admits request →
      (after (requests ++ [request])).liveTotal < 2 ^ 64 → Lawful (requests ++ [request])

/-- The live totals after each of the requests since the peak was last reset, or since the start. -/
def totalsSinceReset (requests : List Request) : Set Nat :=
  {total | ∃ earlier later, requests = earlier ++ later ∧ .resetPeak ∉ later ∧
    total = (after earlier).liveTotal}

theorem after_snoc (requests : List Request) (request : Request) :
    after (requests ++ [request]) = (after requests).perform request :=
  List.foldl_concat perform {} request requests

/-! ### Blocks -/

/-- The sizes of live blocks before and behind one of them, whatever it becomes. -/
theorem exists_liveSizes_set {h : Heap} {block : Nat} {old : UInt64}
    (hlive : h.size? block = some old) :
    ∃ before behind, h.liveSizes = before ++ old.toNat :: behind ∧
      ∀ stats size?, (⟨stats, h.blocks.setIfInBounds block size?⟩ : Heap).liveSizes =
        before ++ (size?.map UInt64.toNat).toList ++ behind := by
  have hblock : h.blocks.toList[block]? = some (some old) := by
    rw [Array.getElem?_toList]
    exact Option.join_eq_some_iff.mp hlive
  obtain ⟨hlt, hget⟩ := List.getElem?_eq_some_iff.mp hblock
  have hset : ∀ stats size?, (⟨stats, h.blocks.setIfInBounds block size?⟩ : Heap).liveSizes =
      (h.blocks.toList.take block).filterMap (·.map UInt64.toNat) ++
        (size?.map UInt64.toNat).toList ++
        (h.blocks.toList.drop (block + 1)).filterMap (·.map UInt64.toNat) := by
    intro stats size?
    rw [liveSizes, Array.toList_setIfInBounds, List.set_eq_take_append_cons_drop, if_pos hlt,
      List.filterMap_append, List.append_assoc]
    cases size? <;> rfl
  have hself : (⟨h.stats, h.blocks.setIfInBounds block (some old)⟩ : Heap).liveSizes =
      h.liveSizes := by
    rw [liveSizes, Array.toList_setIfInBounds, ← hget, List.set_getElem_self, liveSizes]
  refine ⟨_, _, ?_, hset⟩
  rw [← hself, hset, List.append_assoc]
  rfl

theorem size?_push_none (h : Heap) (block : Nat) :
    (⟨h.stats, h.blocks.push none⟩ : Heap).size? block = h.size? block := by
  simp only [size?, Array.getElem?_push]
  split
  · rename_i heq
    rw [heq, Array.getElem?_size]
    rfl
  · rfl

/-- A refused request changes no counter and no block. -/
theorem perform_of_refused (h : Heap) {request : Request} (hrefused : request.refused = true) :
    (h.perform request).stats = h.stats ∧
      (∀ block, (h.perform request).size? block = h.size? block) ∧
      (h.perform request).liveSizes = h.liveSizes := by
  have halloc : ∀ size, (h.alloc size false).stats = h.stats ∧
      (∀ block, (h.alloc size false).size? block = h.size? block) ∧
      (h.alloc size false).liveSizes = h.liveSizes := by
    intro size
    refine ⟨rfl, h.size?_push_none, ?_⟩
    simp [alloc, liveSizes]
  cases request with
  | alloc size granted | allocZeroed size granted =>
    obtain rfl : granted = false := by simpa [Request.refused] using hrefused
    exact halloc size
  | realloc block size granted =>
    obtain rfl : granted = false := by simpa [Request.refused] using hrefused
    have hsame : h.realloc block size false = h := by
      unfold realloc
      split <;> rfl
    rw [perform, hsame]
    exact ⟨rfl, fun _ => rfl, rfl⟩
  | dealloc block => cases hrefused
  | resetPeak => cases hrefused

/-! ### What a request does -/

/-- What a request does to the counters and to the sizes of the live blocks. -/
inductive Change (stats : HeapStats) : List Nat → Request → HeapStats → List Nat → Prop
  | refused {sizes : List Nat} {request : Request} (h : request.refused = true) :
      Change stats sizes request stats sizes
  | allocated {sizes : List Nat} {request : Request} {size : UInt64} (hsize : 0 < size.toNat)
      (hallocates : request.allocates = true) (hresizes : request.resizes = false)
      (hfrees : request.frees = false) (hreset : request ≠ .resetPeak) :
      Change stats sizes request (stats.allocated size) (sizes ++ [size.toNat])
  | reallocated {before behind : List Nat} {block : Nat} {old size : UInt64}
      (hsize : 0 < size.toNat) :
      Change stats (before ++ old.toNat :: behind) (.realloc block size true)
        (stats.reallocated old size) (before ++ size.toNat :: behind)
  | deallocated {before behind : List Nat} {block : Nat} {size : UInt64} :
      Change stats (before ++ size.toNat :: behind) (.dealloc block) (stats.deallocated size)
        (before ++ behind)
  | reset {sizes : List Nat} : Change stats sizes .resetPeak stats.resetPeak sizes

theorem toNat_pos_of_ne_zero {size : UInt64} (h : size ≠ 0) : 0 < size.toNat := by
  rcases Nat.eq_zero_or_pos size.toNat with hzero | hpos
  · exact absurd (UInt64.toNat_inj.mp hzero) h
  · exact hpos

theorem change_perform {h : Heap} {request : Request} (hadmits : h.Admits request) :
    Change h.stats h.liveSizes request (h.perform request).stats
      (h.perform request).liveSizes := by
  by_cases hrefused : request.refused = true
  · obtain ⟨hstats, -, hsizes⟩ := h.perform_of_refused hrefused
    rw [hstats, hsizes]
    exact .refused hrefused
  have hpush : ∀ size, (h.alloc size true).liveSizes = h.liveSizes ++ [size.toNat] := by
    intro size
    simp [alloc, liveSizes]
  cases request with
  | alloc size granted | allocZeroed size granted =>
    obtain rfl : granted = true := by simpa [Request.refused] using hrefused
    have hchange : (h.alloc size true).stats = h.stats.allocated size := rfl
    rw [perform, hpush, hchange]
    exact .allocated (toNat_pos_of_ne_zero hadmits) rfl rfl rfl Request.noConfusion
  | realloc block size granted =>
    obtain rfl : granted = true := by simpa [Request.refused] using hrefused
    obtain ⟨hsize, old, hold⟩ := hadmits
    obtain ⟨before, behind, hsizes, hset⟩ := exists_liveSizes_set hold
    have hrealloc : h.realloc block size true =
        ⟨h.stats.reallocated old size, h.blocks.setIfInBounds block (some size)⟩ := by
      rw [realloc, hold]
      rfl
    rw [perform, hrealloc, hset, hsizes, List.append_assoc]
    exact .reallocated (toNat_pos_of_ne_zero hsize)
  | dealloc block =>
    obtain ⟨size, hsize⟩ := hadmits
    obtain ⟨before, behind, hsizes, hset⟩ := exists_liveSizes_set hsize
    have hdealloc : h.dealloc block =
        ⟨h.stats.deallocated size, h.blocks.setIfInBounds block none⟩ := by
      rw [dealloc, hsize]
    rw [perform, hdealloc, hset, hsizes]
    simpa using Change.deallocated
  | resetPeak => exact .reset

/-! ### Counters -/

/-- The counters of live blocks and bytes are those of blocks of the given sizes, none of them
empty, and the peak is not below. -/
structure Sound (stats : HeapStats) (sizes : List Nat) : Prop where
  objects : stats.liveObjects = UInt64.ofNat sizes.length
  bytes : stats.liveBytes.toNat = sizes.sum
  positive : ∀ size ∈ sizes, 0 < size
  peak : sizes.sum ≤ stats.peakBytes.toNat

theorem Sound.length_le {stats : HeapStats} {sizes : List Nat} (h : Sound stats sizes) :
    sizes.length ≤ sizes.sum :=
  List.length_le_sum_of_one_le sizes h.positive

theorem toNat_growBytes {s : HeapStats} {size : UInt64}
    (hfits : s.liveBytes.toNat + size.toNat < 2 ^ 64) :
    (s.growBytes size).liveBytes.toNat = s.liveBytes.toNat + size.toNat ∧
      (s.growBytes size).peakBytes.toNat =
        max s.peakBytes.toNat (s.liveBytes.toNat + size.toNat) := by
  have hsum : (s.liveBytes + size).toNat = s.liveBytes.toNat + size.toNat := by
    rw [UInt64.toNat_add, Nat.mod_eq_of_lt hfits]
  have hsaturating : HeapStats.saturatingAdd s.liveBytes size = s.liveBytes + size := by
    rw [HeapStats.saturatingAdd, if_pos]
    rw [UInt64.le_iff_toNat_le, hsum]
    exact Nat.le_add_right _ _
  refine ⟨hsum, ?_⟩
  rw [HeapStats.growBytes, hsaturating, UInt64.toNat_max, hsum]

/-- A block of `old` bytes among the live ones becomes one of `new` bytes. -/
theorem toNat_reallocated {s : HeapStats} {old new : UInt64} {rest : Nat}
    (hbytes : s.liveBytes.toNat = rest + old.toNat) (hfits : rest + new.toNat < 2 ^ 64)
    (hpeak : rest + old.toNat ≤ s.peakBytes.toNat) :
    (s.reallocated old new).liveBytes.toNat = rest + new.toNat ∧
      (s.reallocated old new).peakBytes.toNat =
        max s.peakBytes.toNat (rest + new.toNat) := by
  unfold HeapStats.reallocated
  dsimp only
  split
  · rename_i hlt
    have hdiff : (new - old).toNat = new.toNat - old.toNat :=
      UInt64.toNat_sub_of_le new old (Nat.le_of_lt hlt)
    have hgrown : s.liveBytes.toNat + (new - old).toNat = rest + new.toNat := by
      have hlt' := UInt64.lt_iff_toNat_lt.mp hlt
      omega
    rw [← hgrown]
    exact toNat_growBytes (s := { s with reallocations := s.reallocations + 1 })
      (by rw [← hgrown] at hfits; exact hfits)
  · split
    · rename_i hlt
      have hlt' := UInt64.lt_iff_toNat_lt.mp hlt
      have hdiff : (old - new).toNat = old.toNat - new.toNat :=
        UInt64.toNat_sub_of_le old new (Nat.le_of_lt hlt)
      have hle : old - new ≤ s.liveBytes := by
        rw [UInt64.le_iff_toNat_le]
        omega
      refine ⟨?_, (max_eq_left ?_).symm⟩
      · show (s.liveBytes - (old - new)).toNat = _
        rw [UInt64.toNat_sub_of_le _ _ hle]
        omega
      · show rest + new.toNat ≤ s.peakBytes.toNat
        omega
    · rename_i hge hle
      obtain rfl : old = new := UInt64.le_antisymm (UInt64.not_lt.mp hle) (UInt64.not_lt.mp hge)
      exact ⟨hbytes, (max_eq_left hpeak).symm⟩

/-- A request that was refused made, resized and freed no block, and did not reset the peak. -/
theorem Request.of_refused {request : Request} (h : request.refused = true) :
    request.allocates = false ∧ request.resizes = false ∧ request.frees = false ∧
      request ≠ .resetPeak := by
  cases request <;> simp_all [refused, allocates, resizes, frees]

section Step

variable {stats stats' : HeapStats} {sizes sizes' : List Nat} {request : Request}
  (hchange : Change stats sizes request stats' sizes')
include hchange

/-- Blocks are counted as they are made and freed. -/
theorem Change.length_add :
    sizes'.length + request.frees.toNat = sizes.length + request.allocates.toNat := by
  cases hchange with
  | refused h =>
    obtain ⟨hallocates, -, hfrees, -⟩ := Request.of_refused h
    rw [hallocates, hfrees]
  | allocated _ hallocates _ hfrees _ => simp [hallocates, hfrees]
  | reallocated _ => simp [Request.frees, Request.allocates]
  | deallocated => simp [Request.frees, Request.allocates, Nat.add_assoc]
  | reset => rfl

/-- Granted requests are counted, each by its kind. -/
theorem Change.counts :
    stats'.allocations = stats.allocations + UInt64.ofNat request.allocates.toNat ∧
    stats'.deallocations = stats.deallocations + UInt64.ofNat request.frees.toNat ∧
    stats'.reallocations = stats.reallocations + UInt64.ofNat request.resizes.toNat ∧
    stats'.liveObjects = stats.liveObjects + UInt64.ofNat request.allocates.toNat -
      UInt64.ofNat request.frees.toNat := by
  cases hchange with
  | refused h =>
    obtain ⟨hallocates, hresizes, hfrees, -⟩ := Request.of_refused h
    rw [hallocates, hresizes, hfrees]
    simp
  | allocated _ hallocates hresizes hfrees _ =>
    rw [hallocates, hresizes, hfrees]
    simp [HeapStats.allocated, HeapStats.growBytes]
  | reallocated _ =>
    unfold HeapStats.reallocated
    dsimp only
    split
    · simp [HeapStats.growBytes, Request.allocates, Request.frees, Request.resizes]
    · split <;> simp [Request.allocates, Request.frees, Request.resizes]
  | deallocated =>
    simp [HeapStats.deallocated, Request.allocates, Request.frees, Request.resizes]
  | reset => simp [HeapStats.resetPeak, Request.allocates, Request.frees, Request.resizes]

theorem Change.positive (hpositive : ∀ size ∈ sizes, 0 < size) : ∀ size ∈ sizes', 0 < size := by
  cases hchange with
  | refused h => exact hpositive
  | allocated hsize _ _ _ _ =>
    intro size hmem
    rcases List.mem_append.mp hmem with hmem | hmem
    · exact hpositive size hmem
    · rw [List.mem_singleton.mp hmem]
      exact hsize
  | reallocated hsize =>
    simp only [List.mem_append, List.mem_cons] at hpositive ⊢
    rintro size (hmem | rfl | hmem)
    · exact hpositive size (Or.inl hmem)
    · exact hsize
    · exact hpositive size (Or.inr (Or.inr hmem))
  | deallocated =>
    simp only [List.mem_append, List.mem_cons] at hpositive ⊢
    rintro size (hmem | hmem)
    · exact hpositive size (Or.inl hmem)
    · exact hpositive size (Or.inr (Or.inr hmem))
  | reset => exact hpositive

/-- The live bytes follow the blocks, and the peak follows the live bytes, unless it is reset to
them. -/
theorem Change.bytes (hsound : Sound stats sizes) (hfits : sizes'.sum < 2 ^ 64) :
    stats'.liveBytes.toNat = sizes'.sum ∧
      stats'.peakBytes.toNat =
        if request = .resetPeak then sizes'.sum else max stats.peakBytes.toNat sizes'.sum := by
  cases hchange with
  | refused h =>
    obtain ⟨-, -, -, hreset⟩ := Request.of_refused h
    rw [if_neg hreset]
    exact ⟨hsound.bytes, (max_eq_left hsound.peak).symm⟩
  | @allocated _ _ size _ _ _ _ hreset =>
    have hsum : (sizes ++ [size.toNat]).sum = stats.liveBytes.toNat + size.toNat := by
      rw [List.sum_append, List.sum_singleton, hsound.bytes]
    rw [if_neg hreset, hsum]
    rw [hsum] at hfits
    exact toNat_growBytes (s := { stats with
      allocations := stats.allocations + 1, liveObjects := stats.liveObjects + 1 }) hfits
  | @reallocated before behind _ old size _ =>
    have hsum : ∀ n : Nat, (before ++ n :: behind).sum = before.sum + behind.sum + n := by
      intro n
      rw [List.sum_append, List.sum_cons]
      omega
    rw [if_neg Request.noConfusion, hsum]
    rw [hsum] at hfits
    have hbytes := hsound.bytes
    have hpeak := hsound.peak
    rw [hsum] at hbytes hpeak
    exact toNat_reallocated hbytes hfits hpeak
  | @deallocated before behind _ size =>
    have hbytes := hsound.bytes
    have hpeak := hsound.peak
    rw [List.sum_append, List.sum_cons] at hbytes hpeak
    rw [if_neg Request.noConfusion, List.sum_append]
    have hle : size ≤ stats.liveBytes := by
      rw [UInt64.le_iff_toNat_le]
      omega
    refine ⟨?_, (max_eq_left ?_).symm⟩
    · show (stats.liveBytes - size).toNat = _
      rw [UInt64.toNat_sub_of_le _ _ hle]
      omega
    · show before.sum + behind.sum ≤ stats.peakBytes.toNat
      omega
  | reset =>
    rw [if_pos rfl]
    exact ⟨hsound.bytes, hsound.bytes⟩

theorem Change.sound (hsound : Sound stats sizes) (hfits : sizes'.sum < 2 ^ 64) :
    Sound stats' sizes' := by
  obtain ⟨hbytes, hpeak⟩ := hchange.bytes hsound hfits
  refine ⟨?_, hbytes, hchange.positive hsound.positive, ?_⟩
  · rw [hchange.counts.2.2.2, hsound.objects, ← UInt64.ofNat_add, ← hchange.length_add,
      UInt64.ofNat_add, UInt64.add_sub_cancel]
  · rw [hpeak]
    split
    · exact le_rfl
    · exact le_max_right _ _

end Step

/-! ### Histories -/

theorem sound_of_lawful {requests : List Request} (h : Lawful requests) :
    Sound (after requests).stats (after requests).liveSizes := by
  induction h with
  | nil => exact ⟨rfl, rfl, fun size hmem => absurd hmem List.not_mem_nil, le_rfl⟩
  | snoc _ hadmits hfits ih =>
    rw [after_snoc] at hfits ⊢
    exact (change_perform hadmits).sound ih hfits

theorem counts_of_lawful {requests : List Request} (h : Lawful requests) :
    (after requests).stats.allocations = UInt64.ofNat (requests.countP Request.allocates) ∧
    (after requests).stats.deallocations = UInt64.ofNat (requests.countP Request.frees) ∧
    (after requests).stats.reallocations = UInt64.ofNat (requests.countP Request.resizes) ∧
    (after requests).liveSizes.length + requests.countP Request.frees =
      requests.countP Request.allocates := by
  induction h with
  | nil => exact ⟨rfl, rfl, rfl, rfl⟩
  | @snoc requests request _ hadmits _ ih =>
    have hone : ∀ p : Request → Bool, [request].countP p = (p request).toNat := by
      intro p
      cases hp : p request <;> simp [hp]
    obtain ⟨hallocations, hdeallocations, hreallocations, hlength⟩ := ih
    have hchange := change_perform hadmits
    obtain ⟨hallocations', hdeallocations', hreallocations', -⟩ := hchange.counts
    have hlength' := hchange.length_add
    simp only [after_snoc, List.countP_append, hone, UInt64.ofNat_add]
    refine ⟨?_, ?_, ?_, by omega⟩
    · rw [hallocations', hallocations]
    · rw [hdeallocations', hdeallocations]
    · rw [hreallocations', hreallocations]

theorem totalsSinceReset_snoc (requests : List Request) (request : Request) :
    totalsSinceReset (requests ++ [request]) =
      if request = .resetPeak then {(after (requests ++ [request])).liveTotal}
      else insert (after (requests ++ [request])).liveTotal (totalsSinceReset requests) := by
  ext total
  constructor
  · rintro ⟨earlier, later, hsplit, hreset, rfl⟩
    rcases List.eq_nil_or_concat later with rfl | ⟨later, last, rfl⟩
    · rw [List.append_nil] at hsplit
      rw [← hsplit]
      split
      · rfl
      · exact Or.inl rfl
    · rw [List.concat_eq_append, ← List.append_assoc] at hsplit
      obtain ⟨rfl, hlast⟩ := List.append_inj' hsplit rfl
      obtain ⟨rfl, -⟩ := List.cons.inj hlast
      rw [List.concat_eq_append, List.mem_append, not_or] at hreset
      have hne : request ≠ .resetPeak := fun h => hreset.2 (List.mem_singleton.mpr h.symm)
      rw [if_neg hne]
      exact Or.inr ⟨earlier, later, rfl, hreset.1, rfl⟩
  · intro htotal
    have hnow : (after (requests ++ [request])).liveTotal ∈
        totalsSinceReset (requests ++ [request]) :=
      ⟨requests ++ [request], [], (List.append_nil _).symm, List.not_mem_nil, rfl⟩
    split at htotal
    · rw [Set.mem_singleton_iff.mp htotal]
      exact hnow
    · rename_i hne
      rcases htotal with rfl | ⟨earlier, later, rfl, hreset, rfl⟩
      · exact hnow
      · refine ⟨earlier, later ++ [request], List.append_assoc _ _ _, ?_, rfl⟩
        rw [List.mem_append, not_or]
        exact ⟨hreset, fun h => hne (List.mem_singleton.mp h).symm⟩

/-- The peak is the greatest live total since it was last reset. -/
theorem isGreatest_peak_of_lawful {requests : List Request} (h : Lawful requests) :
    IsGreatest (totalsSinceReset requests) (after requests).stats.peakBytes.toNat := by
  induction h with
  | nil =>
    have hnil : totalsSinceReset [] = {0} := by
      ext total
      constructor
      · rintro ⟨earlier, later, hsplit, -, rfl⟩
        obtain ⟨rfl, -⟩ := List.append_eq_nil_iff.mp hsplit.symm
        rfl
      · rintro rfl
        exact ⟨[], [], rfl, List.not_mem_nil, rfl⟩
    rw [hnil]
    exact isGreatest_singleton
  | @snoc requests request hlawful hadmits hfits ih =>
    have hfits' := hfits
    rw [after_snoc] at hfits'
    obtain ⟨-, hpeak⟩ := (change_perform hadmits).bytes (sound_of_lawful hlawful) hfits'
    rw [totalsSinceReset_snoc, after_snoc, hpeak]
    split
    · exact isGreatest_singleton
    · rw [max_comm]
      exact ih.insert _

/-- What the counters of the heap `h` say after a history of requests. -/
structure Exact (requests : List Request) (h : Heap) : Prop where
  /-- The live objects are the blocks that are live. -/
  objects : h.stats.liveObjects.toNat = h.liveSizes.length
  /-- They are the granted allocations without the deallocations. -/
  difference : h.stats.liveObjects = h.stats.allocations - h.stats.deallocations
  allocations : h.stats.allocations = UInt64.ofNat (requests.countP Request.allocates)
  deallocations : h.stats.deallocations = UInt64.ofNat (requests.countP Request.frees)
  balance : h.liveSizes.length + requests.countP Request.frees =
    requests.countP Request.allocates
  reallocations : h.stats.reallocations = UInt64.ofNat (requests.countP Request.resizes)
  /-- The live bytes are those of the blocks that are live. -/
  bytes : h.stats.liveBytes.toNat = h.liveTotal
  /-- The peak is the greatest number of live bytes since it was last reset. -/
  peak : IsGreatest (totalsSinceReset requests) h.stats.peakBytes.toNat
  bytes_le_peak : h.stats.liveBytes ≤ h.stats.peakBytes
  /-- A request that the system refuses changes no counter and no block. -/
  refused : ∀ request : Request, request.refused = true →
    (h.perform request).stats = h.stats ∧
      ∀ block, (h.perform request).size? block = h.size? block
  /-- To free a live block or to make it smaller takes no more objects and bytes off than there
  are. -/
  subtractions : ∀ block size, h.size? block = some size →
    1 ≤ h.stats.liveObjects ∧ size ≤ h.stats.liveBytes ∧
      ∀ smaller < size, size - smaller ≤ h.stats.liveBytes

theorem lawful_take {requests : List Request} (h : Lawful requests) (n : Nat) :
    Lawful (requests.take n) := by
  induction h with
  | nil =>
    rw [List.take_nil]
    exact .nil
  | @snoc requests request hlawful hadmits hfits ih =>
    rcases Nat.lt_or_ge requests.length n with hlt | hle
    · rw [List.take_of_length_le (by rw [List.length_append]; exact hlt)]
      exact .snoc hlawful hadmits hfits
    · rw [List.take_append_of_le_length hle]
      exact ih

theorem liveTotal_lt_of_lawful {requests : List Request} (h : Lawful requests) :
    (after requests).liveTotal < 2 ^ 64 := by
  cases h with
  | nil => decide
  | snoc _ _ hfits => exact hfits

theorem exact_of_lawful {requests : List Request} (h : Lawful requests) :
    Exact requests (after requests) := by
  have hsound := sound_of_lawful h
  have hfits := liveTotal_lt_of_lawful h
  obtain ⟨hallocations, hdeallocations, hreallocations, hbalance⟩ := counts_of_lawful h
  have hobjects : (after requests).stats.liveObjects.toNat = (after requests).liveSizes.length := by
    rw [hsound.objects, UInt64.toNat_ofNat', Nat.mod_eq_of_lt]
    exact Nat.lt_of_le_of_lt hsound.length_le hfits
  refine ⟨hobjects, ?_, hallocations, hdeallocations, hbalance, hreallocations, hsound.bytes,
    isGreatest_peak_of_lawful h, ?_, ?_, ?_⟩
  · rw [hallocations, hdeallocations, ← hbalance, UInt64.ofNat_add, UInt64.add_sub_cancel,
      hsound.objects]
  · rw [UInt64.le_iff_toNat_le, hsound.bytes]
    exact hsound.peak
  · intro request hrefused
    obtain ⟨hstats, hsize, -⟩ := (after requests).perform_of_refused hrefused
    exact ⟨hstats, hsize⟩
  · intro block size hsize
    obtain ⟨before, behind, hsizes, -⟩ := exists_liveSizes_set hsize
    have hle : size ≤ (after requests).stats.liveBytes := by
      rw [UInt64.le_iff_toNat_le, hsound.bytes, hsizes, List.sum_append, List.sum_cons]
      omega
    refine ⟨?_, hle, ?_⟩
    · rw [UInt64.le_iff_toNat_le, hobjects, hsizes, List.length_append, List.length_cons]
      exact Nat.le_add_left 1 _
    · intro smaller hlt
      refine UInt64.le_trans ?_ hle
      rw [UInt64.le_iff_toNat_le, UInt64.toNat_sub_of_le _ _ (Nat.le_of_lt hlt)]
      exact Nat.sub_le _ _

/-- The counters of a heap are exact after each request of a history that a program may make. -/
theorem counters_exact {requests : List Request} (h : Lawful requests) (n : Nat) :
    Exact (requests.take n) (after (requests.take n)) :=
  exact_of_lawful (lawful_take h n)

/-- A block is made larger, then refused a larger size, then made smaller; the peak is that of the
larger block until it is reset. -/
def sampleHistory : List Request :=
  [.alloc 64 true, .realloc 0 256 true, .realloc 0 1024 false, .realloc 0 16 true, .resetPeak]

theorem lawful_sampleHistory : Lawful sampleHistory :=
  have h1 : Lawful [.alloc 64 true] := .snoc .nil (show (64 : UInt64) ≠ 0 by decide) (by decide)
  have h2 : Lawful [.alloc 64 true, .realloc 0 256 true] :=
    .snoc h1 ⟨by decide, 64, rfl⟩ (by decide)
  have h3 : Lawful [.alloc 64 true, .realloc 0 256 true, .realloc 0 1024 false] :=
    .snoc h2 ⟨by decide, 256, rfl⟩ (by decide)
  have h4 : Lawful [.alloc 64 true, .realloc 0 256 true, .realloc 0 1024 false,
      .realloc 0 16 true] :=
    .snoc h3 ⟨by decide, 256, rfl⟩ (by decide)
  .snoc h4 trivial (by decide)

theorem counters_exact_sampleHistory :
    Lawful sampleHistory ∧
    Exact (sampleHistory.take 4) (after (sampleHistory.take 4)) ∧
    (after (sampleHistory.take 4)).stats = ⟨1, 16, 256, 1, 0, 2⟩ ∧
    Exact (sampleHistory.take 5) (after (sampleHistory.take 5)) ∧
    (after (sampleHistory.take 5)).stats = ⟨1, 16, 16, 1, 0, 2⟩ :=
  ⟨lawful_sampleHistory, counters_exact lawful_sampleHistory 4, by decide,
    counters_exact lawful_sampleHistory 5, by decide⟩

end Heap

end Wordcode
