import Wordcode.Proofs.Loading
import Wordcode.Proofs.Loops

/-! The loop that is profiled: the instructions that one call of it executes, for every number of
iterations.  The first round takes the branch of its `if`, the others do not. -/

namespace Wordcode

open Machine Trace

/-! ### The code -/

/-- The code of the loop with the given constants, of which number `zero` is 0 and the next one is
none.  Where the loop has 0 iterations its bound is the same constant as that 0. -/
def countLoopCode (consts : Array Value) (zero : UInt8) : Code where
  name := "abc"
  argcount := 0
  varnames := #["i"]
  names := #["range"]
  consts := consts
  bytes := #[5, 0, 2, 0, 18, 1, 16, 0, 17, 12, 4, 0, 3, 0, 2, zero, 12, 2, 13, 4, 0, 0, 15, 4,
    2, zero + 1, 19, 0]
  lines := [⟨0, 2⟩, ⟨12, 3⟩, ⟨20, 4⟩]

namespace CountLoop

/-- The draft of the loop with a number of iterations other than 0. -/
def draft (it : Int64) : Draft where
  name := "abc"
  varnames := #["i"]
  names := #["range"]
  consts := #[.int it, .int 0, .none]
  items := #[⟨.loadGlobal, .immediate 0, 2⟩, ⟨.loadConst, .immediate 0, 2⟩,
    ⟨.callFunction, .immediate 1, 2⟩, ⟨.getIter, .none, 2⟩, ⟨.forIter, .label 1, 2⟩,
    ⟨.storeFast, .immediate 0, 2⟩, ⟨.loadFast, .immediate 0, 3⟩, ⟨.loadConst, .immediate 1, 3⟩,
    ⟨.compareOp, .immediate 2, 3⟩, ⟨.popJumpIfFalse, .label 0, 3⟩, ⟨.nop, .none, 4⟩,
    ⟨.jumpAbsolute, .label 0, 4⟩, ⟨.loadConst, .immediate 2, 4⟩, ⟨.returnValue, .none, 4⟩]
  labels := #[some 4, some 12]
  line := 4

set_option maxRecDepth 2000 in
theorem performAll_of_ne {it : Int64} (h : it ≠ 0) :
    ({ name := "abc" } : Draft).performAll (Program.countLoopCommands it) = draft it := by
  have hintern : intern #[Value.int it] (.int 0) = (1, #[.int it, .int 0]) := by
    simp [intern, h]
  -- Only the constant 0 is looked for among constants that are not known.
  let before : Draft :=
    { draft it with
      consts := #[.int it], items := (draft it).items.take 7, labels := #[some 4, none], line := 3 }
  let after : Draft :=
    { before with consts := #[.int it, .int 0], items := (draft it).items.take 8 }
  have hbefore : ({ name := "abc" } : Draft).performAll
      ((Program.countLoopCommands it).take 12) = before := by with_unfolding_all rfl
  have hzero : before.perform (.loadConst (.int 0)) = after := by
    simp only [Draft.perform, Draft.constant, before, hintern]
    rfl
  have hafter : after.performAll ((Program.countLoopCommands it).drop 13) = draft it := by
    with_unfolding_all rfl
  rw [← hafter, ← hzero, ← hbefore]
  rfl

set_option maxRecDepth 2000 in
theorem exists_code (it : Int64) :
    ∃ consts zero, (Program.countLoop it).code = .ok (countLoopCode consts zero) ∧
      consts[0]? = some (.int it) ∧ consts[zero.toNat]? = some (.int 0) ∧
      consts[(zero + 1).toNat]? = some .none := by
  by_cases h : it = 0
  · subst h
    have hassemble : assemble "abc" (Program.countLoopCommands 0) =
        .ok (Draft.toCode _ #[4, 12] _) :=
      assemble_of_small rfl (by with_unfolding_all rfl) (by with_unfolding_all rfl)
        (by with_unfolding_all rfl) (by decide +kernel)
    exact ⟨#[.int 0, .none], 0, hassemble.trans (by with_unfolding_all rfl), rfl, rfl, rfl⟩
  · have hassemble : assemble "abc" (Program.countLoopCommands it) =
        .ok (Draft.toCode _ #[4, 12] _) :=
      assemble_of_small (performAll_of_ne h) (by with_unfolding_all rfl)
        (by with_unfolding_all rfl) (by with_unfolding_all rfl) (by with_unfolding_all rfl)
    exact ⟨#[.int it, .int 0, .none], 1, hassemble.trans (by with_unfolding_all rfl), rfl, rfl,
      rfl⟩

/-! ### The route -/

/-- The instructions of a round that does not take the branch. -/
def plainOps : List Opcode :=
  [.forIter, .storeFast, .loadFast, .loadConst, .compareOp, .popJumpIfFalse]

/-- The instructions of round `i`. -/
def roundOps (i : Nat) : List Opcode := plainOps ++ if i = 0 then [.nop, .jumpAbsolute] else []

/-- The instructions of a call with `m` rounds. -/
def ops (m : Nat) : List Opcode :=
  [.loadGlobal, .loadConst, .callFunction, .getIter] ++
    ((List.range m).flatMap roundOps ++ [.forIter, .loadConst, .returnValue])

section Route

variable {vm : Vm} {consts : Array Value} {zero : UInt8} {ranges : Array Range}
  {maps : Array Dict} {it : Int64} {callers : List Frame}

/-- A frame of the loop at its head, where the local is `x`. -/
def head (consts : Array Value) (zero : UInt8) (ranges : Array Range)
    (x : Option Value × Nat) : Frame :=
  (countLoopCode consts zero).frame 8 #[x.1] [.range ⟨ranges.size⟩] x.2

theorem goes_setUp (hrange : vm.global? "range" = none) (hit : consts[0]? = some (.int it)) :
    Goes ⟨vm.holding ranges maps, (),
        .running ((countLoopCode consts zero).frame 0 #[none] [] 0) callers⟩
      [.loadGlobal, .loadConst, .callFunction, .getIter]
      ⟨vm.holding (ranges.push ⟨Int64.ofNat 0, it⟩) maps, (),
        .running (head consts zero ranges (none, 6)) callers⟩ := by
  have hlookup : (vm.holding ranges maps).lookup "range" = .ok (.builtin .range) := by
    have hglobal : (vm.holding ranges maps).global? "range" = none := hrange
    rw [Vm.lookup, hglobal]
    rfl
  exact (goes_loadGlobal ⟨rfl, rfl⟩ rfl hlookup).trans ((goes_loadConst ⟨rfl, rfl⟩ hit).trans
    ((goes_callRange ⟨rfl, rfl⟩).trans (goes_getIter ⟨rfl, rfl⟩)))

theorem goes_iteration (hzero : consts[zero.toNat]? = some (.int 0)) {i : Nat}
    (hi : i < it.toInt.toNat) (x : Option Value × Nat) :
    ∃ y, Goes ⟨vm.holding (ranges.push ⟨Int64.ofNat i, it⟩) maps, (),
        .running (head consts zero ranges x) callers⟩
      (roundOps i)
      ⟨vm.holding (ranges.push ⟨Int64.ofNat (i + 1), it⟩) maps, (),
        .running (head consts zero ranges y) callers⟩ := by
  have hcompare : Value.compare .eq (.int (Int64.ofNat i)) (.int 0) = .ok (decide (i = 0)) := by
    have hmax := it.toInt_lt
    have htoInt : (Int64.ofNat i).toInt = i := Int64.toInt_ofNat_of_lt (by omega)
    have hiff : Int64.ofNat i = 0 ↔ i = 0 := by
      rw [← Int64.toInt_inj, htoInt]
      exact Int.natCast_eq_zero
    rw [Value.compare, Except.ok.injEq, Bool.eq_iff_iff]
    simp [hiff]
  have hstore : (countLoopCode consts zero).Has 10 .storeFast 0 := ⟨rfl, rfl⟩
  have hback : (countLoopCode consts zero).Has 22 .jumpAbsolute 4 := ⟨rfl, rfl⟩
  have htest : Goes ⟨vm.holding (ranges.push ⟨Int64.ofNat i, it⟩) maps, (),
      .running (head consts zero ranges x) callers⟩ _ _ :=
    (goes_round ⟨rfl, rfl⟩ hi).trans ((goes_storeFast hstore (by exact Nat.one_pos)).trans
      ((goes_loadFast ⟨rfl, rfl⟩ rfl).trans ((goes_loadConst ⟨rfl, rfl⟩ hzero).trans
        ((goes_compareOp ⟨rfl, rfl⟩ rfl hcompare).trans (goes_popJumpIfFalse ⟨rfl, rfl⟩)))))
  simp only [Store.truthy, decide_eq_true_eq] at htest
  by_cases h : i = 0
  · rw [if_pos h] at htest
    rw [roundOps, if_pos h]
    exact ⟨(some (.int (Int64.ofNat i)), 22),
      htest.trans ((goes_nop ⟨rfl, rfl⟩).trans (goes_jumpAbsolute hback))⟩
  · rw [if_neg h] at htest
    rw [roundOps, if_neg h]
    exact ⟨(some (.int (Int64.ofNat i)), 18), htest⟩

theorem goes_leave (hnone : consts[(zero + 1).toNat]? = some .none) (x : Option Value × Nat) :
    Goes ⟨vm.holding (ranges.push ⟨Int64.ofNat it.toInt.toNat, it⟩) maps, (),
        .running (head consts zero ranges x) callers⟩
      [.forIter, .loadConst, .returnValue]
      ⟨(vm.holding (ranges.push ⟨Int64.ofNat it.toInt.toNat, it⟩) maps).popFrame, (),
        .giving (.ok .none) callers⟩ :=
  (goes_exit ⟨rfl, rfl⟩).trans ((goes_loadConst ⟨rfl, rfl⟩ hnone).trans
    (goes_returnValue ⟨rfl, rfl⟩))

/-- A call of the loop, from the first instruction of its frame to its value. -/
theorem goes_call (vm : Vm) (callers : List Frame) (hrange : vm.global? "range" = none)
    (hit : consts[0]? = some (.int it)) (hzero : consts[zero.toNat]? = some (.int 0))
    (hnone : consts[(zero + 1).toNat]? = some .none) :
    ∃ ranges, Goes ⟨vm, (), .running ((countLoopCode consts zero).frame 0 #[none] [] 0) callers⟩
      (ops it.toInt.toNat)
      ⟨(vm.holding ranges vm.store.maps).popFrame, (), .giving (.ok .none) callers⟩ := by
  obtain ⟨x, hloop⟩ := Goes.rounds (fun i hi x => goes_iteration hzero hi x) (none, 6)
  exact ⟨_, (goes_setUp hrange hit).trans (hloop.trans (goes_leave hnone x))⟩

end Route

/-! ### The count -/

/-- How many instructions with an opcode a call with `m` rounds executes. -/
def count (m : Nat) : Opcode → Nat
  | .forIter => m + 1
  | .storeFast | .loadFast | .compareOp | .popJumpIfFalse => m
  | .loadConst => m + 2
  | .nop | .jumpAbsolute => if 1 ≤ m then 1 else 0
  | .loadGlobal | .callFunction | .getIter | .returnValue => 1
  | _ => 0

theorem rounds_succ (m : Nat) :
    (List.range (m + 1)).flatMap roundOps =
      plainOps ++ [.nop, .jumpAbsolute] ++ (List.replicate m plainOps).flatten := by
  have hplain : ∀ i, roundOps (i + 1) = plainOps := fun _ => List.append_nil _
  rw [List.range_succ_eq_map, List.flatMap_cons, List.flatMap_map, List.flatMap_congr
    (g := fun _ => plainOps) fun i _ => hplain i, List.flatMap_def, List.map_const',
    List.length_range]
  rfl

theorem count_ops (op : Opcode) (m : Nat) : (ops m).count op = count m op := by
  cases m with
  | zero => cases op <;> rfl
  | succ m =>
    rw [ops, rounds_succ]
    simp only [List.count_append, List.count_flatten, List.map_replicate, List.sum_replicate_nat]
    cases op <;> simp [count, plainOps] <;> omega

theorem length_ops (m : Nat) : (ops m).length = 4 + 6 * m + (if 0 < m then 2 else 0) + 3 := by
  cases m with
  | zero => rfl
  | succ m =>
    rw [ops, rounds_succ]
    simp [plainOps]
    omega

theorem countLoopInstructions_eq {m : Nat} (h : 6 * m + 9 < 2 ^ 64) :
    countLoopInstructions m = some (ops m).length := by
  rw [countLoopInstructions, ← length_ops]
  apply if_pos
  rw [length_ops, UInt64.size]
  split <;> omega

/-- The counts of a histogram of a call with `m` rounds. -/
structure Counted (m : Nat) (h : Histogram) : Prop where
  get : ∀ op : Opcode, h.get op.name = count m op
  mem : ∀ name, name ∈ h.counts ↔ ∃ op : Opcode, op.name = name ∧ count m op ≠ 0

theorem counted_ofList (m : Nat) : Counted m (Histogram.ofList ((ops m).map Opcode.name)) where
  get op := by
    rw [Histogram.get_ofList, List.count_map_of_injective _ _ Opcode.name_injective, count_ops]
  mem name := by
    simp only [Histogram.mem_ofList, List.mem_map, ← count_ops, ne_eq, List.count_eq_zero,
      not_not, and_comm]

end CountLoop

open CountLoop

/-- The loop executes as many instructions as its formula says.  Loaded on a machine at rest and
called, it returns none, prints nothing, and advances the counter of the machine by that number; and
the histogram of a call has exactly the instructions of its rounds. -/
theorem countLoop_executes_formula (vm : Vm) (hdepth : vm.depth = 0) (hlimit : 1 ≤ vm.limit)
    (hrange : vm.global? "range" = none) (it : Int64)
    (hfits : 6 * (max it.toInt 0).toNat + 9 < 2 ^ 64) :
    ∃ fuel abc vm' total, vm.loadProgram (.countLoop it) fuel = some (.ok abc, vm') ∧
      countLoopInstructions (max it.toInt 0).toNat = some total ∧
      (∀ request ∈ [Request.call abc [], .callGlobal "abc" []],
        ∃ fuel r, vm'.execute request fuel = some r ∧ r.ending = .finished (.ok .none) ∧
          r.vm.console = vm'.console ∧ r.vm.executed = vm'.executed + total) ∧
      ∃ fuel h vm', vm.countOpcodes it fuel = some (.ok h, vm') ∧
        Counted (max it.toInt 0).toNat h := by
  have hm : (max it.toInt 0).toNat = it.toInt.toNat := by omega
  rw [hm] at hfits ⊢
  obtain ⟨consts, zero, hcode, hit, hzero, hnone⟩ := exists_code it
  obtain ⟨n, id, vm', hload, hloaded⟩ := vm.exists_loadProgram hcode (by omega)
  have hroom : vm'.depth < vm'.limit := by
    rw [hloaded.depth, hloaded.limit]
    omega
  have hname : (Program.countLoop it).name ≠ "range" := show "abc" ≠ "range" by decide
  have hrange' : vm'.global? "range" = none := by
    rw [hloaded.global?_of_ne hname, hrange]
  obtain ⟨ranges, hgoes⟩ := goes_call (vm'.pushFrame "abc") [] hrange' hit hzero hnone
  have hstart : ∀ request ∈ [Request.call (.function id) [], .callGlobal "abc" []],
      (vm'.start none () request).Goes (ops it.toInt.toNat)
        ⟨((vm'.pushFrame "abc").holding ranges vm'.store.maps).popFrame, (),
          .giving (.ok .none) []⟩ := by
    intro request hrequest
    rw [hloaded.start_eq [] request hrequest, enter_eq_running rfl hroom]
    exact hgoes
  refine ⟨n, .function id, vm', _, hload, countLoopInstructions_eq hfits, ?_, ?_⟩
  · intro request hrequest
    obtain ⟨fuel, r, hr, hending, hvm, hexecuted⟩ := Vm.execute_of_goes (hstart request hrequest)
    exact ⟨fuel, r, hr, hending, (congrArg Vm.console hvm :), hexecuted⟩
  · obtain ⟨k, r, hr, hending, -, htally⟩ := Vm.trace_of_goes
      (hstart _ (List.mem_cons_self ..)) tallies_opcodeCounter {}
    refine ⟨max n k, r.tracer, r.vm, ?_, ?_⟩
    · rw [Vm.countOpcodes, Vm.traceCountLoop, Vm.loadProgram_of_le hload (Nat.le_max_left n k)]
      simp only [Vm.trace_of_le hr (Nat.le_max_right n k), hending, Option.map_some, Ending.value,
        Except.map]
    · have hhistogram : r.tracer = Histogram.ofList ((ops it.toInt.toNat).map Opcode.name) := htally
      rw [hhistogram]
      exact counted_ofList _

/-- A call with five iterations on a new machine that has room for one frame. -/
theorem countLoop_executes_formula_five :
    ∃ fuel h vm' total, ({ limit := 1 } : Vm).countOpcodes 5 fuel = some (.ok h, vm') ∧
      countLoopInstructions 5 = some total ∧ total = 39 ∧ h.get "LOAD_CONST" = 7 ∧
      h.get "NOP" = 1 ∧ "POP_TOP" ∉ h.counts := by
  obtain ⟨-, -, -, total, -, htotal, -, fuel, h, vm', hcount, hcounted⟩ :=
    countLoop_executes_formula { limit := 1 } rfl (by decide) Std.HashMap.getElem?_empty 5
      (by decide)
  refine ⟨fuel, h, vm', total, hcount, htotal, Option.some.inj (htotal.symm.trans rfl),
    hcounted.get .loadConst, hcounted.get .nop, fun hmem => ?_⟩
  obtain ⟨op, hop, hne⟩ := (hcounted.mem "POP_TOP").mp hmem
  obtain rfl : op = .popTop := Opcode.name_injective hop
  exact hne rfl

end Wordcode
