import Wordcode.Proofs.Frames
import Wordcode.Proofs.Tables

/-! What built code cannot do to the machine that runs it.  Whatever its operands and jumps are, its
frames stay at even offsets and keep their locals, so they find an instruction or the end; and where
prefixes and lookups were left to the assembler, no argument is ever out of range, also behind a
jump into the middle of an instruction, since what is pending then is less than what was encoded. -/

namespace Wordcode

open Trace

/-! ### Arguments behind prefixes -/

theorem toNat_foldArg {pending : UInt32} (h : pending.toNat < 2 ^ 24) (low : UInt8) :
    (foldArg pending low).toNat = pending.toNat * 256 + low.toNat := by
  have hlow := low.toNat_lt
  simp only [foldArg, UInt32.toNat_add, UInt32.toNat_mul, UInt8.toNat_toUInt32,
    UInt32.reduceToNat]
  omega

theorem foldArg_mono {pending pending' : UInt32} (h : pending.toNat ≤ pending'.toNat)
    (hroom : pending'.toNat < 2 ^ 24) (low : UInt8) :
    (foldArg pending low).toNat ≤ (foldArg pending' low).toNat := by
  rw [toNat_foldArg (Nat.lt_of_le_of_lt h hroom), toNat_foldArg hroom]
  exact Nat.add_le_add_right (Nat.mul_le_mul_right 256 h) _

theorem Code.AssembledByName.pendingAt_lt {code : Code} (h : code.AssembledByName) (k : Nat) :
    (pendingAt 0 code.instructions k).toNat < 2 ^ 24 := by
  cases k with
  | zero => exact Nat.two_pow_pos 24
  | succ k =>
    rw [pendingAt]
    split
    · rename_i i hi
      split
      · rename_i hext
        exact (h.of_mem_instructions (List.mem_of_getElem? hi)).1 hext
      · decide
    · decide

/-! ### Frames on track -/

/-- The frame is at an even offset, has the locals of its code, and in code that was built by name
has no more pending than decoding has there. -/
structure Frame.OnTrack (f : Frame) : Prop where
  even : f.pc % 2 = 0
  size : f.code.Assembled → f.locals.size = f.code.nlocals
  pending : f.code.AssembledByName →
    f.pending.toNat ≤ (pendingAt 0 f.code.instructions (f.pc / 2)).toNat

namespace Frame.OnTrack

variable {f : Frame} {op : Opcode} {low : UInt8} {e : Fault}

theorem pc_eq (h : f.OnTrack) : f.pc = 2 * (f.pc / 2) := by
  have heven := h.even
  omega

/-- Built code fetches nothing that is no opcode. -/
theorem fetch_eq_error (h : f.OnTrack) (hcode : f.code.Assembled) (hfetch : f.fetch = .error e) :
    e = .pastEnd f.code.name f.pc := by
  obtain ⟨words, hwords, -⟩ := hcode.exists_words
  rw [fetch_of_words hwords h.pc_eq] at hfetch
  split at hfetch
  · cases hfetch
  · exact (Except.error.inj hfetch).symm

/-- The instruction that a frame fetches is the one that decodes at its offset. -/
theorem getElem?_instructions (h : f.OnTrack) (hcode : f.code.Assembled)
    (hfetch : f.fetch = .ok (op, low)) :
    f.code.instructions[f.pc / 2]? = some ⟨f.pc, op,
      foldArg (pendingAt 0 f.code.instructions (f.pc / 2)) low⟩ := by
  obtain ⟨words, hwords, -⟩ := hcode.exists_words
  have hword : words[f.pc / 2]? = some (op, low) := by
    rw [fetch_of_words hwords h.pc_eq] at hfetch
    split at hfetch
    · rename_i hw
      rw [hw, Except.ok.inj hfetch]
    · cases hfetch
  have hdecode := getElem?_decode_wordBytes 0 0 words (f.pc / 2)
  rw [← hwords, hword, Nat.zero_add, ← h.pc_eq] at hdecode
  exact hdecode

/-- In code that was built by name every argument indexes what it is looked up in. -/
theorem indexes (h : f.OnTrack) (hcode : f.code.AssembledByName)
    (hfetch : f.fetch = .ok (op, low)) : f.Indexes op (foldArg f.pending low) := by
  have hmem := List.mem_of_getElem? (h.getElem?_instructions hcode.assembled hfetch)
  have hindexes : f.code.Indexes op (foldArg f.pending low) :=
    (hcode.of_mem_instructions hmem).2.mono
      (foldArg_mono (h.pending hcode) (hcode.pendingAt_lt _) low)
  unfold Frame.Indexes
  rw [h.size hcode.assembled]
  exact hindexes

theorem kept : Frame.Kept (fun _ => True) Frame.OnTrack where
  begins := by
    intro f args _ hbegins
    refine ⟨by rw [hbegins.pc_eq], fun hcode => ?_, fun _ => ?_⟩
    · have hle := hcode.argcount_le
      have hargs := hbegins.argcount
      rw [hbegins.locals_eq]
      simp only [List.size_toArray, List.length_append, List.length_map, List.length_replicate]
      omega
    · rw [hbegins.pending_eq]
      exact Nat.zero_le _
  samePlace := by
    intro f f' hplace h
    refine ⟨?_, ?_, ?_⟩
    · rw [hplace.pc]
      exact h.even
    · rw [hplace.code, hplace.size]
      exact h.size
    · rw [hplace.code, hplace.pc, hplace.pending]
      exact h.pending
  advance := by
    intro f op low hfetch h
    refine ⟨?_, h.size, fun hcode => ?_⟩
    · show (f.pc + 2) % 2 = 0
      rw [Nat.add_mod_right, h.even]
    · have hnext : (f.pc + 2) / 2 = f.pc / 2 + 1 := by omega
      show (if op = .extendedArg then foldArg f.pending low else 0).toNat ≤
        (pendingAt 0 f.code.instructions ((f.pc + 2) / 2)).toNat
      rw [hnext, pendingAt, h.getElem?_instructions hcode.assembled hfetch]
      dsimp only
      split
      · exact foldArg_mono (h.pending hcode) (hcode.pendingAt_lt _) low
      · exact Nat.le_refl _
  jump := by
    intro f target hpending h
    refine ⟨Nat.mul_mod_left target 2, h.size, fun _ => ?_⟩
    show f.pending.toNat ≤ _
    rw [hpending]
    exact Nat.zero_le _

end Frame.OnTrack

/-! ### Faults of instructions -/

/-- The fault of the next instruction, if it fails. -/
def Machine.fault? {σ : Type} (hook : Option (Tracer σ)) (m : Machine σ) : Option Fault :=
  match m.phase with
  | .running f _ =>
    match f.fetch with
    | .error e => some e
    | .ok _ => (m.effect? hook).bind Effect.fault?
  | _ => none

section Faults

variable {σ : Type} {hook : Option (Tracer σ)} {vm : Vm} {s : σ} {f : Frame}
  {callers : List Frame} {e : Fault}

theorem Frame.SamePlace.indexes {f g : Frame} (h : f.SamePlace g) {op : Opcode} {arg : UInt32}
    (hindexes : f.Indexes op arg) : g.Indexes op arg := by
  unfold Frame.Indexes at hindexes ⊢
  rw [h.code, h.size]
  exact hindexes

/-- What the next instruction of a frame can fail with. -/
theorem Machine.cases_of_fault? (h : fault? hook ⟨vm, s, .running f callers⟩ = some e) :
    f.fetch = .error e ∨ e.Plain ∨ e = .stackUnderflow f.code.name f.pc ∨
      ∃ op low, f.fetch = .ok (op, low) ∧ ¬f.Indexes op (foldArg f.pending low) ∧
        e = .argumentRange op (foldArg f.pending low) f.code.name := by
  cases hfetch : f.fetch with
  | error e' =>
    simp only [fault?, hfetch] at h
    exact Or.inl (congrArg Except.error (Option.some.inj h))
  | ok fetched =>
    obtain ⟨op, low⟩ := fetched
    simp only [fault?, hfetch, effect?_of_ok hfetch] at h
    have hobserve := (f.advance op (foldArg f.pending low)).untraced_observe hook s vm.count
    have hplace := Frame.SamePlace.of_untraced hobserve
    have hcode : (Frame.observe hook s vm.count
        (f.advance op (foldArg f.pending low))).frame.code = f.code := hplace.code
    split at h
    · cases h
    · obtain rfl | ⟨rfl, hindexes⟩ | hplain := fault_of_execute h
      · have hlasti : (Frame.observe hook s vm.count
            (f.advance op (foldArg f.pending low))).frame.lasti = f.pc :=
          (congrArg Frame.lasti hobserve :)
        rw [Frame.underflow, hcode, hlasti]
        exact Or.inr (Or.inr (Or.inl rfl))
      · rw [Frame.argumentFault, hcode]
        refine Or.inr (Or.inr (Or.inr ⟨op, low, rfl, fun hindexed => hindexes ?_, rfl⟩))
        exact hplace.indexes (f := f.advance op (foldArg f.pending low)) hindexed
      · exact Or.inr (Or.inl hplain)

/-! ### Faults of runs -/

namespace Machine

theorem eq_of_leave {result : Except Fault Value} {frames : List Frame}
    (h : (leave hook vm s f result callers).phase = .giving (.error e) frames) :
    result = .error e := by
  obtain ⟨s', hleave⟩ | ⟨s', f', hleave⟩ := leave_cases hook vm s f result callers
  · rw [hleave] at h
    exact (Phase.giving.inj h).1
  · rw [hleave] at h
    cases h

/-- An internal fault that is passed on after a step was passed on before it, or is that of its
instruction. -/
theorem fault?_of_step {m : Machine σ} {frames : List Frame}
    (h : (m.step hook).phase = .giving (.error e) frames) (hinternal : e.kind = .internal) :
    (∃ frames, m.phase = .giving (.error e) frames) ∨ m.fault? hook = some e := by
  obtain ⟨vm, s, phase⟩ := m
  cases phase with
  | running f callers =>
    refine Or.inr ?_
    rw [step] at h
    cases hfetch : f.fetch with
    | error e' =>
      rw [executeNext_of_error hfetch] at h
      simp only [fault?, hfetch]
      rw [Except.error.inj (eq_of_leave h)]
    | ok fetched =>
      obtain ⟨op, low⟩ := fetched
      rw [executeNext_of_ok hfetch] at h
      simp only [fault?, hfetch, effect?_of_ok hfetch]
      dsimp only at h
      split at h
      · cases h
      · rename_i hverdict
        rw [if_neg hverdict, Option.bind_some]
        cases hexecute : execute op (foldArg f.pending low) vm.count
            ((f.advance op (foldArg f.pending low)).observe hook s vm.count).frame with
        | next vm' g | jump vm' g target =>
          rw [hexecute] at h
          cases h
        | call vm' g callee args =>
          rw [hexecute] at h
          exact absurd hinternal ((invoked_invoke hook vm' _ callee args _).kind_ne h)
        | leave vm' g result =>
          rw [hexecute] at h
          rw [eq_of_leave h]
          rfl
  | giving result frames' =>
    refine Or.inl ?_
    cases frames' with
    | nil => cases result <;> exact ⟨_, h⟩
    | cons f callers =>
      cases result with
      | ok v => cases h
      | error e' =>
        rw [Except.error.inj (eq_of_leave h)]
        exact ⟨_, rfl⟩
  | unwinding frames' => cases frames' <;> cases h

end Machine

end Faults

namespace Vm

variable {σ : Type} (hook : Option (Tracer σ)) (vm : Vm) (s : σ) (request : Request)

/-- Somewhere in the operation an instruction fails with the fault, or a call is refused or answered
with it. -/
def Raises (e : Fault) : Prop :=
  ∃ n, (vm.stepped hook s request n).fault? hook = some e ∨
    ∃ frames, (vm.stepped hook s request n).phase = .giving (.error e) frames

variable {hook vm s request}

theorem kind_ne_of_start {e : Fault} {frames : List Frame}
    (h : (vm.start hook s request).phase = .giving (.error e) frames) : e.kind ≠ .internal := by
  cases request with
  | run id => exact (Machine.invoked_invoke hook vm s (.function id) [] []).kind_ne h
  | call callee args => exact (Machine.invoked_invoke hook vm s callee args []).kind_ne h
  | callGlobal name args =>
    rw [start] at h
    split at h
    · exact (Machine.invoked_invoke hook vm s _ args []).kind_ne h
    · rename_i e' hlookup
      cases h
      exact (vm.plain_lookup name e hlookup).2

/-- An internal fault is always that of some instruction. -/
theorem Raises.exists_fault? {e : Fault} (h : vm.Raises hook s request e)
    (hinternal : e.kind = .internal) :
    ∃ n, (vm.stepped hook s request n).fault? hook = some e := by
  obtain ⟨n, hfault | ⟨frames, hphase⟩⟩ := h
  · exact ⟨n, hfault⟩
  · induction n generalizing frames with
    | zero => exact absurd hinternal (kind_ne_of_start hphase)
    | succ n ih =>
      rw [stepped_succ] at hphase
      obtain ⟨frames', hbefore⟩ | hfault := Machine.fault?_of_step hphase hinternal
      · exact ih frames' hbefore
      · exact ⟨n, hfault⟩

/-- The fault that an operation ends with was raised. -/
theorem raises_of_operate {e : Fault} {fuel : Nat} {r : Run σ}
    (h : vm.operate hook s request fuel = some r) (hending : r.ending = .finished (.error e)) :
    vm.Raises hook s request e := by
  obtain ⟨hm, -⟩ := stepped_of_operate h
  rw [hending] at hm
  obtain ⟨result, hphase, hresult⟩ | ⟨-, haborted⟩ := Phase.cases_of_ending? hm
  · obtain rfl := Ending.finished.inj hresult
    exact ⟨fuel, Or.inr ⟨[], hphase⟩⟩
  · exact Ending.noConfusion haborted

/-- Where an internal fault comes from. -/
theorem Raises.cases_of_internal {e : Fault} (h : vm.Raises hook s request e)
    (hinternal : e.kind = .internal) :
    ∃ n, ∃ f ∈ (vm.stepped hook s request n).phase.frames,
      f.fetch = .error e ∨ e = .stackUnderflow f.code.name f.pc ∨
        ∃ op low, f.fetch = .ok (op, low) ∧ ¬f.Indexes op (foldArg f.pending low) ∧
          e = .argumentRange op (foldArg f.pending low) f.code.name := by
  obtain ⟨n, hfault⟩ := h.exists_fault? hinternal
  refine ⟨n, ?_⟩
  generalize vm.stepped hook s request n = m at hfault ⊢
  obtain ⟨vm', s', phase⟩ := m
  cases phase with
  | running f callers =>
    refine ⟨f, List.mem_cons_self, ?_⟩
    obtain hfetch | hplain | hrest := Machine.cases_of_fault? hfault
    · exact Or.inl hfetch
    · exact absurd hinternal hplain.2
    · exact Or.inr hrest
  | giving | unwinding => cases hfault

end Vm

/-! ### Runs of built code -/

/-- The frame is that of a call with the arguments `args`, which are in its first locals; the others
are unassigned. -/
structure Frame.StartsWith (f : Frame) (args : List Value) : Prop where
  argcount : args.length = f.code.argcount
  size : f.locals.size = f.code.nlocals
  assigned : ∀ i, i < f.code.argcount → ∃ v, args[i]? = some v ∧ f.locals[i]? = some (some v)
  unassigned : ∀ i, f.code.argcount ≤ i → i < f.code.nlocals → f.locals[i]? = some none
  pc : f.pc = 0

theorem Frame.Begins.startsWith {f : Frame} {args : List Value} (h : f.Begins args)
    (hcode : f.code.Assembled) : f.StartsWith args := by
  have hargs := h.argcount
  have hlocals := h.locals_eq
  refine ⟨hargs, (OnTrack.kept.begins trivial h).size hcode, fun i hi => ?_, fun i hle hlt => ?_,
    h.pc_eq⟩
  · have hi : i < args.length := by omega
    refine ⟨args[i], List.getElem?_eq_getElem hi, ?_⟩
    rw [hlocals, List.getElem?_toArray, List.getElem?_append_left (by simpa using hi),
      List.getElem?_map, List.getElem?_eq_getElem hi, Option.map_some]
  · have hi : i - args.length < f.code.nlocals - args.length := by omega
    rw [hlocals, List.getElem?_toArray, List.getElem?_append_right (by simpa [hargs] using hle),
      List.length_map, List.getElem?_replicate, if_pos hi]

section Runs

variable {σ : Type} (hook : Option (Tracer σ)) (vm : Vm) (s : σ) (request : Request)

/-- Every frame is on track at every moment of an operation. -/
theorem Vm.onTrack_stepped (n : Nat) :
    ∀ f ∈ (vm.stepped hook s request n).phase.frames, f.OnTrack :=
  kept_stepped Frame.OnTrack.kept vm s request (fun _ => trivial) n

/-- When all functions of a machine were built by name, so was all code that its operations
execute. -/
theorem Vm.assembledByName_stepped (h : ∀ code ∈ vm.store.functions, code.AssembledByName)
    (n : Nat) : ∀ f ∈ (vm.stepped hook s request n).phase.frames, f.code.AssembledByName := by
  intro f hf
  obtain ⟨id, hcode⟩ := vm.code_of_mem_stepped hook s request n f hf
  rw [← hcode, Store.code, Array.getD_eq_getD_getElem?]
  cases hfound : vm.store.functions[id.index]? with
  | some code => exact h code (Array.mem_of_getElem? hfound)
  -- A function that there is not has the code that is built from nothing.
  | none => exact ⟨"", [], by with_unfolding_all rfl, List.forall_mem_nil _⟩

/-- Built code does not derail the machine.  When all code that an operation executes was built,
every frame begins with the arguments of its call in its first locals, and keeps its locals and even
offsets; no byte is ever fetched that is no opcode; and where `LOAD_FAST` finds a local unassigned,
it has a name.  When, besides, all prefixes and lookups were left to the assembler, no argument is
ever out of range, so the only internal faults are that operands lack and that code has ended. -/
theorem built_code_stays_on_track
    (hbuilt : ∀ n, ∀ f ∈ (vm.stepped hook s request n).phase.frames, f.code.Assembled) :
    (∀ f ∈ (vm.stepped hook s request 0).phase.frames, ∃ callee args,
      vm.call? request = some (callee, args) ∧ vm.Calls callee args f.code ∧ f.StartsWith args) ∧
    (∀ n, (vm.stepped hook s request (n + 1)).phase.frames.length =
        (vm.stepped hook s request n).phase.frames.length + 1 →
      ∃ callee args f callers,
        (vm.stepped hook s request n).call? hook = some (callee, args) ∧
        (vm.stepped hook s request (n + 1)).phase.frames = f :: callers ∧
        (vm.stepped hook s request n).vm.Calls callee args f.code ∧ f.StartsWith args) ∧
    (∀ n, ∀ f ∈ (vm.stepped hook s request n).phase.frames,
      f.pc % 2 = 0 ∧ f.locals.size = f.code.nlocals) ∧
    (∀ byte offset, ¬vm.Raises hook s request (.invalidOpcode byte offset)) ∧
    (∀ n f callers low, (vm.stepped hook s request n).phase = .running f callers →
      f.fetch = .ok (.loadFast, low) →
      f.locals[(foldArg f.pending low).toNat]? = some none →
      (foldArg f.pending low).toNat < f.code.varnames.size) ∧
    ((∀ n, ∀ f ∈ (vm.stepped hook s request n).phase.frames, f.code.AssembledByName) →
      (∀ op arg function, ¬vm.Raises hook s request (.argumentRange op arg function)) ∧
      ∀ e, vm.Raises hook s request e → e.kind = .internal →
        ∃ function offset, e = .stackUnderflow function offset ∨ e = .pastEnd function offset) := by
  have htrack := vm.onTrack_stepped hook s request
  refine ⟨fun f hf => ?_, fun n h => ?_, fun n f hf => ?_, fun byte offset h => ?_,
    fun n f callers low hphase _ hunassigned => ?_, fun hnamed => ?_⟩
  · have hcode := hbuilt 0 f hf
    rw [Vm.stepped, Function.iterate_zero_apply] at hf
    obtain hnone | ⟨callee, args, g, hcall, hframes, hcalls, hbegins⟩ :=
      Vm.frames_start hook (vm.setUp hook) s request
    · rw [hnone] at hf
      cases hf
    · rw [hframes, List.mem_singleton] at hf
      subst hf
      rw [Vm.call?_setUp] at hcall
      exact ⟨callee, args, hcall, (Vm.calls_setUp hook).mp hcalls, hbegins.startsWith hcode⟩
  · obtain ⟨callee, args, f, callers, hcall, hframes, hcalls, hbegins⟩ :=
      Vm.begins_stepped hook vm s request h
    have hcode := hbuilt (n + 1) f (hframes ▸ List.mem_cons_self)
    exact ⟨callee, args, f, callers, hcall, hframes, hcalls, hbegins.startsWith hcode⟩
  · exact ⟨(htrack n f hf).even, (htrack n f hf).size (hbuilt n f hf)⟩
  · obtain ⟨n, f, hf, hfetch | hunderflow | ⟨op, low, -, -, hargument⟩⟩ := h.cases_of_internal rfl
    · exact Fault.noConfusion ((htrack n f hf).fetch_eq_error (hbuilt n f hf) hfetch)
    · exact Fault.noConfusion hunderflow
    · exact Fault.noConfusion hargument
  · have hf : f ∈ (vm.stepped hook s request n).phase.frames := by
      rw [hphase]
      exact List.mem_cons_self
    have hsize : f.locals.size = f.code.varnames.size := (htrack n f hf).size (hbuilt n f hf)
    rw [← hsize]
    exact (Array.getElem?_eq_some_iff.mp hunassigned).1
  · have hinternal : ∀ e, vm.Raises hook s request e → e.kind = .internal →
        ∃ function offset, e = .stackUnderflow function offset ∨ e = .pastEnd function offset := by
      intro e h hkind
      obtain ⟨n, f, hf, hfetch | hunderflow | ⟨op, low, hfetch, hindexes, -⟩⟩ :=
        h.cases_of_internal hkind
      · exact ⟨_, _, Or.inr ((htrack n f hf).fetch_eq_error (hbuilt n f hf) hfetch)⟩
      · exact ⟨_, _, Or.inl hunderflow⟩
      · exact absurd ((htrack n f hf).indexes (hnamed n f hf) hfetch) hindexes
    refine ⟨fun op arg function h => ?_, hinternal⟩
    obtain ⟨_, _, hunderflow | hend⟩ := hinternal _ h rfl
    · exact Fault.noConfusion hunderflow
    · exact Fault.noConfusion hend

end Runs

/-- A machine with a function 0 that reads a local that it never assigns, and a function 1 that
calls it. -/
def readerVm : Vm where
  store.functions :=
    #[⟨"reader", 1, #["x", "y"], #[], #[], #[3, 1, 19, 0], [⟨0, 1⟩]⟩,
      ⟨"caller", 0, #[], #[], #[.function ⟨0⟩, .int 7], #[2, 0, 2, 1, 18, 1, 19, 0], [⟨0, 1⟩]⟩]

theorem assembledByName_readerVm : ∀ code ∈ readerVm.store.functions, code.AssembledByName := by
  intro code hcode
  simp only [readerVm, List.mem_toArray, List.mem_cons, List.not_mem_nil, or_false] at hcode
  rcases hcode with rfl | rfl
  · exact ⟨"reader", [.param "x", .loadFast "y", .ret], by with_unfolding_all rfl, by decide⟩
  · exact ⟨"caller", [.loadConst (.function ⟨0⟩), .loadConst (.int 7), .call 1, .ret],
      by with_unfolding_all rfl, by decide⟩

theorem built_code_stays_on_track_reader :
    readerVm.Raises none () (.run ⟨1⟩) (.unassignedLocal "y") ∧
    (∃ f callers, (readerVm.stepped none () (.run ⟨1⟩) 3).phase.frames = f :: callers ∧
      f.StartsWith [.int 7]) ∧
    ∀ op arg function,
      ¬readerVm.Raises none () (.run ⟨1⟩) (.argumentRange op arg function) := by
  have hnamed := readerVm.assembledByName_stepped none () (.run ⟨1⟩) assembledByName_readerVm
  obtain ⟨-, hcall, -, -, -, hranges⟩ := built_code_stays_on_track none readerVm () (.run ⟨1⟩)
    fun n f hf => (hnamed n f hf).assembled
  have hrun : (readerVm.operate none () (.run ⟨1⟩) 6).map Run.ending =
      some (.finished (.error (.unassignedLocal "y"))) := rfl
  obtain ⟨r, hr, hending⟩ := Option.map_eq_some_iff.mp hrun
  obtain ⟨callee, args, f, callers, hcalled, hframes, -, hstarts⟩ := hcall 2 rfl
  have hargs : (Value.function ⟨0⟩, [Value.int 7]) = (callee, args) := Option.some.inj hcalled
  obtain ⟨rfl, rfl⟩ := Prod.mk.inj hargs
  exact ⟨Vm.raises_of_operate hr hending, ⟨f, callers, hframes, hstarts⟩, (hranges hnamed).1⟩

end Wordcode
