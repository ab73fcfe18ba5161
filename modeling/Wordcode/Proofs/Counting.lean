import Mathlib.Algebra.BigOperators.Group.List.Basic
import Mathlib.Algebra.GroupWithZero.Nat
import Mathlib.Data.List.Count
import Wordcode.Proofs.Tracing
import Wordcode.Trace.Counter

/-! What the counting tracers count.  Each of them asks for opcode events from the call of a frame
on, so every frame that runs under it sends one for each instruction, and the counts are those of
the instructions that the run executed, however it ends. -/

namespace Wordcode

open Trace

/-! ### Histograms -/

namespace Trace.Histogram

/-- The number of records of all names but one. -/
def others (h : Histogram) (name : String) : Nat :=
  ((h.counts.toList.filter fun entry => ¬name == entry.1).map Prod.snd).sum

theorem total_eq_sum (h : Histogram) : h.total = (h.counts.toList.map Prod.snd).sum := rfl

theorem total_insert (h : Histogram) (name : String) (count : Nat) :
    (⟨h.counts.insert name count⟩ : Histogram).total = count + h.others name := by
  have hperm := (Std.HashMap.toList_insert_perm (m := h.counts) (k := name) (v := count)).map
    Prod.snd
  rw [total_eq_sum, hperm.sum_eq, List.map_cons, List.sum_cons]
  rfl

theorem total_congr {h h' : Histogram}
    (hsame : ∀ name : String, h.counts[name]? = h'.counts[name]?) : h.total = h'.total := by
  have hequiv : h.counts.Equiv h'.counts := .of_forall_getElem?_eq hsame
  rw [total_eq_sum, total_eq_sum, (hequiv.toList_perm.map Prod.snd).sum_eq]

theorem total_eq_add (h : Histogram) (name : String) : h.total = h.get name + h.others name := by
  by_cases hmem : name ∈ h.counts
  · rw [← total_insert]
    apply total_congr
    intro other
    rw [Std.HashMap.getElem?_insert]
    split
    · rename_i heq
      rw [← eq_of_beq heq, get, Std.HashMap.getElem?_eq_some_getD hmem]
    · rfl
  · have hget : h.get name = 0 := Std.HashMap.getD_eq_fallback hmem
    have hall : (h.counts.toList.filter fun entry => ¬name == entry.1) = h.counts.toList := by
      rw [List.filter_eq_self]
      rintro ⟨other, count⟩ hentry
      have hother : other ∈ h.counts := by
        rw [Std.HashMap.mem_iff_isSome_getElem?,
          Std.HashMap.mem_toList_iff_getElem?_eq_some.mp hentry]
        rfl
      have hne : name ≠ other := fun heq => hmem (heq ▸ hother)
      simpa using hne
    rw [hget, others, hall, Nat.zero_add, total_eq_sum]

theorem total_record (h : Histogram) (name : String) : (h.record name).total = h.total + 1 := by
  have hinsert : (h.record name).total =
      (⟨h.counts.insert name (h.get name + 1)⟩ : Histogram).total := by
    apply total_congr
    intro other
    rw [record, Std.HashMap.getElem?_alter, Std.HashMap.getElem?_insert, get,
      Std.HashMap.getD_eq_getD_getElem?]
  rw [hinsert, total_insert, h.total_eq_add name]
  omega

theorem total_foldl_record (names : List String) (h : Histogram) :
    (names.foldl record h).total = h.total + names.length := by
  induction names generalizing h with
  | nil => rfl
  | cons name rest ih =>
    rw [List.foldl_cons, ih, total_record, List.length_cons]
    omega

theorem total_ofList (names : List String) : (ofList names).total = names.length := by
  have hempty : ({} : Histogram).total = 0 := by simp [total]
  rw [ofList, total_foldl_record, hempty, Nat.zero_add]

theorem mem_record (h : Histogram) (name other : String) :
    other ∈ (h.record name).counts ↔ other ∈ h.counts ∨ name = other := by
  rw [record, Std.HashMap.mem_alter]
  by_cases hname : name = other <;> simp [hname]

theorem mem_foldl_record (names : List String) (h : Histogram) (name : String) :
    name ∈ (names.foldl record h).counts ↔ name ∈ h.counts ∨ name ∈ names := by
  induction names generalizing h with
  | nil => simp
  | cons first rest ih =>
    rw [List.foldl_cons, ih, mem_record, List.mem_cons, or_assoc, eq_comm (a := first)]

theorem mem_ofList (names : List String) (name : String) :
    name ∈ (ofList names).counts ↔ name ∈ names := by
  rw [ofList, mem_foldl_record]
  simp

end Trace.Histogram

/-! ### Executed instructions -/

theorem Opcode.name_injective : Function.Injective Opcode.name := fun _ _ => eq_of_name_eq

theorem Frame.opcode_of_fetch {f : Frame} {op : Opcode} {low : UInt8}
    (h : f.fetch = .ok (op, low)) : f.code.bytes[f.pc]?.map Opcode.nameOfByte = some op.name := by
  unfold fetch at h
  split at h
  · rename_i byte low' hbyte hlow
    split at h
    · rename_i op' hop
      cases h
      rw [hbyte, Option.map_some, Opcode.nameOfByte, hop]
    · cases h
  · cases h

namespace Machine

/-- The opcode of the instruction that the next step executes, prefixes included; none if the step
leaves a frame, hands over a result, or finds no instruction. -/
def opcode? {σ : Type} (m : Machine σ) : Option Opcode :=
  match m.phase with
  | .running f _ => f.fetch.toOption.map Prod.fst
  | _ => none

/-- The opcodes of the instructions that the next `n` steps execute, in all frames. -/
def opcodes {σ : Type} (hook : Option (Tracer σ)) : Nat → Machine σ → List Opcode
  | 0, _ => []
  | n + 1, m => m.opcode?.toList ++ opcodes hook n (m.step hook)

end Machine

/-! ### Counting tracers -/

/-- A tracer that counts, in the part `tally` of its state, the instructions for which it gets an
opcode event.  It asks for these events at every event, and for more events always. -/
structure Trace.Tracer.Tallies {σ : Type} (hook : Tracer σ) (tally : σ → Histogram) : Prop where
  verdict : ∀ s view e, (hook.onEvent s view e).verdict = .proceed
  flags : ∀ s view e, (hook.onEvent s view e).flags = { view.flags with opcodes := true }
  opcode : ∀ s view name, view.counted? = some name →
    tally (hook.onEvent s view .opcode).state = (tally s).record name
  other : ∀ s view e, e ≠ .opcode → tally (hook.onEvent s view e).state = tally s

theorem Trace.tallies_opcodeCounter : opcodeCounter.Tallies id where
  verdict _ _ _ := rfl
  flags _ _ _ := rfl
  opcode s view name h := by
    show (opcodeCounter.onEvent s view .opcode).state = s.record name
    simp only [opcodeCounter, h]
  other s view e h := by
    cases e with
    | opcode => exact absurd rfl h
    | _ => rfl

theorem Trace.Profiler.histogram_settle (p : Profiler) (now : Nat) :
    (p.settle now).profile.histogram = p.profile.histogram := by
  unfold settle
  split <;> rfl

theorem Trace.tallies_opcodeProfiler (clock : Nat → Nat) :
    (opcodeProfiler clock).Tallies fun p => p.profile.histogram where
  verdict _ _ _ := rfl
  flags _ _ _ := rfl
  opcode p view name h := by
    simp only [opcodeProfiler, h]
    rw [Profiler.histogram_settle]
  other p view e h := by
    cases e with
    | opcode => exact absurd rfl h
    | returned v => exact Profiler.histogram_settle _ _
    | raised message => exact Profiler.histogram_settle _ _
    | _ => rfl

/-- A frame that sends opcode events. -/
structure Frame.Armed (f : Frame) : Prop where
  active : f.active = true
  opcodes : f.flags.opcodes = true

theorem Frame.Armed.flags_eq {f : Frame} (h : f.Armed) :
    { f.flags with opcodes := true } = f.flags := by
  rw [← h.opcodes]

section Tally

variable {σ : Type} {hook : Tracer σ} {tally : σ → Histogram} (htally : hook.Tallies tally)
  {f : Frame}

/-! ### Events -/

namespace Frame

include htally

theorem Armed.notify (harmed : f.Armed) (s : σ) (vm : Vm) (e : Trace.Event) :
    f.notify hook s vm e =
      ⟨(hook.onEvent s ⟨vm.store, f.code, f.lasti, vm.depth, f.flags⟩ e).state, f, .proceed⟩ := by
  unfold Frame.notify
  dsimp only
  rw [htally.flags, htally.verdict, harmed.flags_eq]

theorem Armed.notifyLocal (harmed : f.Armed) (s : σ) (vm : Vm) (e : Trace.Event) :
    f.notifyLocal hook s vm e = f.notify hook s vm e := by
  unfold Frame.notifyLocal
  rw [harmed.notify htally]
  rfl

theorem Armed.notifyLine (harmed : f.Armed) (s : σ) (vm : Vm) :
    ∃ s' line, f.notifyLine hook s vm = ⟨s', { f with lastLine := line }, .proceed⟩ ∧
      tally s' = tally s := by
  unfold Frame.notifyLine
  split
  · have harmed' : ({ f with lastLine := some (f.code.lineAt f.lasti) } : Frame).Armed :=
      ⟨harmed.active, harmed.opcodes⟩
    dsimp only
    rw [harmed'.notifyLocal htally, harmed'.notify htally]
    exact ⟨_, _, rfl, htally.other _ _ _ Trace.Event.noConfusion⟩
  · exact ⟨s, f.lastLine, rfl, rfl⟩

theorem Armed.notifyOpcode (harmed : f.Armed) {name : String}
    (hname : f.code.bytes[f.lasti]?.map Opcode.nameOfByte = some name) (s : σ) (vm : Vm) :
    ∃ s', f.notifyOpcode hook s vm = ⟨s', f, .proceed⟩ ∧ tally s' = (tally s).record name := by
  unfold Frame.notifyOpcode
  rw [if_pos harmed.opcodes, harmed.notifyLocal htally, harmed.notify htally]
  exact ⟨_, rfl, htally.opcode _ _ _ hname⟩

/-- The events of an instruction add one record, of its own name. -/
theorem Armed.notifyInstruction (harmed : f.Armed) {name : String}
    (hname : f.code.bytes[f.lasti]?.map Opcode.nameOfByte = some name) (s : σ) (vm : Vm) :
    ∃ s' line, f.notifyInstruction hook s vm = ⟨s', { f with lastLine := line }, .proceed⟩ ∧
      tally s' = (tally s).record name := by
  obtain ⟨s₁, line, hline, hs₁⟩ := harmed.notifyLine htally s vm
  have harmed' : ({ f with lastLine := line } : Frame).Armed := ⟨harmed.active, harmed.opcodes⟩
  obtain ⟨s₂, hopcode, hs₂⟩ := harmed'.notifyOpcode htally hname s₁ vm
  refine ⟨s₂, line, ?_, by rw [hs₂, hs₁]⟩
  unfold Frame.notifyInstruction
  rw [if_pos harmed.active, hline]
  exact hopcode

end Frame

/-! ### Steps -/

namespace Machine

/-- The machine has executed `executed` instructions and its tracer has the tally `h`, and all its
frames send opcode events. -/
structure Tallied (tally : σ → Histogram) (executed : Nat) (h : Histogram) (m : Machine σ) :
    Prop where
  executed : m.vm.executed = executed
  tally : tally m.tracer = h
  armed : ∀ f ∈ m.phase.frames, f.Armed

variable {callers : List Frame} (hcallers : ∀ f ∈ callers, f.Armed)
include htally hcallers

theorem tallied_begin (vm : Vm) (s : σ) (f : Frame) :
    (begin (some hook) vm s f callers).Tallied tally vm.executed (tally s) := by
  have hverdict : (f.notify hook s vm .call).verdict = .proceed := htally.verdict s _ .call
  have hflags : (f.notify hook s vm .call).frame.flags = { f.flags with opcodes := true } :=
    htally.flags s _ .call
  unfold begin
  dsimp only
  rw [hverdict]
  refine ⟨rfl, htally.other s _ .call Trace.Event.noConfusion, ?_⟩
  intro g hg
  rcases List.mem_cons.mp hg with rfl | hg
  · exact ⟨rfl, by rw [hflags]⟩
  · exact hcallers g hg

theorem tallied_enter (vm : Vm) (s : σ) (code : Code) (args : List Value) :
    (enter (some hook) vm s code args callers).Tallied tally vm.executed (tally s) := by
  by_cases hargs : args.length = code.argcount
  · rcases Nat.lt_or_ge vm.depth vm.limit with hlimit | hlimit
    · rw [enter_of_lt_limit hargs hlimit]
      exact tallied_begin htally hcallers (vm.pushFrame code.name) s _
    · rw [enter_of_limit_le hargs hlimit]
      exact ⟨rfl, rfl, hcallers⟩
  · rw [enter_of_length_ne hargs]
    exact ⟨rfl, rfl, hcallers⟩

theorem tallied_invoke (vm : Vm) (s : σ) (callee : Value) (args : List Value) :
    (invoke (some hook) vm s callee args callers).Tallied tally vm.executed (tally s) := by
  cases callee with
  | function id => exact tallied_enter htally hcallers vm s _ args
  | builtin b =>
    refine ⟨?_, rfl, hcallers⟩
    have h := congrArg (fun r => r.2.executed) (b.call_withData args vm vm)
    exact h
  | _ => exact ⟨rfl, rfl, hcallers⟩

theorem tallied_leave (vm : Vm) (s : σ) {f : Frame} (harmed : f.Armed)
    (result : Except Fault Value) :
    (leave (some hook) vm s f result callers).Tallied tally vm.executed (tally s) := by
  rw [leave_of_active harmed.active, harmed.notify htally]
  refine ⟨rfl, ?_, hcallers⟩
  apply htally.other
  cases result <;> exact Trace.Event.noConfusion

theorem tallied_proceed (s : σ) {e : Effect} (harmed : e.frame.Armed) :
    (proceed (some hook) s callers e).Tallied tally e.vm.executed (tally s) := by
  cases e with
  | next vm f => exact ⟨rfl, rfl, List.forall_mem_cons.mpr ⟨harmed, hcallers⟩⟩
  | jump vm f target =>
    exact ⟨rfl, rfl, List.forall_mem_cons.mpr ⟨⟨harmed.active, harmed.opcodes⟩, hcallers⟩⟩
  | call vm f callee args =>
    exact tallied_invoke htally (List.forall_mem_cons.mpr ⟨harmed, hcallers⟩) vm s callee args
  | leave vm f result => exact tallied_leave htally hcallers vm s harmed result

theorem tallied_executeNext (vm : Vm) (s : σ) {f : Frame} (harmed : f.Armed) :
    let ran := (f.fetch.toOption.map Prod.fst).toList
    (executeNext (some hook) vm s f callers).Tallied tally (vm.executed + ran.length)
      ((ran.map Opcode.name).foldl Histogram.record (tally s)) := by
  cases hfetch : f.fetch with
  | error e =>
    rw [executeNext_of_error hfetch]
    exact tallied_leave htally hcallers vm s harmed _
  | ok fetched =>
    obtain ⟨op, low⟩ := fetched
    have harmed' : (f.advance op (foldArg f.pending low)).Armed := ⟨harmed.active, harmed.opcodes⟩
    -- The frame was advanced, and its last instruction is now the one that was fetched.
    obtain ⟨s', line, hnotify, hs'⟩ :=
      harmed'.notifyInstruction htally (f.opcode_of_fetch hfetch) s vm.count
    rw [executeNext_some hfetch]
    dsimp only
    rw [hnotify, if_neg Verdict.noConfusion]
    have hproceed := tallied_proceed htally hcallers s'
      (e := execute op (foldArg f.pending low) vm.count
        { f.advance op (foldArg f.pending low) with lastLine := line })
      (by rw [frame_execute]; exact ⟨harmed.active, harmed.opcodes⟩)
    rw [vm_execute, hs'] at hproceed
    exact hproceed

omit hcallers in
/-- A step adds the instruction that it executes to the count and to the tally. -/
theorem Tallied.step {m : Machine σ} {executed : Nat} {h : Histogram}
    (hm : m.Tallied tally executed h) :
    (m.step (some hook)).Tallied tally (executed + m.opcode?.toList.length)
      ((m.opcode?.toList.map Opcode.name).foldl Histogram.record h) := by
  obtain ⟨vm, s, phase⟩ := m
  obtain ⟨rfl, rfl, harmed⟩ := hm
  cases phase with
  | running f callers =>
    obtain ⟨hf, hcallers⟩ := List.forall_mem_cons.mp harmed
    exact tallied_executeNext htally hcallers vm s hf
  | giving result frames =>
    cases frames with
    | nil => cases result <;> exact ⟨rfl, rfl, harmed⟩
    | cons f callers =>
      obtain ⟨hf, hcallers⟩ := List.forall_mem_cons.mp harmed
      cases result with
      | ok v =>
        refine ⟨rfl, rfl, List.forall_mem_cons.mpr ⟨?_, hcallers⟩⟩
        exact ⟨hf.active, hf.opcodes⟩
      | error e => exact tallied_leave htally hcallers vm s hf (.error e)
  | unwinding frames =>
    cases frames with
    | nil => exact ⟨rfl, rfl, harmed⟩
    | cons f callers => exact ⟨rfl, rfl, (List.forall_mem_cons.mp harmed).2⟩

omit hcallers in
theorem Tallied.iterate_step (n : Nat) {m : Machine σ} {executed : Nat} {h : Histogram}
    (hm : m.Tallied tally executed h) :
    ((Machine.step (some hook))^[n] m).Tallied tally
      (executed + (m.opcodes (some hook) n).length)
      (((m.opcodes (some hook) n).map Opcode.name).foldl Histogram.record h) := by
  induction n generalizing m executed h with
  | zero => exact hm
  | succ n ih =>
    rw [Function.iterate_succ_apply, opcodes, List.length_append, List.map_append,
      List.foldl_append, ← Nat.add_assoc]
    exact ih (hm.step htally)

end Machine

include htally in
theorem Vm.tallied_start (vm : Vm) (s : σ) (request : Request) :
    (vm.start (some hook) s request).Tallied tally vm.executed (tally s) := by
  have hnone : ∀ f ∈ ([] : List Frame), f.Armed := fun f hf => absurd hf List.not_mem_nil
  cases request with
  | run id => exact Machine.tallied_enter htally hnone vm s _ []
  | call callee args => exact Machine.tallied_invoke htally hnone vm s callee args
  | callGlobal name args =>
    rw [start]
    split
    · exact Machine.tallied_invoke htally hnone vm s _ args
    · exact ⟨rfl, rfl, hnone⟩

include htally in
/-- The tally of a run under a counting tracer is that of the instructions that the run executed. -/
theorem Vm.tally_of_trace (vm : Vm) (s : σ) (request : Request) {fuel : Nat} {r : Run σ}
    (hr : vm.trace hook s request fuel = some r) :
    let ran := (vm.installHook.start (some hook) s request).opcodes (some hook) fuel
    r.vm.executed = vm.executed + ran.length ∧
      tally r.tracer = (ran.map Opcode.name).foldl Histogram.record (tally s) := by
  have hrun := (vm.installHook.tallied_start htally s request).iterate_step htally fuel
  simp only [trace, perform, Machine.run_eq, Option.map_map, Option.map_eq_some_iff] at hr
  obtain ⟨ending, -, rfl⟩ := hr
  exact ⟨hrun.executed, hrun.tally⟩

include htally in
theorem Trace.Tracer.Tallies.neverAborts : hook.NeverAborts := by
  intro s view e
  rw [htally.verdict]
  exact Verdict.noConfusion

end Tally

namespace Machine

theorem opcode?_untraced {σ : Type} (m : Machine σ) : m.untraced.opcode? = m.opcode? := by
  obtain ⟨vm, s, phase⟩ := m
  cases phase <;> rfl

theorem opcodes_untraced {σ : Type} {hook : Tracer σ} (hcalm : hook.NeverAborts) (n : Nat)
    (m : Machine σ) : m.untraced.opcodes none n = m.opcodes (some hook) n := by
  induction n generalizing m with
  | zero => rfl
  | succ n ih =>
    rw [opcodes, opcodes, opcode?_untraced, ← untraced_step hcalm, ih]

end Machine

/-- All hooks that never give up are shown runs of the same instructions. -/
theorem Vm.opcodes_start {σ τ : Type} {hook : Tracer σ} {hook' : Tracer τ}
    (hcalm : hook.NeverAborts) (hcalm' : hook'.NeverAborts) (vm : Vm) (s : σ) (t : τ)
    (request : Request) (n : Nat) :
    (vm.start (some hook) s request).opcodes (some hook) n =
      (vm.start (some hook') t request).opcodes (some hook') n := by
  rw [← Machine.opcodes_untraced hcalm, ← Machine.opcodes_untraced hcalm', untraced_start hcalm,
    untraced_start hcalm']

/-- The opcode counter misses nothing and counts nothing twice, however the run ends: for each
opcode it has the number of instructions with it that all the frames of the run executed, the
prefixes and the instruction that failed included.  The total is what the machine's own counter
advanced by, and the profiler gets the same histogram, whatever its clock says. -/
theorem opcodeCounter_eq_executed (vm : Vm) (request : Request) {fuel : Nat} {r : Run Histogram}
    (hr : vm.trace opcodeCounter {} request fuel = some r) :
    let ran :=
      (vm.installHook.start (some opcodeCounter) {} request).opcodes (some opcodeCounter) fuel
    (∀ op : Opcode, r.tracer.get op.name = ran.count op) ∧
    (∀ name, (∀ op : Opcode, op.name ≠ name) → r.tracer.get name = 0) ∧
    r.tracer.total = ran.length ∧
    r.vm.executed = vm.executed + r.tracer.total ∧
    ∀ clock, ∃ p, vm.trace (opcodeProfiler clock) {} request fuel = some p ∧
      p.ending = r.ending ∧ (p.tracer.finish clock).histogram = r.tracer := by
  intro ran
  have hcalm := tallies_opcodeCounter.neverAborts
  obtain ⟨hexecuted, htally⟩ := vm.tally_of_trace tallies_opcodeCounter {} request hr
  have hnames : r.tracer = Histogram.ofList (ran.map Opcode.name) := htally
  have htotal : r.tracer.total = ran.length := by
    rw [hnames, Histogram.total_ofList, List.length_map]
  refine ⟨?_, ?_, htotal, ?_, ?_⟩
  · intro op
    rw [hnames, Histogram.get_ofList, List.count_map_of_injective _ _ Opcode.name_injective]
  · intro name hname
    rw [hnames, Histogram.get_ofList, List.count_eq_zero]
    intro hmem
    obtain ⟨op, -, hop⟩ := List.mem_map.mp hmem
    exact hname op hop
  · rw [htotal]
    exact hexecuted
  · intro clock
    have hcalm' := (tallies_opcodeProfiler clock).neverAborts
    have hsame := vm.map_trace hcalm' {} request fuel
    rw [← vm.map_trace hcalm {} request fuel, hr] at hsame
    obtain ⟨p, hp, hending⟩ := Option.map_eq_some_iff.mp hsame
    refine ⟨p, hp, congrArg Prod.fst hending, ?_⟩
    obtain ⟨-, hprofile⟩ := vm.tally_of_trace (tallies_opcodeProfiler clock) {} request hp
    rw [vm.installHook.opcodes_start hcalm' hcalm _ {} request fuel] at hprofile
    rw [Profiler.finish, Profiler.histogram_settle, hprofile, hnames]
    rfl

/-- A machine with a function 0 that calls function 1, which loads the constant 256 that it does not
have. -/
def prefixedVm : Vm where
  store.functions :=
    #[⟨"outer", 0, #[], #[], #[.function ⟨1⟩], #[2, 0, 18, 0, 19, 0], [⟨0, 1⟩]⟩,
      ⟨"inner", 0, #[], #[], #[.int 7], #[21, 1, 2, 0, 19, 0], [⟨0, 1⟩]⟩]

theorem opcodeCounter_eq_executed_prefixed :
    ∃ r, prefixedVm.trace opcodeCounter {} (.run ⟨0⟩) 7 = some r ∧
      r.tracer.get "LOAD_CONST" = 2 ∧ r.tracer.get "EXTENDED_ARG" = 1 ∧
      r.tracer.get "RETURN_VALUE" = 0 ∧ r.tracer.total = 4 ∧ r.vm.executed = 4 := by
  have hends : (prefixedVm.trace opcodeCounter {} (.run ⟨0⟩) 7).isSome = true := rfl
  obtain ⟨r, hr⟩ := Option.isSome_iff_exists.mp hends
  obtain ⟨hcount, -, htotal, hexecuted, -⟩ := opcodeCounter_eq_executed prefixedVm (.run ⟨0⟩) hr
  have hran :
      (prefixedVm.installHook.start (some opcodeCounter) {} (.run ⟨0⟩)).opcodes
        (some opcodeCounter) 7 = [.loadConst, .callFunction, .extendedArg, .loadConst] := rfl
  rw [hran] at hcount htotal
  refine ⟨r, hr, hcount .loadConst, hcount .extendedArg, hcount .returnValue, htotal, ?_⟩
  rw [hexecuted, htotal]
  rfl

end Wordcode
