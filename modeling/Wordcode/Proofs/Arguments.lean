import Wordcode.Proofs.Activations
import Wordcode.Proofs.Interning
import Wordcode.Proofs.Outcomes

/-! Arguments.  A call puts its arguments into the first slots of its frame, which are those of the
parameters, and only a store in the same frame to the same variable changes a slot.  So a parameter
reads as its argument until it is stored to, whatever the frame calls meanwhile. -/

namespace Wordcode

open Trace

/-! ### Locals -/

/-- The frame executes `code`, and its local `j` holds `v`. -/
structure Frame.Slot (code : Code) (j : Nat) (v : Value) (f : Frame) : Prop where
  code : f.code = code
  local_eq : f.locals[j]? = some (some v)

theorem Frame.Slot.congr {code : Code} {j : Nat} {v : Value} {f g : Frame} (h : f.Slot code j v)
    (hcode : g.code = f.code) (hlocal : g.locals[j]? = f.locals[j]?) : g.Slot code j v :=
  ⟨hcode.trans h.code, hlocal.trans h.local_eq⟩

/-- A frame begins with its arguments in its first locals. -/
theorem Frame.Begins.slot {f : Frame} {args : List Value} {j : Nat} {v : Value}
    (h : f.Begins args) (hv : args[j]? = some v) : f.Slot f.code j v := by
  refine ⟨rfl, ?_⟩
  have hlt : j < (args.map some).length := by
    rw [List.length_map]
    exact (List.getElem?_eq_some_iff.mp hv).1
  rw [h.locals_eq, List.getElem?_toArray, List.getElem?_append_left hlt, List.getElem?_map, hv]
  rfl

namespace Machine

variable {σ : Type} {hook : Option (Tracer σ)} {m : Machine σ} {depth : Nat}

/-- The next step executes an instruction `op` on the variable `x` in the frame at the given depth,
which executes `code`. -/
def Uses (m : Machine σ) (depth : Nat) (code : Code) (op : Opcode) (x : String) : Prop :=
  ∃ i, m.instruction? depth = some i ∧ i.opcode = op ∧ code.varnames[i.arg.toNat]? = some x

/-- The next step puts `v` on top of the operands, unless a hook gives up before. -/
def Reads (hook : Option (Tracer σ)) (m : Machine σ) (v : Value) : Prop :=
  ∃ f callers, m.phase = .running f callers ∧
    ((∃ g, (m.step hook).phase = .running g callers ∧ g.stack = v :: f.stack) ∨
      hook.isSome ∧ ∃ frames, (m.step hook).phase = .unwinding frames)

/-- A local that the frame at a depth does not store to in a step is the same after it, as long as
the frame is active and the hook does not give up. -/
theorem slot_step {code : Code} {j : Nat} {v : Value}
    (hdepth : depth ≤ (m.step hook).phase.frames.length)
    (hstore : ∀ i, m.instruction? depth = some i → i.opcode = .storeFast → i.arg.toNat ≠ j)
    (hat : FrameAt m.phase.frames depth (Frame.Slot code j v)) :
    (∃ frames, (m.step hook).phase = .unwinding frames) ∨
      FrameAt (m.step hook).phase.frames depth (Frame.Slot code j v) := by
  cases hperforming : m.performing? hook with
  | none =>
    obtain ⟨-, hidle⟩ := idle_step hperforming
    generalize (m.step hook).phase = phase' at hdepth hidle ⊢
    generalize m.phase = phase at hat hidle
    cases hidle with
    | ended => exact Or.inr hat
    | resumed =>
      obtain ⟨htop, hf⟩ | hcallers := FrameAt.of_cons hat
      · exact Or.inr (frameAt_top htop (hf.congr rfl rfl))
      · exact Or.inr (hcallers.cons _)
    | failed | passedOn =>
      obtain ⟨htop, -⟩ | hcallers := FrameAt.of_cons hat
      · exact absurd hdepth (by simp only [Phase.frames]; omega)
      · exact Or.inr hcallers
    | unwound => exact Or.inl ⟨_, rfl⟩
  | some performing =>
    obtain ⟨op, arg, g⟩ := performing
    obtain ⟨f, callers, low, s', hphase, hfetch, harg, hg, hstep⟩ := step_of_performing? hperforming
    obtain ⟨hcode, -, -, -, hlocals⟩ := Frame.of_untraced_eq hg
    rw [hphase] at hat
    rw [hstep] at hdepth ⊢
    -- The frame that executes the instruction keeps the local, and so do the others.
    have hbelow : FrameAt ((execute op arg m.vm.count g).frame :: callers) depth
        (Frame.Slot code j v) := by
      obtain ⟨htop, hf⟩ | hcallers := FrameAt.of_cons hat
      · refine frameAt_top htop (hf.congr ?_ ?_)
        · rw [frame_execute]
          exact hcode
        · rw [getElem?_locals_execute, hlocals]
          · rfl
          · rintro rfl
            refine hstore ⟨f.pc, .storeFast, arg⟩ ?_ rfl
            simp [instruction?, hphase, htop, hfetch, Except.toOption, harg]
      · exact hcallers.cons _
    generalize execute op arg m.vm.count g = e at hdepth hbelow ⊢
    cases e with
    | next vm' f' => exact Or.inr hbelow
    | jump vm' f' target =>
      obtain ⟨htop, hf⟩ | hcallers := hbelow.of_cons
      · exact Or.inr (frameAt_top htop (hf.congr rfl rfl))
      · exact Or.inr (hcallers.cons _)
    | call vm' f' callee args =>
      have hinvoke := invocation_invoke hook vm' s' callee args (f' :: callers)
      rw [proceed] at hdepth ⊢
      generalize (invoke hook vm' s' callee args (f' :: callers)).vm.data = data,
        (invoke hook vm' s' callee args (f' :: callers)).phase = phase at hinvoke ⊢
      cases hinvoke with
      | entered => exact Or.inr (hbelow.cons _)
      | answered | refused => exact Or.inr hbelow
      | gaveUp => exact Or.inl ⟨_, rfl⟩
    | leave vm' f' result =>
      obtain ⟨s'', h⟩ | ⟨s'', f'', h⟩ := leave_cases hook vm' s' f' result callers
      · rw [proceed, h] at hdepth ⊢
        obtain ⟨htop, -⟩ | hcallers := hbelow.of_cons
        · exact absurd hdepth (by simp only [Phase.frames]; omega)
        · exact Or.inr hcallers
      · rw [proceed, h]
        exact Or.inl ⟨_, rfl⟩

theorem unwinding_step {frames : List Frame} (h : m.phase = .unwinding frames) :
    ∃ frames', (m.step hook).phase = .unwinding frames' := by
  obtain ⟨vm, s, phase⟩ := m
  obtain rfl : phase = .unwinding frames := h
  cases frames <;> exact ⟨_, rfl⟩

/-- Loading a local that holds a value reads the value. -/
theorem reads_of_slot {code : Code} {j : Nat} {v : Value} {i : Instruction}
    (hat : FrameAt m.phase.frames depth (Frame.Slot code j v))
    (hi : m.instruction? depth = some i) (hop : i.opcode = .loadFast) (harg : i.arg.toNat = j) :
    m.Reads hook v := by
  obtain ⟨vm, s, phase⟩ := m
  obtain ⟨f, callers, op, low, hphase, hdepth, hfetch, rfl⟩ := instruction?_eq_some hi
  obtain rfl : phase = .running f callers := hphase
  obtain rfl : op = .loadFast := hop
  have hf : f.Slot code j v := FrameAt.top hat hdepth
  refine ⟨f, callers, rfl, ?_⟩
  rw [step, executeNext_of_ok hfetch]
  obtain ⟨-, -, -, hstack, hlocals⟩ := Frame.of_untraced_eq
    ((f.advance .loadFast (foldArg f.pending low)).untraced_observe hook s vm.count)
  have hnone : hook = none →
      ((f.advance .loadFast (foldArg f.pending low)).observe hook s vm.count).verdict =
        .proceed := by
    rintro rfl
    rfl
  generalize (f.advance .loadFast (foldArg f.pending low)).observe hook s vm.count = n
    at hstack hlocals hnone
  dsimp only
  split
  · rename_i habort
    refine Or.inr ⟨?_, _, rfl⟩
    cases hook with
    | none => rw [hnone rfl] at habort; cases habort
    | some tracer => rfl
  · have hlocal : n.frame.locals[(foldArg f.pending low).toNat]? = some (some v) := by
      rw [hlocals]
      exact harg ▸ hf.local_eq
    have hexecute : execute .loadFast (foldArg f.pending low) vm.count n.frame =
        .next vm.count (n.frame.push v) := by
      simp only [execute, hlocal]
    rw [hexecute]
    refine Or.inl ⟨_, rfl, ?_⟩
    exact congrArg (v :: ·) hstack

end Machine

/-! ### Runs -/

section Lives

variable {σ : Type} {hook : Option (Tracer σ)} {vm : Vm} {s : σ} {request : Request} {a k j : Nat}
  {code : Code} {v : Value}

/-- A local keeps its value until it is stored to, or until the hook gives up; by induction on the
steps since the frame was entered. -/
theorem Vm.Lives.slot (hlives : vm.Lives hook s request a k)
    (hat : FrameAt (vm.stepped hook s request a).phase.frames (vm.height hook s request a)
      (Frame.Slot code j v))
    (hstore : ∀ n < k, ∀ i, (vm.stepped hook s request (a + n)).instruction?
      (vm.height hook s request a) = some i → i.opcode = .storeFast → i.arg.toNat ≠ j) :
    (∃ frames, (vm.stepped hook s request (a + k)).phase = .unwinding frames) ∨
      FrameAt (vm.stepped hook s request (a + k)).phase.frames (vm.height hook s request a)
        (Frame.Slot code j v) := by
  induction k with
  | zero => exact Or.inr hat
  | succ k ih =>
    have hstays := hlives.stays (k + 1) (Nat.le_refl _)
    rw [height, height, ← Nat.add_assoc, stepped_succ] at hstays
    rw [← Nat.add_assoc, stepped_succ]
    obtain ⟨frames, hgaveUp⟩ | hat :=
      ih hlives.of_succ fun n hn => hstore n (Nat.lt_succ_of_lt hn)
    · exact Or.inl (Machine.unwinding_step hgaveUp)
    · exact Machine.slot_step hstays (hstore k (Nat.lt_succ_self k)) hat

/-- A variable reads as the argument in its slot, until it is stored to. -/
theorem Vm.Lives.reads_argument (hlives : vm.Lives hook s request a k) {f : Frame}
    {callers : List Frame} {args : List Value}
    (hframes : (vm.stepped hook s request a).phase.frames = f :: callers) (hbegins : f.Begins args)
    (hv : args[j]? = some v) (hnodup : f.code.varnames.toList.Nodup) {x : String}
    (hx : f.code.varnames[j]? = some x)
    (hstore : ∀ n < k,
      ¬(vm.stepped hook s request (a + n)).Uses (callers.length + 1) f.code .storeFast x)
    (hload : (vm.stepped hook s request (a + k)).Uses (callers.length + 1) f.code .loadFast x) :
    (vm.stepped hook s request (a + k)).Reads hook v := by
  have hheight : vm.height hook s request a = callers.length + 1 := by
    rw [height, hframes, List.length_cons]
  have hat : FrameAt (vm.stepped hook s request a).phase.frames (vm.height hook s request a)
      (Frame.Slot f.code j v) := by
    rw [hheight, hframes]
    exact frameAt_top rfl (hbegins.slot hv)
  have hkept := hlives.slot hat fun n hn i hi hop harg =>
    hstore n hn ⟨i, hheight ▸ hi, hop, harg.symm ▸ hx⟩
  rw [hheight] at hkept
  obtain ⟨i, hi, hop, hslot⟩ := hload
  -- No two variables have one name, so the slot that is loaded is that of the argument.
  have harg : i.arg.toNat = j := by
    rw [← Array.getElem?_toList] at hslot hx
    obtain ⟨hlt, -⟩ := List.getElem?_eq_some_iff.mp hslot
    exact (List.getElem?_inj hlt hnodup).mp (hslot.trans hx.symm)
  obtain ⟨frames, hgaveUp⟩ | hat := hkept
  · obtain ⟨g, outer, op, low, hphase, -⟩ := Machine.instruction?_eq_some hi
    rw [hgaveUp] at hphase
    cases hphase
  · exact Machine.reads_of_slot hat hi hop harg

end Lives

/-! ### Built code -/

/-- The tables of built code are faithful.  They list nothing twice.  The place that a command was
given for a variable, a name or a constant, as its answer or in the instruction that it added, is
that of an equal entry in the end.  The parameters are the first variables, in order; and whenever a
frame of the code loads a parameter that it has not stored to, it reads the argument that it was
called with. -/
theorem tables_faithful {name : String} {commands : List Command} {code : Code}
    (hbuild : assemble name commands = .ok code) (hsize : code.Addressable) :
    code.Distinct ∧
      (∃ bound slots, (Draft.performAll { name } commands).Encodes bound slots code ∧
        ∀ before c after e, commands = before ++ c :: after → c.entry? = some e →
          ∃ i, code.Carries slots (Draft.performAll { name } before) c i ∧ code.Lists i e) ∧
      code.varnames.toList.take code.argcount = parameters commands ∧
      code.argcount = (parameters commands).length ∧
      ∀ {σ : Type} (hook : Option (Tracer σ)) (vm : Vm) (s : σ) (request : Request) (a k : Nat)
        (f : Frame) (callers : List Frame), vm.Lives hook s request a k →
        (vm.stepped hook s request a).phase.frames = f :: callers → f.code = code →
        ∃ callee args, vm.lastCall? hook s request a = some (callee, args) ∧
          args.length = code.argcount ∧
          ∀ (j : Nat) x, (parameters commands)[j]? = some x →
          (∀ n < k,
            ¬(vm.stepped hook s request (a + n)).Uses (callers.length + 1) code .storeFast x) →
          (vm.stepped hook s request (a + k)).Uses (callers.length + 1) code .loadFast x →
          ∃ v, args[j]? = some v ∧ (vm.stepped hook s request (a + k)).Reads hook v := by
  obtain ⟨bound, slots, henc⟩ := Draft.exists_encodes hbuild
  have hdistinct : code.Distinct := by
    obtain ⟨hvarnames, hnames, hconsts⟩ := Draft.distinct_performAll name commands
    rw [henc.code_eq]
    exact ⟨hvarnames, hnames, hconsts⟩
  obtain ⟨hparameters, hargcount⟩ := henc.parameters
  refine ⟨hdistinct, ⟨bound, slots, henc, ?_⟩, hparameters, hargcount, ?_⟩
  · rintro before c after e rfl he
    exact ⟨_, henc.carries he, henc.lists hsize he⟩
  · rintro σ hook vm s request a k f callers hlives hframes rfl
    obtain ⟨callee, args, g, callers', hcall, hframes', hbegins⟩ := Vm.exists_begins hlives.entered
    rw [hframes] at hframes'
    cases hframes'
    refine ⟨callee, args, hcall, hbegins.argcount, fun j x hx hstore hload => ?_⟩
    have hj : j < args.length := by
      rw [hbegins.argcount, hargcount]
      exact (List.getElem?_eq_some_iff.mp hx).1
    have hvarname : f.code.varnames[j]? = some x := by
      rw [← hparameters, List.getElem?_take] at hx
      split at hx
      · rwa [Array.getElem?_toList] at hx
      · cases hx
    have hv : args[j]? = some args[j] := List.getElem?_eq_getElem hj
    exact ⟨_, hv,
      hlives.reads_argument hframes hbegins hv hdistinct.varnames hvarname hstore hload⟩

/-- A machine with a function of two parameters that stores the second one to a local before it
loads it again. -/
def pickingVm : Vm where
  store.functions :=
    #[⟨"pick", 2, #["a", "b", "c"], #[], #[.int 1, .bool true],
      #[3, 1, 4, 2, 2, 1, 2, 0, 3, 1, 19, 0], [⟨0, 1⟩]⟩]

/-- An integer and a boolean are two constants, and a constant that is asked for again is the same
one; the second parameter still reads as the second argument after another variable was stored
to. -/
theorem tables_faithful_picking :
    let commands := [.param "a", .param "b", .constant (.int 1), .loadFast "b", .storeFast "c",
      .loadConst (.bool true), .loadConst (.int 1), .localSlot "b", .loadFast "b", .ret]
    let code := pickingVm.store.code ⟨0⟩
    let request := Request.call (.function ⟨0⟩) [.int 10, .int 20]
    assemble "pick" commands = .ok code ∧ code.Addressable ∧ code.Distinct ∧
      code.varnames.toList.take 2 = ["a", "b"] ∧ pickingVm.Lives none () request 0 4 ∧
      (pickingVm.stepped none () request 4).Uses 1 code .loadFast "b" ∧
      (pickingVm.stepped none () request 4).Reads none (.int 20) := by
  intro commands code request
  have hbuild : assemble "pick" commands = .ok code := by with_unfolding_all rfl
  have hsize : code.Addressable := ⟨by decide, by decide, by decide⟩
  have hlives : pickingVm.Lives none () request 0 4 := by
    refine ⟨by decide, ?_⟩
    decide +kernel
  have hstores : ∀ n < 4, ∀ i ∈ (pickingVm.stepped none () request (0 + n)).instruction? 1,
      i.opcode = .storeFast → code.varnames[i.arg.toNat]? ≠ some "b" := by decide +kernel
  have hstore : ∀ n < 4,
      ¬(pickingVm.stepped none () request (0 + n)).Uses 1 code .storeFast "b" := by
    rintro n hn ⟨i, hi, hop, hx⟩
    exact hstores n hn i hi hop hx
  have hload : (pickingVm.stepped none () request (0 + 4)).Uses 1 code .loadFast "b" :=
    ⟨⟨8, .loadFast, 1⟩, by decide +kernel, rfl, rfl⟩
  obtain ⟨hdistinct, -, hparameters, -, hreads⟩ := tables_faithful hbuild hsize
  obtain ⟨callee, args, hcall, -, hreads⟩ :=
    hreads none pickingVm () request 0 4 _ [] hlives rfl rfl
  cases hcall
  obtain ⟨v, hv, hread⟩ := hreads 1 "b" rfl hstore hload
  obtain rfl : Value.int 20 = v := Option.some.inj hv
  exact ⟨hbuild, hsize, hdistinct, hparameters, hlives, hload, hread⟩

end Wordcode
