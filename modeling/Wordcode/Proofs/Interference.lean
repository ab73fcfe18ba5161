import Mathlib.Data.Set.Defs
import Wordcode.Proofs.Confinement

/-! Globals that do not interfere.  If all names in the functions that an operation can come by are
in a set, the operation goes alike on machines that differ only in globals named otherwise, and
changes none of these.  Both machines are compared with the one that has no such globals at all. -/

namespace Wordcode

open Trace

/-! ### What is said of machines -/

/-- The values that an operation can come by on the machine `vm`, if of its globals it reads only
those named in `N`. -/
inductive Vm.ReachesWithin (N : Set String) (vm : Vm) (request : Request) : Value → Prop
  | root {v : Value} : v ∈ request.values → ReachesWithin N vm request v
  | global {name : String} {v : Value} : name ∈ N → vm.globals[name]? = some v →
      ReachesWithin N vm request v
  | entry {id : MapId} {k : MapKey} {v : Value} : ReachesWithin N vm request (.map id) →
      (vm.store.map id)[k]? = some v → ReachesWithin N vm request v
  | const {id : FunctionId} {v : Value} : ReachesWithin N vm request (.function id) →
      v ∈ (vm.store.code id).consts → ReachesWithin N vm request v

/-- All names that an operation can come by are in `N`: those in the functions, and that of the
global that it calls, if it calls one. -/
structure Vm.NamesWithin (N : Set String) (vm : Vm) (request : Request) : Prop where
  names : ∀ id, vm.ReachesWithin N request (.function id) → ∀ name ∈ (vm.store.code id).names,
    name ∈ N
  called : ∀ name args, request = .callGlobal name args → name ∈ N

namespace Vm

/-- The machine `vm` with other globals. -/
def withGlobals (vm : Vm) (globals : Std.HashMap String Value) : Vm := { vm with globals }

/-- The machines have the same globals named in `N`, and are otherwise the same but for globals. -/
structure AgreeOn (N : Set String) (vm vm' : Vm) : Prop where
  rest : vm'.withGlobals vm.globals = vm
  globals : ∀ name ∈ N, vm'.globals[name]? = vm.globals[name]?

/-- The machines have the same globals not named in `N`. -/
def AgreeOff (N : Set String) (vm vm' : Vm) : Prop :=
  ∀ name ∉ N, vm'.globals[name]? = vm.globals[name]?

end Vm

/-! ### Instructions -/

/-- An instruction that neither reads nor writes a global does not see the globals. -/
theorem execute_withGlobals {op : Opcode} (hload : op ≠ .loadGlobal) (hstore : op ≠ .storeGlobal)
    (arg : UInt32) (vm : Vm) (f : Frame) (globals : Std.HashMap String Value) :
    execute op arg (vm.withGlobals globals) f =
      (execute op arg vm f).map (·.withGlobals globals) id :=
  execute_changed (φ := (·.withGlobals globals)) (fun _ => rfl) (fun _ _ => rfl)
    (fun h => absurd h hload) (fun h => absurd h hstore) arg vm f

/-- Such an instruction changes no globals either. -/
theorem globals_execute {op : Opcode} (hload : op ≠ .loadGlobal) (hstore : op ≠ .storeGlobal)
    (arg : UInt32) (vm : Vm) (f : Frame) : (execute op arg vm f).vm.globals = vm.globals := by
  have hself : execute op arg vm f = (execute op arg vm f).map (·.withGlobals vm.globals) id :=
    execute_withGlobals hload hstore arg vm f vm.globals
  rw [hself]
  cases execute op arg vm f <;> rfl

theorem Builtin.call_withGlobals (b : Builtin) (args : List Value) (vm : Vm)
    (globals : Std.HashMap String Value) :
    b.call args (vm.withGlobals globals) =
      ((b.call args vm).1, (b.call args vm).2.withGlobals globals) := by
  unfold call
  split <;> rfl

/-! ### Machines with more globals -/

/-- The machine `vm` is the machine `core` but for globals not named in `N`, of which it has those
of the machine `outer`. -/
structure Vm.Covers (N : Set String) (outer core vm : Vm) : Prop where
  on : core.AgreeOn N vm
  off : outer.AgreeOff N vm

section Covers

variable {N : Set String} {outer core vm : Vm}

namespace Vm.Covers

variable (h : Vm.Covers N outer core vm)
include h

theorem eq_withGlobals : vm = core.withGlobals vm.globals :=
  (congrArg (·.withGlobals vm.globals) h.on.rest :)

/-- Changes of a machine that leave its globals alone are made on both alike. -/
theorem map {φ : Vm → Vm}
    (hφ : ∀ vm globals, φ (vm.withGlobals globals) = (φ vm).withGlobals globals) :
    Covers N outer (φ core) (φ vm) := by
  have hglobals : ∀ vm : Vm, (φ vm).globals = vm.globals :=
    fun vm => (congrArg Vm.globals (hφ vm vm.globals) :)
  refine ⟨⟨?_, ?_⟩, ?_⟩
  · rw [hglobals, ← hφ, h.on.rest]
  · rw [hglobals, hglobals]
    exact h.on.globals
  · unfold AgreeOff
    rw [hglobals]
    exact h.off

theorem lookup {name : String} (hname : name ∈ N) : vm.lookup name = core.lookup name := by
  unfold Vm.lookup global?
  rw [h.on.globals name hname]

theorem define {name : String} (hname : name ∈ N) (v : Value) :
    Covers N outer (core.define name v) (vm.define name v) := by
  refine ⟨⟨?_, ?_⟩, ?_⟩
  · exact congrArg (·.withGlobals (core.globals.insert name v)) h.on.rest
  · intro other hother
    show (vm.globals.insert name v)[other]? = (core.globals.insert name v)[other]?
    rw [Std.HashMap.getElem?_insert, Std.HashMap.getElem?_insert, h.on.globals other hother]
  · intro other hother
    show (vm.globals.insert name v)[other]? = _
    have hne : name ≠ other := fun heq => hother (heq ▸ hname)
    rw [Std.HashMap.getElem?_insert, if_neg (by simpa using hne)]
    exact h.off other hother

end Vm.Covers

/-- An instruction does the same on both machines, if the names in the code are in `N`. -/
theorem execute_covers (h : Vm.Covers N outer core vm) {f : Frame}
    (hnames : ∀ name ∈ f.code.names, name ∈ N) (op : Opcode) (arg : UInt32) :
    ∃ vm', Vm.Covers N outer (execute op arg core f).vm vm' ∧
      execute op arg vm f = (execute op arg core f).map (fun _ => vm') id := by
  by_cases hload : op = .loadGlobal
  · subst hload
    have hgive : ∀ result, (Effect.give core f f.stack result).vm = core ∧
        Effect.give vm f f.stack result =
          (Effect.give core f f.stack result).map (fun _ => vm) id := by
      intro result
      cases result <;> exact ⟨rfl, rfl⟩
    refine ⟨vm, ?_⟩
    simp only [execute]
    split
    · rename_i name hname
      obtain ⟨hvm, heffect⟩ := hgive (core.lookup name)
      rw [hvm, h.lookup (hnames name (Array.mem_of_getElem? hname))]
      exact ⟨h, heffect⟩
    · exact ⟨h, rfl⟩
  by_cases hstore : op = .storeGlobal
  · subst hstore
    simp only [execute]
    split
    · rename_i name hname
      split
      · exact ⟨_, h.define (hnames name (Array.mem_of_getElem? hname)) _, rfl⟩
      · exact ⟨vm, h, rfl⟩
    · exact ⟨vm, h, rfl⟩
  -- The other instructions see no globals.
  have hglobals := globals_execute hload hstore arg core f
  have heffect := execute_withGlobals hload hstore arg core f vm.globals
  rw [← h.eq_withGlobals] at heffect
  generalize execute op arg core f = effect at hglobals heffect ⊢
  refine ⟨effect.vm.withGlobals vm.globals, ⟨⟨rfl, ?_⟩, h.off⟩, ?_⟩
  · rw [hglobals]
    exact h.on.globals
  · rw [heffect]
    cases effect <;> rfl

theorem Builtin.call_covers (h : Vm.Covers N outer core vm) (b : Builtin) (args : List Value) :
    (b.call args vm).1 = (b.call args core).1 ∧
      Vm.Covers N outer (b.call args core).2 (b.call args vm).2 := by
  have hcall := b.call_withGlobals args core vm.globals
  rw [← h.eq_withGlobals] at hcall
  refine ⟨(congrArg Prod.fst hcall :), h.map (φ := fun vm => (b.call args vm).2) ?_⟩
  intro vm globals
  rw [call_withGlobals]

end Covers

/-! ### Steps -/

/-- The running machine `m` covers `core` as virtual machines do, and is otherwise the same. -/
structure Machine.Covers {σ : Type} (N : Set String) (outer : Vm) (core m : Machine σ) : Prop where
  vm : Vm.Covers N outer core.vm m.vm
  tracer : m.tracer = core.tracer
  phase : m.phase = core.phase

namespace Machine

variable {σ : Type} (hook : Option (Tracer σ)) {N : Set String} {outer core vm : Vm}
  (h : Vm.Covers N outer core vm) (s : σ)
include h

theorem store_of_covers : vm.store = core.store := (congrArg Vm.store h.on.rest :)

theorem depth_of_covers : vm.depth = core.depth := (congrArg Vm.depth h.on.rest :)

theorem limit_of_covers : vm.limit = core.limit := (congrArg Vm.limit h.on.rest :)

theorem notify_of_covers (tracer : Tracer σ) (f : Frame) (e : Trace.Event) :
    f.notify tracer s vm e = f.notify tracer s core e := by
  unfold Frame.notify
  rw [store_of_covers h, depth_of_covers h]

theorem observe_of_covers (f : Frame) : f.observe hook s vm = f.observe hook s core := by
  cases hook with
  | none => rfl
  | some tracer =>
    exact Frame.notifyInstruction_map (ψ := id) (fun _ _ _ => rfl) (store_of_covers h)
      (depth_of_covers h) s f

theorem covers_begin (f : Frame) (callers : List Frame) :
    Covers N outer (begin hook core s f callers) (begin hook vm s f callers) := by
  cases hook with
  | none => exact ⟨h, rfl, rfl⟩
  | some tracer =>
    unfold begin
    dsimp only
    rw [notify_of_covers h s tracer]
    split <;> exact ⟨h, rfl, rfl⟩

theorem covers_leave (f : Frame) (result : Except Fault Value) (callers : List Frame) :
    Covers N outer (leave hook core s f result callers) (leave hook vm s f result callers) := by
  have hpop : Vm.Covers N outer core.popFrame vm.popFrame := h.map fun _ _ => rfl
  cases hactive : f.active with
  | false =>
    rw [leave_of_inactive hactive, leave_of_inactive hactive]
    exact ⟨hpop, rfl, rfl⟩
  | true =>
    cases hook with
    | none =>
      rw [leave_none, leave_none]
      exact ⟨hpop, rfl, rfl⟩
    | some tracer =>
      rw [leave_of_active hactive, leave_of_active hactive]
      dsimp only
      rw [notify_of_covers h s tracer]
      split
      · exact ⟨h, rfl, rfl⟩
      · exact ⟨hpop, rfl, rfl⟩

theorem covers_enter (code : Code) (args : List Value) (callers : List Frame) :
    Covers N outer (enter hook core s code args callers) (enter hook vm s code args callers) := by
  have hdepth := depth_of_covers h
  have hlimit := limit_of_covers h
  by_cases hargs : args.length = code.argcount
  · rcases Nat.lt_or_ge core.depth core.limit with hroom | hfull
    · rw [enter_of_lt_limit hargs hroom, enter_of_lt_limit hargs (by omega)]
      have hpush : ∀ name, Vm.Covers N outer (core.pushFrame name) (vm.pushFrame name) :=
        fun name => h.map (φ := (·.pushFrame name)) fun _ _ => rfl
      exact covers_begin hook (hpush _) s _ callers
    · rw [enter_of_limit_le hargs hfull, enter_of_limit_le hargs (by omega), hlimit]
      exact ⟨h.map (φ := (·.record _)) fun _ _ => rfl, rfl, rfl⟩
  · rw [enter_of_length_ne hargs, enter_of_length_ne hargs]
    exact ⟨h, rfl, rfl⟩

theorem covers_invoke (callee : Value) (args : List Value) (callers : List Frame) :
    Covers N outer (invoke hook core s callee args callers)
      (invoke hook vm s callee args callers) := by
  cases callee with
  | function id =>
    rw [invoke, invoke, store_of_covers h]
    exact covers_enter hook h s _ args callers
  | builtin b =>
    obtain ⟨hresult, hvm⟩ := b.call_covers h args
    exact ⟨hvm, rfl, congrArg (Phase.giving · callers) hresult⟩
  | _ => exact ⟨h, rfl, rfl⟩

theorem covers_executeNext {f : Frame} (hnames : ∀ name ∈ f.code.names, name ∈ N)
    (callers : List Frame) :
    Covers N outer (executeNext hook core s f callers) (executeNext hook vm s f callers) := by
  cases hfetch : f.fetch with
  | error e =>
    rw [executeNext_of_error hfetch, executeNext_of_error hfetch]
    exact covers_leave hook h s f _ callers
  | ok fetched =>
    obtain ⟨op, low⟩ := fetched
    have hcount : Vm.Covers N outer core.count vm.count := h.map fun _ _ => rfl
    rw [executeNext_of_ok hfetch, executeNext_of_ok hfetch, observe_of_covers hook hcount]
    dsimp only
    have hcode : ((f.advance op (foldArg f.pending low)).observe hook s core.count).frame.code =
        f.code := (congrArg Frame.code (Frame.untraced_observe hook s core.count _) :)
    split
    · exact ⟨hcount, rfl, rfl⟩
    · rw [← hcode] at hnames
      obtain ⟨vm', hvm', heffect⟩ := execute_covers hcount hnames op (foldArg f.pending low)
      rw [heffect]
      generalize execute op _ core.count _ = effect at hvm' ⊢
      cases effect with
      | next | jump => exact ⟨hvm', rfl, rfl⟩
      | call _ g callee args => exact covers_invoke hook hvm' _ callee args _
      | leave _ g result => exact covers_leave hook hvm' _ g result callers

omit h in
/-- A step keeps to the globals named in `N`, if the names in the code of the frames are. -/
theorem Covers.step {m₀ m : Machine σ} (h : Covers N outer m₀ m)
    (hnames : ∀ f callers, m₀.phase = .running f callers → ∀ name ∈ f.code.names, name ∈ N) :
    Covers N outer (m₀.step hook) (m.step hook) := by
  obtain ⟨core, s, phase⟩ := m₀
  obtain ⟨vm, s', phase'⟩ := m
  obtain ⟨hvm, htracer, hphase⟩ := h
  obtain rfl : s' = s := htracer
  obtain rfl : phase' = phase := hphase
  cases phase' with
  | running f callers => exact covers_executeNext hook hvm s' (hnames f callers rfl) callers
  | giving result callers =>
    cases callers with
    | nil => cases result <;> exact ⟨hvm, rfl, rfl⟩
    | cons f callers =>
      cases result with
      | ok v => exact ⟨hvm, rfl, rfl⟩
      | error e => exact covers_leave hook hvm s' f (.error e) callers
  | unwinding frames =>
    cases frames with
    | nil => exact ⟨hvm, rfl, rfl⟩
    | cons f callers => exact ⟨hvm.map (φ := Vm.popFrame) fun _ _ => rfl, rfl, rfl⟩

end Machine

/-! ### Runs -/

open scoped Classical in
/-- The machine with only those of its globals that are named in `N`. -/
noncomputable def Vm.keeping (vm : Vm) (N : Set String) : Vm :=
  vm.withGlobals (vm.globals.filter fun name _ => name ∈ N)

section Runs

variable {N : Set String} {vm vm' : Vm} {request : Request}

theorem Vm.getElem?_keeping {name : String} (hname : name ∈ N) :
    (vm.keeping N).globals[name]? = vm.globals[name]? := by
  show (vm.globals.filter _)[name]? = _
  rw [Std.HashMap.getElem?_filter']
  cases vm.globals[name]? with
  | none => rfl
  | some v => simp [hname]

theorem Vm.mem_of_getElem?_keeping {name : String} {v : Value}
    (h : (vm.keeping N).globals[name]? = some v) : name ∈ N := by
  classical
  have hget : (vm.globals.filter _)[name]? = some v := h
  rw [Std.HashMap.getElem?_filter', Option.filter_eq_some_iff] at hget
  exact of_decide_eq_true hget.2

/-- What can be come by with only the globals named in `N` can be come by within `N`. -/
theorem Vm.Reaches.within {v : Value} (h : (vm.keeping N).Reaches request v) :
    vm.ReachesWithin N request v := by
  induction h with
  | root hv => exact .root hv
  | global hv =>
    have hname := mem_of_getElem?_keeping hv
    exact .global hname ((getElem?_keeping hname).symm.trans hv)
  | entry _ hv ih => exact .entry ih hv
  | const _ hv ih => exact .const ih hv

theorem Vm.AgreeOn.refl (N : Set String) (vm : Vm) : vm.AgreeOn N vm := ⟨rfl, fun _ _ => rfl⟩

theorem Vm.AgreeOn.covers (h : vm.AgreeOn N vm') : Vm.Covers N vm' (vm.keeping N) vm' := by
  refine ⟨⟨?_, fun name hname => ?_⟩, fun _ _ => rfl⟩
  · exact congrArg (·.withGlobals (vm.keeping N).globals) h.rest
  · rw [h.globals name hname, getElem?_keeping hname]

/-- Machines that cover the same one agree on the globals named in `N`. -/
theorem Vm.Covers.agreeOn {outer outer' core : Vm} (h : Vm.Covers N outer core vm)
    (h' : Vm.Covers N outer' core vm') : vm.AgreeOn N vm' := by
  refine ⟨?_, fun name hname => ?_⟩
  · rw [h'.eq_withGlobals]
    exact h.eq_withGlobals.symm
  · rw [h'.on.globals name hname, h.on.globals name hname]

variable {σ : Type} (hook : Option (Tracer σ)) (s : σ)

theorem Vm.covers_setUp {outer core : Vm} (h : Vm.Covers N outer core vm) :
    Vm.Covers N outer (core.setUp hook) (vm.setUp hook) := by
  cases hook with
  | none => exact h
  | some tracer => exact h.map (φ := installHook) fun _ _ => rfl

theorem Vm.covers_tearDown {outer core : Vm} (h : Vm.Covers N outer core vm) :
    Vm.Covers N outer (core.tearDown hook) (vm.tearDown hook) := by
  cases hook with
  | none => exact h
  | some tracer => exact h.map (φ := releaseHook) fun _ _ => rfl

theorem Vm.covers_start {outer core : Vm} (h : Vm.Covers N outer core vm)
    (hcalled : ∀ name args, request = .callGlobal name args → name ∈ N) :
    Machine.Covers N outer (core.start hook s request) (vm.start hook s request) := by
  cases request with
  | run id =>
    rw [start, start, Machine.store_of_covers h]
    exact Machine.covers_enter hook h s _ [] []
  | call callee args => exact Machine.covers_invoke hook h s callee args []
  | callGlobal name args =>
    rw [start, start, h.lookup (hcalled name args rfl)]
    split
    · exact Machine.covers_invoke hook h s _ args []
    · exact ⟨h, rfl, rfl⟩

/-- All along an operation a machine covers the one with only the globals named in `N`, by induction
on the steps: the functions that are executed are those that the operation can come by. -/
theorem Vm.covers_stepped (hnames : vm.NamesWithin N request) (hagree : vm.AgreeOn N vm')
    (n : Nat) :
    Machine.Covers N vm' ((vm.keeping N).stepped hook s request n)
      (vm'.stepped hook s request n) := by
  induction n with
  | zero => exact covers_start hook s (covers_setUp hook hagree.covers) hnames.called
  | succ n ih =>
    rw [stepped_succ, stepped_succ]
    refine ih.step hook fun f callers hphase => ?_
    -- The machine that is covered has no other globals, so what it can come by is within `N`.
    have hwithin := ((vm.keeping N).within_stepped hook s request n).phase
    rw [hphase] at hwithin
    obtain ⟨id, hid, hcode⟩ := (List.forall_mem_cons.mp hwithin).1.function
    rw [← hcode]
    exact hnames.names id hid.within

/-- Unrelated globals do not interfere.  If all names that an operation can come by are in `N`, then
on machines that are the same but for globals not named in `N` it goes alike, under any hook: after
every number of steps the frames, the state of the hook and all else of the machines but those
globals are the same, and so is the ending; and on neither machine is a global not named in `N`
ever changed. -/
theorem unrelated_globals_do_not_interfere (hnames : vm.NamesWithin N request)
    (hagree : vm.AgreeOn N vm') :
    (∀ fuel, Option.Rel
      (fun r r' => r'.ending = r.ending ∧ r'.tracer = r.tracer ∧ r.vm.AgreeOn N r'.vm ∧
        vm.AgreeOff N r.vm ∧ vm'.AgreeOff N r'.vm)
      (vm.operate hook s request fuel) (vm'.operate hook s request fuel)) ∧
    ∀ n,
      let m := vm.stepped hook s request n
      let m' := vm'.stepped hook s request n
      m'.phase = m.phase ∧ m'.tracer = m.tracer ∧ m.vm.AgreeOn N m'.vm ∧
        vm.AgreeOff N m.vm ∧ vm'.AgreeOff N m'.vm := by
  have hcovers := Vm.covers_stepped hook s hnames (.refl N vm)
  have hcovers' := Vm.covers_stepped hook s hnames hagree
  refine ⟨fun fuel => ?_, fun n => ?_⟩
  · have h := hcovers fuel
    have h' := hcovers' fuel
    have hphase := h'.phase.trans h.phase.symm
    rw [Vm.operate_eq, Vm.operate_eq]
    dsimp only
    rw [hphase]
    cases (vm.stepped hook s request fuel).phase.ending? with
    | none => exact .none
    | some ending =>
      have hdown := Vm.covers_tearDown hook h.vm
      have hdown' := Vm.covers_tearDown hook h'.vm
      exact .some ⟨rfl, h'.tracer.trans h.tracer.symm, hdown.agreeOn hdown', hdown.off, hdown'.off⟩
  · have h := hcovers n
    have h' := hcovers' n
    exact ⟨h'.phase.trans h.phase.symm, h'.tracer.trans h.tracer.symm, h.vm.agreeOn h'.vm,
      h.vm.off, h'.vm.off⟩

end Runs

/-- A machine with a function 0 that sets the global `x` and a function 1 that reads the global
`y`. -/
def sharedVm : Vm where
  store.functions :=
    #[⟨"setter", 0, #[], #["x"], #[.int 7], #[2, 0, 6, 0, 2, 0, 19, 0], [⟨0, 1⟩]⟩,
      ⟨"getter", 0, #[], #["y"], #[], #[5, 0, 19, 0], [⟨0, 1⟩]⟩]

/-- The setter goes alike whether there is a global `y` or not, and does not touch it. -/
theorem unrelated_globals_do_not_interfere_setter :
    let vm := sharedVm.define "y" (.function ⟨1⟩)
    sharedVm.NamesWithin {"x"} (.run ⟨0⟩) ∧ sharedVm.AgreeOn {"x"} vm ∧
      ∃ r r', sharedVm.operate none () (.run ⟨0⟩) 4 = some r ∧
        vm.operate none () (.run ⟨0⟩) 4 = some r' ∧ r.ending = .finished (.ok (.int 7)) ∧
        r'.ending = r.ending ∧ r.vm.AgreeOn {"x"} r'.vm ∧
        r'.vm.globals["y"]? = some (.function ⟨1⟩) := by
  intro vm
  have hreaches : ∀ v, sharedVm.ReachesWithin {"x"} (.run ⟨0⟩) v →
      v = .function ⟨0⟩ ∨ v = .int 7 := by
    intro v h
    induction h with
    | root hv => exact Or.inl (List.mem_singleton.mp hv)
    | global _ hv => exact absurd hv (by simp [sharedVm])
    | entry _ _ ih => exact absurd ih (by simp)
    | const _ hv ih =>
      rcases ih with h | h
      · cases h
        exact Or.inr (by simpa [sharedVm, Store.code] using hv)
      · cases h
  have hnames : sharedVm.NamesWithin {"x"} (.run ⟨0⟩) := by
    refine ⟨fun id hid name hname => ?_, fun name args h => by cases h⟩
    rcases hreaches _ hid with h | h
    · cases h
      show name = "x"
      simpa [sharedVm, Store.code] using hname
    · cases h
  have hagree : sharedVm.AgreeOn {"x"} vm := by
    refine ⟨rfl, fun name hname => ?_⟩
    obtain rfl : name = "x" := hname
    show (sharedVm.globals.insert "y" _)["x"]? = _
    rw [Std.HashMap.getElem?_insert, if_neg (by decide)]
  have hruns := (unrelated_globals_do_not_interfere none () hnames hagree).1 4
  obtain ⟨r, hr⟩ : ∃ r, sharedVm.operate none () (.run ⟨0⟩) 4 = some r := ⟨_, rfl⟩
  have hending : r.ending = .finished (.ok (.int 7)) := by
    cases hr
    rfl
  rw [hr] at hruns
  generalize vm.operate none () (.run ⟨0⟩) 4 = result at hruns ⊢
  obtain ⟨hsame, -, hon, -, hoff⟩ | _ := hruns
  have hy : vm.globals["y"]? = some (.function ⟨1⟩) := Std.HashMap.getElem?_insert_self
  have hother : "y" ∉ ({"x"} : Set String) := by
    intro h
    have h : "y" = "x" := h
    exact absurd h (by decide)
  exact ⟨hnames, hagree, r, _, hr, rfl, hending, hsame, hon, (hoff "y" hother).trans hy⟩

end Wordcode
