import Wordcode.Proofs.Provenance
import Wordcode.Proofs.Symbolic

/-! Reachability: the values that an operation can come by.  It begins with the values of its
request and the globals; from there instructions get only at the entries of maps, at constants of
functions, and at what they make themselves, and they make no functions.  So the symbolic machine
executes only functions that its operation can come by. -/

namespace Wordcode

/-- The values that a request names. -/
def Request.values : Request → List Value
  | .run id => [.function id]
  | .call callee args => callee :: args
  | .callGlobal _ args => args

/-- The call that an operation comes to has a callee and arguments that satisfy `P`, if the values
of its request do, and what the machine holds. -/
theorem Vm.HoldsOnly.of_call? {P : Value → Prop} {vm : Vm} {request : Request} {callee : Value}
    {args : List Value} (h : vm.HoldsOnly P) (hplain : ∀ v : Value, v.IsPlain → P v)
    (hrequest : ∀ v ∈ request.values, P v) (hcall : vm.call? request = some (callee, args)) :
    P callee ∧ ∀ v ∈ args, P v := by
  cases request with
  | run id =>
    cases hcall
    exact ⟨hrequest _ List.mem_cons_self, List.forall_mem_nil _⟩
  | call callee args =>
    cases hcall
    exact List.forall_mem_cons.mp hrequest
  | callGlobal name args =>
    obtain ⟨callee, hlookup, heq⟩ := Option.map_eq_some_iff.mp hcall
    cases heq
    refine ⟨?_, hrequest⟩
    cases hok : vm.lookup name with
    | error e =>
      rw [hok] at hlookup
      cases hlookup
    | ok v =>
      rw [hok] at hlookup
      cases hlookup
      exact (global_or_isPlain_of_lookup hok).elim (h.globals name _) (hplain _)

/-- The values that an operation can come by on the machine `vm`. -/
inductive Vm.Reaches (vm : Vm) (request : Request) : Value → Prop
  | root {v : Value} : v ∈ request.values → Reaches vm request v
  | global {name : String} {v : Value} : vm.globals[name]? = some v → Reaches vm request v
  | entry {id : MapId} {k : MapKey} {v : Value} : Reaches vm request (.map id) →
      (vm.store.map id)[k]? = some v → Reaches vm request v
  | const {id : FunctionId} {v : Value} : Reaches vm request (.function id) →
      v ∈ (vm.store.code id).consts → Reaches vm request v

/-- The values that an operation that began on the machine `past` may hold later: functions and
maps that it could come by then, the maps that were made since, and what refers to neither. -/
def Vm.Holds (past : Vm) (request : Request) : Value → Prop
  | .function id => past.Reaches request (.function id)
  | .map id => past.Reaches request (.map id) ∨ past.store.maps.size ≤ id.index
  | _ => True

variable {past : Vm} {request : Request}

theorem Vm.Reaches.holds {v : Value} (h : past.Reaches request v) : past.Holds request v := by
  cases v with
  | function id => exact h
  | map id => exact Or.inl h
  | _ => trivial

theorem Vm.holds_of_isPlain {v : Value} (h : v.IsPlain) : past.Holds request v := by
  cases v with
  | function | map => exact h.elim
  | _ => trivial

/-! ### Confined machines -/

/-- A machine whose globals and maps hold only what an operation begun on `past` may hold. -/
structure Vm.Confined (past : Vm) (request : Request) (vm : Vm) : Prop where
  globals : ∀ (name : String) v, vm.globals[name]? = some v → past.Holds request v
  entries : ∀ id, past.Holds request (.map id) → ∀ (k : MapKey) v, (vm.store.map id)[k]? = some v →
    past.Holds request v
  maps : past.store.maps.size ≤ vm.store.maps.size
  functions : vm.store.functions = past.store.functions

/-- A frame that holds only what an operation begun on `past` may hold. -/
structure Frame.Confined (past : Vm) (request : Request) (f : Frame) : Prop where
  stack : ∀ v ∈ f.stack, past.Holds request v
  locals : ∀ v, some v ∈ f.locals → past.Holds request v
  consts : ∀ v ∈ f.code.consts, past.Holds request v

theorem Vm.confined_self (past : Vm) (request : Request) : past.Confined request past where
  globals _ _ h := (Reaches.global h).holds
  entries id hid k v h := by
    rcases hid with hid | hid
    · exact (hid.entry h).holds
    · rw [Store.map_of_size_le hid, Std.HashMap.getElem?_empty] at h
      cases h
  maps := Nat.le_refl _
  functions := rfl

namespace Vm.Confined

variable {vm : Vm} (h : past.Confined request vm)
include h

theorem holdsOnly : vm.HoldsOnly (past.Holds request) := ⟨h.globals, h.entries⟩

/-- A machine that came from a confined one is confined if it holds only what it may. -/
theorem of_holdsOnly {vm' : Vm} (hvm' : vm'.HoldsOnly (past.Holds request))
    (hmaps : vm.store.maps.size ≤ vm'.store.maps.size)
    (hfunctions : vm'.store.functions = vm.store.functions) : past.Confined request vm' :=
  ⟨hvm'.globals, hvm'.entries, Nat.le_trans h.maps hmaps, hfunctions.trans h.functions⟩

/-- Only the globals, the maps and the functions of a machine matter. -/
theorem congr (vm' : Vm) (hglobals : vm'.globals = vm.globals)
    (hmaps : vm'.store.maps = vm.store.maps)
    (hfunctions : vm'.store.functions = vm.store.functions) : past.Confined request vm' :=
  h.of_holdsOnly (h.holdsOnly.congr hglobals hmaps) (Nat.le_of_eq (hmaps ▸ rfl)) hfunctions

theorem holds_of_lookup {name : String} {v : Value} (hv : vm.lookup name = .ok v) :
    past.Holds request v :=
  (global_or_isPlain_of_lookup hv).elim (h.globals name v) holds_of_isPlain

end Vm.Confined

/-! ### Instructions -/

/-- An effect on a confined machine and a confined frame, whose call or result is confined too. -/
def Effect.Confined (past : Vm) (request : Request) : Effect → Prop
  | .next vm f | .jump vm f _ => past.Confined request vm ∧ f.Confined past request
  | .call vm f callee args =>
    past.Confined request vm ∧ f.Confined past request ∧
      past.Holds request callee ∧ ∀ v ∈ args, past.Holds request v
  | .leave vm _ result =>
    past.Confined request vm ∧ ∀ v, result = .ok v → past.Holds request v

theorem Frame.HoldsOnly.confined {f : Frame} (h : f.HoldsOnly (past.Holds request)) :
    f.Confined past request :=
  ⟨h.stack, h.locals, h.consts⟩

section Execute

variable {vm : Vm} (hvm : past.Confined request vm)
include hvm

theorem Builtin.call_confined (b : Builtin) (args : List Value) :
    past.Confined request (b.call args vm).2 ∧
      ∀ v, (b.call args vm).1 = .ok v → past.Holds request v :=
  ⟨hvm.congr _ (b.globals_call args vm) (b.maps_call args vm) (b.functions_call args vm),
    fun _ hv => Vm.holds_of_isPlain (b.isPlain_of_call args vm hv)⟩

theorem Effect.HoldsOnly.confined {e : Effect} (h : e.HoldsOnly (past.Holds request))
    (hmaps : vm.store.maps.size ≤ e.vm.store.maps.size)
    (hfunctions : e.vm.store.functions = vm.store.functions) : e.Confined past request := by
  cases e with
  | next | jump => exact ⟨hvm.of_holdsOnly h.1 hmaps hfunctions, h.2.confined⟩
  | call => exact ⟨hvm.of_holdsOnly h.1 hmaps hfunctions, h.2.1.confined, h.2.2⟩
  | leave => exact ⟨hvm.of_holdsOnly h.1 hmaps hfunctions, h.2⟩

/-- An instruction brings in nothing but what the machine and the frame hold, and what refers to no
function and no map, and maps that it makes. -/
theorem execute_confined {f : Frame} (hf : f.Confined past request) (op : Opcode) (arg : UInt32) :
    (execute op arg vm f).Confined past request := by
  have hmove := storeMove_execute op arg vm f
  have hexecute : (execute op arg vm f).HoldsOnly (past.Holds request) :=
    execute_holdsOnly hvm.holdsOnly ⟨hf.stack, hf.locals, hf.consts⟩
      (fun _ => Vm.holds_of_isPlain) (fun _ => Or.inr hvm.maps) arg
  exact hexecute.confined hvm hmove.size_maps_le hmove.functions

end Execute

/-! ### The symbolic machine -/

namespace Symbolic

/-- An activation of a function that the operation can come by, which holds only what it may. -/
structure Activation.Confined (past : Vm) (request : Request) (a : Activation) : Prop where
  function : past.Reaches request (.function a.function)
  stack : ∀ v ∈ a.stack, past.Holds request v
  locals : ∀ v, some v ∈ a.locals → past.Holds request v

/-- A state that holds only what an operation begun on `past` may hold. -/
structure State.Confined (past : Vm) (request : Request) (s : State) : Prop where
  vm : past.Confined request s.vm
  activations : ∀ a ∈ s.phase.activations, a.Confined past request
  result : ∀ v callers, s.phase = .giving (.ok v) callers → past.Holds request v

section

variable {sources : Sources} {vm : Vm} {callers : List Activation}
  (hvm : past.Confined request vm) (hcallers : ∀ a ∈ callers, a.Confined past request)
include hvm hcallers

theorem confined_giving {result : Except Fault Value}
    (hresult : ∀ v, result = .ok v → past.Holds request v) :
    State.Confined past request ⟨vm, .giving result callers⟩ := by
  refine ⟨hvm, hcallers, ?_⟩
  rintro v _ ⟨⟩
  exact hresult v rfl

theorem confined_running {a : Activation} (ha : a.Confined past request) :
    State.Confined past request ⟨vm, .running a callers⟩ :=
  ⟨hvm, List.forall_mem_cons.mpr ⟨ha, hcallers⟩, fun _ _ h => by cases h⟩

theorem confined_enter {id : FunctionId} (hid : past.Reaches request (.function id))
    {args : List Value} (hargs : ∀ v ∈ args, past.Holds request v) :
    (enter sources vm id args callers).Confined past request := by
  have herror : ∀ (e : Fault) v, (Except.error e : Except Fault Value) = .ok v →
      past.Holds request v := fun _ _ h => by cases h
  unfold enter
  dsimp only
  split
  · exact confined_giving hvm hcallers (herror _)
  · split
    · exact confined_giving (hvm.congr (vm.record _) rfl rfl rfl) hcallers (herror _)
    · refine confined_running (hvm.congr (vm.pushFrame _) rfl rfl rfl) hcallers ⟨hid, ?_, ?_⟩
      · exact fun v hv => absurd hv List.not_mem_nil
      · exact fun v hv => hargs v (Frame.mem_args_of_mem_enter hv)

theorem confined_invoke {callee : Value} (hcallee : past.Holds request callee)
    {args : List Value} (hargs : ∀ v ∈ args, past.Holds request v) :
    (invoke sources vm callee args callers).Confined past request := by
  cases callee with
  | function id => exact confined_enter hvm hcallers hcallee hargs
  | builtin b =>
    obtain ⟨hvm', hresult⟩ := Builtin.call_confined hvm b args
    exact confined_giving hvm' hcallers hresult
  | _ => exact confined_giving hvm hcallers fun _ h => by cases h

omit hvm in
theorem confined_proceed {a : Activation} (ha : past.Reaches request (.function a.function))
    (item : Item) {e : Effect} (he : e.Confined past request) :
    (proceed sources a item callers e).Confined past request := by
  have hgoTo : ∀ (f : Frame) k, f.Confined past request → (a.goTo k f).Confined past request :=
    fun f k hf => ⟨ha, hf.stack, hf.locals⟩
  cases e with
  | next vm f | jump vm f target => exact confined_running he.1 hcallers (hgoTo f _ he.2)
  | call vm f callee args =>
    obtain ⟨hvm', hf, hcallee, hargs⟩ := he
    exact confined_invoke hvm' (List.forall_mem_cons.mpr ⟨hgoTo f _ hf, hcallers⟩) hcallee hargs
  | leave vm f result =>
    exact confined_giving (he.1.congr vm.popFrame rfl rfl rfl) hcallers he.2

end

theorem Activation.Confined.frame {sources : Sources}
    (hconsts : ∀ id, past.Reaches request (.function id) →
      (sources id).tables.consts = (past.store.code id).consts)
    {a : Activation} (ha : a.Confined past request) : (a.frame sources).Confined past request := by
  refine ⟨ha.stack, ha.locals, ?_⟩
  intro v hv
  have hmem : v ∈ (past.store.code a.function).consts := by
    rw [← hconsts a.function ha.function]
    exact hv
  exact (ha.function.const hmem).holds

/-- A step keeps to what the operation can come by, if the constants of the sources are those of the
functions. -/
theorem State.Confined.step {sources : Sources}
    (hconsts : ∀ id, past.Reaches request (.function id) →
      (sources id).tables.consts = (past.store.code id).consts)
    {s : State} (h : s.Confined past request) : (step sources s).Confined past request := by
  obtain ⟨vm, phase⟩ := s
  obtain ⟨hvm, hactivations, hresult⟩ := h
  have hpop : past.Confined request vm.popFrame := hvm.congr _ rfl rfl rfl
  cases phase with
  | running a callers =>
    obtain ⟨ha, hcallers⟩ := List.forall_mem_cons.mp hactivations
    show (executeItem sources vm a callers).Confined past request
    unfold executeItem
    dsimp only
    split
    · exact confined_giving hpop hcallers fun _ h => by cases h
    · exact confined_proceed hcallers ha.function _ (execute_confined hvm (ha.frame hconsts) _ _)
  | giving result callers =>
    cases callers with
    | nil => cases result <;> exact ⟨hvm, hactivations, hresult⟩
    | cons a callers =>
      obtain ⟨ha, hcallers⟩ := List.forall_mem_cons.mp hactivations
      cases result with
      | ok v =>
        have hstack := List.forall_mem_cons.mpr ⟨hresult v _ rfl, ha.stack⟩
        exact confined_running hvm hcallers ⟨ha.function, hstack, ha.locals⟩
      | error e => exact confined_giving hpop hcallers fun _ h => by cases h

theorem confined_start (sources : Sources) (past : Vm) (request : Request) :
    (start sources past request).Confined past request := by
  have hvm := past.confined_self request
  have hnone : ∀ a ∈ ([] : List Activation), a.Confined past request :=
    fun a ha => absurd ha List.not_mem_nil
  cases request with
  | run id =>
    exact confined_enter hvm hnone (.root List.mem_cons_self) fun v hv => absurd hv List.not_mem_nil
  | call callee args =>
    exact confined_invoke hvm hnone (Vm.Reaches.root List.mem_cons_self).holds
      fun v hv => (Vm.Reaches.root (List.mem_cons_of_mem callee hv)).holds
  | callGlobal name args =>
    rw [start]
    split
    · rename_i callee hcallee
      exact confined_invoke hvm hnone (hvm.holds_of_lookup hcallee)
        fun v hv => (Vm.Reaches.root hv).holds
    · exact confined_giving hvm hnone fun _ h => by cases h

end Symbolic

end Wordcode
