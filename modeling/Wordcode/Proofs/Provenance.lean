import Wordcode.Proofs.Outcomes

/-! Where values come from.  What an instruction gets is held by the machine or by its frame
already, refers to no function and no map, or is a map that it makes; and a call passes on what it
is given.  So whatever set of values a machine keeps to before a step, it keeps to after it. -/

namespace Wordcode

open Trace

/-! ### Maps -/

namespace Store

variable (s : Store) {id other : MapId}

theorem map_eq_of_maps {s s' : Store} (h : s'.maps = s.maps) (id : MapId) :
    s'.map id = s.map id := by
  rw [map, h, map]

theorem map_of_size_le {s : Store} (h : s.maps.size ≤ id.index) : s.map id = ∅ := by
  rw [map, Array.getD_eq_getD_getElem?, Array.getElem?_eq_none h]
  rfl

theorem map_insert_self (h : id.index < s.maps.size) (k : MapKey) (v : Value) :
    (s.insert id k v).map id = (s.map id).insert k v := by
  simp only [map, insert, Array.getD_eq_getD_getElem?, Array.getElem?_modify,
    Array.getElem?_eq_getElem h]
  rfl

theorem map_insert_of_ne (h : other ≠ id) (k : MapKey) (v : Value) :
    (s.insert id k v).map other = s.map other := by
  have hindex : id.index ≠ other.index := fun heq => h (congrArg MapId.mk heq.symm)
  simp only [map, insert, Array.getD_eq_getD_getElem?, Array.getElem?_modify, if_neg hindex]

/-- A new map is empty, as is every map that is not in the store. -/
theorem map_addMap (id : MapId) : (s.addMap ∅).2.map id = s.map id := by
  simp only [map, addMap, Array.getD_eq_getD_getElem?, Array.getElem?_push]
  split
  · rename_i heq
    rw [heq, Array.getElem?_eq_none (Nat.le_refl _)]
    rfl
  · rfl

theorem entry_insert {s : Store} {k k' : MapKey} {v w : Value}
    (h : ((s.insert id k v).map other)[k']? = some w) : w = v ∨ (s.map other)[k']? = some w := by
  by_cases hother : other = id
  · subst hother
    rcases Nat.lt_or_ge other.index s.maps.size with hlt | hge
    · rw [map_insert_self s hlt, Std.HashMap.getElem?_insert] at h
      split at h
      · exact Or.inl (Option.some.inj h).symm
      · exact Or.inr h
    · have hsize : (s.insert other k v).maps.size ≤ other.index :=
        Nat.le_trans (Nat.le_of_eq Array.size_modify) hge
      rw [map_of_size_le hsize, Std.HashMap.getElem?_empty] at h
      cases h
  · rw [map_insert_of_ne s hother] at h
    exact Or.inr h

end Store

/-- An instruction may add a map, and takes none away. -/
theorem StoreMove.size_maps_le {op : Opcode} {vm : Vm} {f : Frame} {store : Store}
    (h : StoreMove op vm f store) : vm.store.maps.size ≤ store.maps.size := by
  cases h with
  | kept | pulled => exact Nat.le_refl _
  | inserted => exact Nat.le_of_eq Array.size_modify.symm
  | added => exact Nat.le_trans (Nat.le_succ _) (Nat.le_of_eq (Array.size_push _).symm)

/-! ### Native functions -/

namespace Builtin

variable (b : Builtin) (args : List Value) (vm : Vm)

theorem isPlain_of_call {v : Value} (h : (b.call args vm).1 = .ok v) : v.IsPlain := by
  unfold call at h
  split at h <;> cases h <;> trivial

theorem globals_call : (b.call args vm).2.globals = vm.globals := by
  unfold call
  split <;> rfl

theorem maps_call : (b.call args vm).2.store.maps = vm.store.maps := by
  unfold call
  split <;> rfl

end Builtin

/-! ### Instructions -/

/-- The globals of a machine, and the entries of its maps as far as they satisfy `P` themselves,
satisfy `P`. -/
structure Vm.HoldsOnly (P : Value → Prop) (vm : Vm) : Prop where
  globals : ∀ (name : String) v, vm.globals[name]? = some v → P v
  entries : ∀ id, P (.map id) → ∀ (k : MapKey) v, (vm.store.map id)[k]? = some v → P v

/-- The operands, the locals and the constants of a frame satisfy `P`. -/
structure Frame.HoldsOnly (P : Value → Prop) (f : Frame) : Prop where
  stack : ∀ v ∈ f.stack, P v
  locals : ∀ v, some v ∈ f.locals → P v
  consts : ∀ v ∈ f.code.consts, P v

/-- An effect on a machine and a frame that hold only what satisfies `P`, whose call or result
satisfies `P` too. -/
def Effect.HoldsOnly (P : Value → Prop) : Effect → Prop
  | .next vm f | .jump vm f _ => vm.HoldsOnly P ∧ f.HoldsOnly P
  | .call vm f callee args => vm.HoldsOnly P ∧ f.HoldsOnly P ∧ P callee ∧ ∀ v ∈ args, P v
  | .leave vm _ result => vm.HoldsOnly P ∧ ∀ v, result = .ok v → P v

section HoldsOnly

variable {P : Value → Prop}

namespace Vm.HoldsOnly

variable {vm vm' : Vm} (h : vm.HoldsOnly P)
include h

/-- Only the globals and the maps of a machine matter. -/
theorem congr (hglobals : vm'.globals = vm.globals) (hmaps : vm'.store.maps = vm.store.maps) :
    vm'.HoldsOnly P where
  globals := hglobals ▸ h.globals
  entries := by
    unfold Store.map
    rw [hmaps]
    exact h.entries

theorem define {v : Value} (hv : P v) (name : String) : (vm.define name v).HoldsOnly P where
  globals other w hw := by
    have hget : (vm.globals.insert name v)[other]? = some w := hw
    rw [Std.HashMap.getElem?_insert] at hget
    split at hget
    · cases hget
      exact hv
    · exact h.globals other w hget
  entries := h.entries

theorem insert {v : Value} (hv : P v) (id : MapId) (k : MapKey) :
    (vm.insert id k v).HoldsOnly P where
  globals := h.globals
  entries other hother k' w hw := by
    rcases Store.entry_insert hw with rfl | hw
    · exact hv
    · exact h.entries other hother k' w hw

theorem addMap : (vm.addMap ∅).2.HoldsOnly P where
  globals := h.globals
  entries id hid k v hv := by
    have hold : (vm.store.map id)[k]? = some v := (vm.store.map_addMap id) ▸ hv
    exact h.entries id hid k v hold

end Vm.HoldsOnly

namespace Frame.HoldsOnly

variable {f : Frame} (h : f.HoldsOnly P)
include h

theorem withStack {stack : List Value} (hstack : ∀ v ∈ stack, P v) :
    ({ f with stack } : Frame).HoldsOnly P :=
  ⟨hstack, h.locals, h.consts⟩

theorem push {v : Value} (hv : P v) : (f.push v).HoldsOnly P :=
  h.withStack (List.forall_mem_cons.mpr ⟨hv, h.stack⟩)

end Frame.HoldsOnly

/-- The locals of a frame that is entered hold nothing but its arguments. -/
theorem Frame.mem_args_of_mem_enter {code : Code} {args : List Value} {v : Value}
    (hv : some v ∈ (Frame.enter code args).locals) : v ∈ args := by
  rw [enter, List.mem_toArray, List.mem_append, List.mem_map] at hv
  rcases hv with ⟨w, hw, hsome⟩ | hnone
  · rw [← Option.some.inj hsome]
    exact hw
  · cases List.eq_of_mem_replicate hnone

/-- An instruction keeps to what satisfies `P`, if all that refers to no function and no map does,
and a map that it makes. -/
theorem execute_holdsOnly {vm : Vm} {f : Frame} (hvm : vm.HoldsOnly P) (hf : f.HoldsOnly P)
    (hplain : ∀ v : Value, v.IsPlain → P v) {op : Opcode}
    (hmade : op = .buildMap → P (.map ⟨vm.store.maps.size⟩)) (arg : UInt32) :
    (execute op arg vm f).HoldsOnly P := by
  have hdraws : ∀ {v}, f.Draws vm v → P v := by
    intro v hv
    cases hv with
    | plain hv => exact hplain v hv
    | const hconst => exact hf.consts v hconst
    | slot hlocal => exact hf.locals v hlocal
    | global hglobal => exact hvm.globals _ v hglobal
    | entry hmap hentry => exact hvm.entries _ (hf.stack _ hmap) _ v hentry
  have hkept : ∀ {stack}, (∀ v ∈ stack, v ∈ f.stack) → ({ f with stack } : Frame).HoldsOnly P :=
    fun hstack => hf.withStack fun v hv => hf.stack v (hstack v hv)
  have htop : ∀ {v rest}, f.stack = v :: rest → P v ∧ ∀ w ∈ rest, P w := by
    intro v rest hstack
    exact List.forall_mem_cons.mp (hstack ▸ hf.stack)
  have hexecution := execution_execute op arg vm f
  generalize execute op arg vm f = e at hexecution ⊢
  cases hexecution with
  | failed e => exact ⟨hvm, fun _ h => by cases h⟩
  | dropped hstack => exact ⟨hvm, hkept hstack⟩
  | drew hv hrest => exact ⟨hvm, (hkept hrest).push (hdraws hv)⟩
  | stored hop hstack =>
    obtain ⟨hv, hrest⟩ := htop hstack
    refine ⟨hvm, hrest, fun w hw => ?_, hf.consts⟩
    rcases Array.mem_or_eq_of_mem_setIfInBounds hw with hold | heq
    · exact hf.locals w hold
    · cases heq
      exact hv
  | defined hop name hstack =>
    obtain ⟨hv, hrest⟩ := htop hstack
    exact ⟨hvm.define hv name, hf.withStack hrest⟩
  | inserted hop hstack =>
    obtain ⟨-, hrest⟩ := htop hstack
    obtain ⟨-, hrest⟩ := List.forall_mem_cons.mp hrest
    obtain ⟨hv, hrest⟩ := List.forall_mem_cons.mp hrest
    exact ⟨hvm.insert hv _ _, hf.withStack hrest⟩
  | added hop => exact ⟨hvm.addMap, hf.push (hmade hop)⟩
  | pulled => exact ⟨hvm.congr rfl rfl, hf.push (hplain _ trivial)⟩
  | jumped hop hstack => exact ⟨hvm, hkept hstack⟩
  | called hop hdrop =>
    have hrest : ∀ v ∈ f.stack.drop arg.toNat, P v :=
      fun v hv => hf.stack v (List.mem_of_mem_drop hv)
    rw [hdrop] at hrest
    obtain ⟨hcallee, hrest⟩ := List.forall_mem_cons.mp hrest
    refine ⟨hvm, hf.withStack hrest, hcallee, fun v hv => ?_⟩
    exact hf.stack v (List.mem_of_mem_take (List.mem_reverse.mp hv))
  | returned hstack =>
    refine ⟨hvm, fun w hw => ?_⟩
    cases hw
    exact (htop hstack).1

end HoldsOnly

/-! ### Maps of a running machine -/

section Maps

variable {σ : Type} {hook : Option (Tracer σ)}

theorem Vm.data_setUp {vm : Vm} : (vm.setUp hook).data = vm.data := by cases hook <;> rfl

theorem Vm.maps_start {vm : Vm} {s : σ} {request : Request} :
    (vm.start hook s request).vm.store.maps = vm.store.maps := by
  obtain ⟨callee, args, -, h⟩ | ⟨hsame, -⟩ := Machine.invocation_start hook vm s request
  · show (vm.start hook s request).vm.data.store.maps = vm.store.maps
    generalize (vm.start hook s request).vm.data = data,
      (vm.start hook s request).phase = phase at h
    cases h with
    | @answered b => exact b.maps_call args vm
    | _ => rfl
  · rw [hsame]

theorem Machine.size_maps_le_step (hook : Option (Tracer σ)) (m : Machine σ) :
    m.vm.store.maps.size ≤ (m.step hook).vm.store.maps.size := by
  refine store_step (P := fun store => m.vm.store.maps.size ≤ store.maps.size) ?_ ?_
    fun _ => Nat.le_refl _
  · intro b args vm h
    rwa [b.maps_call]
  · intro e he
    obtain ⟨f, callers, op, low, g, -, -, -, rfl⟩ := exists_execute he
    exact (storeMove_execute op _ m.vm.count g).size_maps_le

end Maps

/-! ### Machines -/

/-- Values and code that a running machine keeps to.  All values that refer to no function and no
map are among them, and the constants of the code. -/
structure Realm where
  values : Value → Prop
  codes : Code → Prop
  plain : ∀ v, v.IsPlain → values v
  consts : ∀ code, codes code → ∀ v ∈ code.consts, values v

section Realm

variable (R : Realm)

/-- A machine that holds only values of the realm, among them only functions whose code is in it. -/
structure Vm.KeepsTo (vm : Vm) : Prop where
  holdsOnly : vm.HoldsOnly R.values
  functions : ∀ id, R.values (.function id) → R.codes (vm.store.code id)

/-- A frame that executes code of the realm and holds only values of it. -/
structure Frame.KeepsTo (f : Frame) : Prop where
  code : R.codes f.code
  stack : ∀ v ∈ f.stack, R.values v
  locals : ∀ v, some v ∈ f.locals → R.values v

/-- A phase whose frames, and the value that they are given, are of the realm.  Frames that are left
because the hook has given up execute nothing. -/
def Phase.KeepsTo : Phase → Prop
  | running f callers => ∀ g ∈ f :: callers, g.KeepsTo R
  | giving result callers =>
    (∀ g ∈ callers, g.KeepsTo R) ∧ ∀ v, result = .ok v → R.values v
  | unwinding _ => True

structure Machine.KeepsTo {σ : Type} (m : Machine σ) : Prop where
  vm : m.vm.KeepsTo R
  phase : m.phase.KeepsTo R

variable {R}

/-- Only the globals, the maps and the functions of a machine matter. -/
theorem Vm.KeepsTo.congr {vm vm' : Vm} (h : vm.KeepsTo R) (hglobals : vm'.globals = vm.globals)
    (hmaps : vm'.store.maps = vm.store.maps)
    (hfunctions : vm'.store.functions = vm.store.functions) : vm'.KeepsTo R where
  holdsOnly := h.holdsOnly.congr hglobals hmaps
  functions := by
    unfold Store.code
    rw [hfunctions]
    exact h.functions

theorem Vm.KeepsTo.of_data {vm vm' : Vm} (h : vm.KeepsTo R) (hdata : vm'.data = vm.data) :
    vm'.KeepsTo R := by
  have hstore : vm'.store = vm.store := (congrArg Vm.Data.store hdata :)
  exact h.congr (congrArg Vm.Data.globals hdata :) (congrArg Store.maps hstore)
    (congrArg Store.functions hstore)

namespace Frame.KeepsTo

variable {f g : Frame}

theorem holdsOnly (h : f.KeepsTo R) : f.HoldsOnly R.values :=
  ⟨h.stack, h.locals, R.consts f.code h.code⟩

theorem of_holdsOnly (h : f.KeepsTo R) (hg : g.HoldsOnly R.values) (hcode : g.code = f.code) :
    g.KeepsTo R :=
  ⟨hcode ▸ h.code, hg.stack, hg.locals⟩

/-- What belongs to the hook has no part in it. -/
theorem of_untraced (h : f.KeepsTo R) (hg : g.untraced = f.untraced) : g.KeepsTo R := by
  obtain ⟨hcode, -, -, hstack, hlocals⟩ := Frame.of_untraced_eq hg
  exact ⟨hcode ▸ h.code, hstack ▸ h.stack, hlocals ▸ h.locals⟩

theorem push (h : f.KeepsTo R) {v : Value} (hv : R.values v) : (f.push v).KeepsTo R :=
  ⟨h.code, List.forall_mem_cons.mpr ⟨hv, h.stack⟩, h.locals⟩

theorem of_begins {args : List Value} (hcode : R.codes f.code) (hargs : ∀ v ∈ args, R.values v)
    (h : f.Begins args) : f.KeepsTo R := by
  have hstack : f.stack = [] := (congrArg Frame.stack h.untraced :)
  have hlocals : f.locals = (Frame.enter f.code args).locals := h.locals_eq
  refine ⟨hcode, ?_, ?_⟩
  · rw [hstack]
    exact List.forall_mem_nil _
  · rw [hlocals]
    exact fun v hv => hargs v (mem_args_of_mem_enter hv)

end Frame.KeepsTo

namespace Machine

variable {σ : Type} {hook : Option (Tracer σ)} {vm vm' : Vm} {callers : List Frame}
  (hcallers : ∀ f ∈ callers, f.KeepsTo R)
include hcallers

theorem Invocation.keepsTo {callee : Value} {args : List Value} {data : Vm.Data} {phase : Phase}
    (h : Invocation vm callee args callers data phase) (hdata : vm'.data = data)
    (hvm : vm.KeepsTo R) (hcallee : R.values callee) (hargs : ∀ v ∈ args, R.values v) :
    vm'.KeepsTo R ∧ phase.KeepsTo R := by
  cases h with
  | entered hcalls hbegins =>
    obtain ⟨id, rfl, hcode, -⟩ := hcalls
    have hg := Frame.KeepsTo.of_begins (hcode ▸ hvm.functions id hcallee) hargs hbegins
    exact ⟨hvm.of_data hdata, List.forall_mem_cons.mpr ⟨hg, hcallers⟩⟩
  | @answered b =>
    have hanswer := hvm.congr (b.globals_call args vm) (b.maps_call args vm)
      (b.functions_call args vm)
    exact ⟨hanswer.of_data hdata, hcallers, fun v hv => R.plain v (b.isPlain_of_call args vm hv)⟩
  | refused e => exact ⟨hvm.of_data hdata, hcallers, fun _ h => by cases h⟩
  | gaveUp => exact ⟨hvm.of_data hdata, trivial⟩

theorem keepsTo_leave (hvm : vm.KeepsTo R) (s : σ) (f : Frame) {result : Except Fault Value}
    (hresult : ∀ v, result = .ok v → R.values v) :
    (leave hook vm s f result callers).KeepsTo R := by
  obtain ⟨s', h⟩ | ⟨s', f', h⟩ := leave_cases hook vm s f result callers
  · rw [h]
    exact ⟨hvm.of_data rfl, hcallers, hresult⟩
  · rw [h]
    exact ⟨hvm, trivial⟩

/-- What an instruction of a frame leads to, if its effect holds only values of the realm. -/
theorem keepsTo_proceed (s : σ) {f : Frame} (hf : f.KeepsTo R) {e : Effect}
    (he : e.HoldsOnly R.values)
    (hfunctions : ∀ id, R.values (.function id) → R.codes (e.vm.store.code id))
    (hcode : e.frame.code = f.code) : (proceed hook s callers e).KeepsTo R := by
  cases e with
  | next vm g =>
    have hg := hf.of_holdsOnly he.2 hcode
    exact ⟨⟨he.1, hfunctions⟩, List.forall_mem_cons.mpr ⟨hg, hcallers⟩⟩
  | jump vm g target =>
    have hg := hf.of_holdsOnly he.2 hcode
    have hjumped : ({ g with pc := target * 2 } : Frame).KeepsTo R := ⟨hg.code, hg.stack, hg.locals⟩
    exact ⟨⟨he.1, hfunctions⟩, List.forall_mem_cons.mpr ⟨hjumped, hcallers⟩⟩
  | call vm g callee args =>
    obtain ⟨hvm, hg, hcallee, hargs⟩ := he
    have hcallers' := List.forall_mem_cons.mpr ⟨hf.of_holdsOnly hg hcode, hcallers⟩
    obtain ⟨hvm', hphase⟩ := (invocation_invoke hook vm s callee args (g :: callers)).keepsTo
      hcallers' rfl ⟨hvm, hfunctions⟩ hcallee hargs
    exact ⟨hvm', hphase⟩
  | leave vm g result => exact keepsTo_leave hcallers ⟨he.1, hfunctions⟩ s g he.2

end Machine

section Runs

variable {σ : Type} {hook : Option (Tracer σ)}

/-- A step keeps to a realm, if a map that it makes is of the realm. -/
theorem Machine.KeepsTo.step {m : Machine σ} (h : m.KeepsTo R)
    (hmade : ∀ arg f, m.performing? hook = some (.buildMap, arg, f) →
      R.values (.map ⟨m.vm.store.maps.size⟩)) : (m.step hook).KeepsTo R := by
  obtain ⟨hvm, hphase⟩ := h
  cases hperforming : m.performing? hook with
  | none =>
    obtain ⟨hdata, hidle⟩ := idle_step hperforming
    refine ⟨hvm.of_data hdata, ?_⟩
    generalize (m.step hook).phase = phase' at hidle ⊢
    generalize m.phase = phase at hphase hidle
    cases hidle with
    | ended => exact hphase
    | resumed =>
      obtain ⟨hf, hcallers⟩ := List.forall_mem_cons.mp hphase.1
      exact List.forall_mem_cons.mpr ⟨hf.push (hphase.2 _ rfl), hcallers⟩
    | failed => exact ⟨(List.forall_mem_cons.mp hphase).2, fun _ h => by cases h⟩
    | passedOn => exact ⟨(List.forall_mem_cons.mp hphase.1).2, fun _ h => by cases h⟩
    | unwound => trivial
  | some performing =>
    obtain ⟨op, arg, g⟩ := performing
    obtain ⟨f, callers, low, s', hrunning, hfetch, harg, hg, hstep⟩ :=
      step_of_performing? hperforming
    rw [hrunning] at hphase
    obtain ⟨hf, hcallers⟩ := List.forall_mem_cons.mp hphase
    have hadvanced : (f.advance op arg).KeepsTo R := ⟨hf.code, hf.stack, hf.locals⟩
    have hg := hadvanced.of_untraced hg
    have hcount : m.vm.count.KeepsTo R := hvm.of_data rfl
    rw [hstep]
    refine keepsTo_proceed hcallers s' hg ?_ ?_ ?_
    · refine execute_holdsOnly hcount.holdsOnly hg.holdsOnly R.plain ?_ arg
      rintro rfl
      exact hmade arg g hperforming
    · have hstore := (storeMove_execute op arg m.vm.count g).functions
      unfold Store.code
      rw [hstore]
      exact hcount.functions
    · rw [frame_execute]
      rfl

theorem Vm.keepsTo_start {vm : Vm} (hvm : vm.KeepsTo R) (s : σ) {request : Request}
    (hrequest : ∀ callee args, vm.call? request = some (callee, args) →
      R.values callee ∧ ∀ v ∈ args, R.values v) : (vm.start hook s request).KeepsTo R := by
  obtain ⟨callee, args, hcall, h⟩ | ⟨hsame, e, hphase⟩ :=
    Machine.invocation_start hook vm s request
  · obtain ⟨hcallee, hargs⟩ := hrequest callee args hcall
    obtain ⟨hvm', hphase⟩ := h.keepsTo (List.forall_mem_nil _) rfl hvm hcallee hargs
    exact ⟨hvm', hphase⟩
  · refine ⟨hvm.of_data (congrArg Vm.data hsame), ?_⟩
    rw [hphase]
    exact ⟨List.forall_mem_nil _, fun _ h => by cases h⟩

end Runs

end Realm

end Wordcode
