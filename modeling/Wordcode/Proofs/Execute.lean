import Wordcode.Machine.Step

/-! What an instruction depends on: of a machine its globals, its store and its console, of a frame
its operands, its locals and the tables of its code.  On machines and frames that agree in these it
has the same effect, and all else it leaves alone. -/

namespace Wordcode

/-! ### Data and operands -/

/-- What instructions read and change of a machine. -/
structure Vm.Data where
  globals : Std.HashMap String Value
  store : Store
  console : Console

namespace Vm

def data (vm : Vm) : Data := ⟨vm.globals, vm.store, vm.console⟩

/-- The machine `vm` with other data. -/
def withData (vm : Vm) (d : Data) : Vm :=
  { vm with globals := d.globals, store := d.store, console := d.console }

end Vm

namespace Frame

/-- The frame `f` with other operands and locals. -/
def withOperands (f : Frame) (stack : List Value) (locals : Array (Option Value)) : Frame :=
  { f with stack, locals }

end Frame

/-- Two code objects with the same name and the same tables. -/
structure Code.SameTables (c c' : Code) : Prop where
  name : c'.name = c.name
  varnames : c'.varnames = c.varnames
  names : c'.names = c.names
  consts : c'.consts = c.consts

theorem Code.SameTables.refl (c : Code) : c.SameTables c := ⟨rfl, rfl, rfl, rfl⟩

/-- The fault `e` with the byte offset `offset`, if its text quotes one. -/
def Fault.at (offset : Nat) : Fault → Fault
  | .stackUnderflow function _ => .stackUnderflow function offset
  | .pastEnd function _ => .pastEnd function offset
  | .invalidOpcode byte _ => .invalidOpcode byte offset
  | e => e

namespace Effect

def vm : Effect → Vm
  | next vm _ | jump vm _ _ | call vm _ _ _ | leave vm _ _ => vm

def frame : Effect → Frame
  | next _ f | jump _ f _ | call _ f _ _ | leave _ f _ => f

/-- The effect `e` on another machine and another frame, where a jump goes to `target`. -/
def onto (vm' : Vm) (f' : Frame) (target : Nat) : Effect → Effect
  | next vm f => next (vm'.withData vm.data) (f'.withOperands f.stack f.locals)
  | jump vm f _ => jump (vm'.withData vm.data) (f'.withOperands f.stack f.locals) target
  | call vm f callee args =>
    call (vm'.withData vm.data) (f'.withOperands f.stack f.locals) callee args
  | leave vm f result =>
    leave (vm'.withData vm.data) (f'.withOperands f.stack f.locals)
      (result.mapError (Fault.at f'.lasti))

/-- The effect `e` with its machine and its frame changed. -/
def map (φ : Vm → Vm) (ψ : Frame → Frame) : Effect → Effect
  | next vm f => next (φ vm) (ψ f)
  | jump vm f target => jump (φ vm) (ψ f) target
  | call vm f callee args => call (φ vm) (ψ f) callee args
  | leave vm f result => leave (φ vm) (ψ f) result

end Effect

/-! ### Instructions -/

theorem Effect.onto_give (vm vm' : Vm) (f f' : Frame) (target : Nat) (rest : List Value)
    (result : Except Fault Value) :
    (give vm f rest result).onto vm' f' target =
      give (vm'.withData vm.data) (f'.withOperands f.stack f.locals) rest
        (result.mapError (Fault.at f'.lasti)) := by
  cases result <;> rfl

section Operators

variable (offset : Nat)

theorem Vm.mapError_lookup (vm : Vm) (name : String) :
    (vm.lookup name).mapError (Fault.at offset) = vm.lookup name := by
  unfold lookup
  split
  · rfl
  · split <;> rfl

namespace Value

theorem mapError_add (a b : Value) : (a.add b).mapError (Fault.at offset) = a.add b := by
  unfold add
  split
  · split <;> rfl
  · rfl
  · rfl

theorem mapError_subtract (a b : Value) :
    (a.subtract b).mapError (Fault.at offset) = a.subtract b := by
  unfold subtract
  split
  · split <;> rfl
  · rfl

theorem mapError_compare (op : Comparison) (a b : Value) :
    (((compare op a b).map Value.bool).mapError (Fault.at offset)) =
      (compare op a b).map Value.bool := by
  unfold compare
  split
  · rfl
  · rfl
  · split <;> rfl

theorem mapError_subscript (store : Store) (container key : Value) :
    (container.subscript store key).mapError (Fault.at offset) =
      container.subscript store key := by
  unfold subscript entry
  cases container with
  | map id =>
    cases key.key? with
    | none => rfl
    | some k => cases h : (store.map id)[k]? <;> simp only [h] <;> rfl
  | _ => rfl

theorem at_of_entry {container key : Value} {e : Fault}
    (h : container.entry key .noItemAssignment = .error e) : e.at offset = e := by
  unfold entry at h
  split at h
  · split at h <;> cases h
    rfl
  · cases h
    rfl

end Value

end Operators

/-- An instruction does the same on another machine with the same data and another frame with the
same operands, locals and tables.  The fault it may raise quotes the other frame's offset; the
argument of a jump is only its target. -/
theorem execute_onto {op : Opcode} {arg arg' : UInt32} (vm vm' : Vm) {f f' : Frame}
    (hcode : f.code.SameTables f'.code) (harg : arg' = arg ∨ op.isJump = true) :
    execute op arg' (vm'.withData vm.data) (f'.withOperands f.stack f.locals) =
      (execute op arg vm f).onto vm' f' arg'.toNat := by
  obtain ⟨⟨name, argcount, varnames, names, consts, bytes, lines⟩, locals, stack, pc, pending,
    lasti, lastLine, active, flags⟩ := f
  obtain ⟨⟨name', argcount', varnames', names', consts', bytes', lines'⟩, locals', stack', pc',
    pending', lasti', lastLine', active', flags'⟩ := f'
  obtain ⟨hname, hvarnames, hnames, hconsts⟩ := hcode
  dsimp only at hname hvarnames hnames hconsts
  subst hname hvarnames hnames hconsts
  dsimp only [Frame.withOperands]
  have hstore : (vm'.withData vm.data).store = vm.store := rfl
  have hsame : op.isJump = false → arg' = arg := fun hop =>
    harg.resolve_right (by rw [hop]; exact Bool.false_ne_true)
  cases op with
  | nop | extendedArg | buildMap | jumpAbsolute => rfl
  | popTop | returnValue => cases stack <;> rfl
  | getIter =>
    cases stack with
    | nil => rfl
    | cons v rest => cases v <;> rfl
  | popJumpIfFalse | popJumpIfTrue =>
    cases stack with
    | nil => rfl
    | cons v rest =>
      simp only [execute, hstore]
      split <;> rfl
  | forIter =>
    cases stack with
    | nil => rfl
    | cons v rest =>
      cases v with
      | range id =>
        simp only [execute, hstore]
        cases (vm.store.range id).pull <;> rfl
      | _ => rfl
  | binaryAdd =>
    rcases stack with _ | ⟨b, _ | ⟨a, rest⟩⟩
    · rfl
    · rfl
    · simp only [execute, Effect.onto_give, Value.mapError_add]
      rfl
  | binarySubtract =>
    rcases stack with _ | ⟨b, _ | ⟨a, rest⟩⟩
    · rfl
    · rfl
    · simp only [execute, Effect.onto_give, Value.mapError_subtract]
      rfl
  | binarySubscr =>
    rcases stack with _ | ⟨key, _ | ⟨container, rest⟩⟩
    · rfl
    · rfl
    · simp only [execute, hstore, Effect.onto_give, Value.mapError_subscript]
      rfl
  | storeSubscr =>
    rcases stack with _ | ⟨key, _ | ⟨container, _ | ⟨v, rest⟩⟩⟩
    · rfl
    · rfl
    · rfl
    · simp only [execute]
      cases h : container.entry key .noItemAssignment with
      | ok entry => rfl
      | error e =>
        show Effect.leave _ _ (.error e) = Effect.leave _ _ (.error (e.at lasti'))
        rw [Value.at_of_entry lasti' h]
        rfl
  | loadConst | raiseAssertion =>
    obtain rfl := hsame rfl
    simp only [execute]
    cases consts'[arg'.toNat]? <;> rfl
  | loadFast =>
    obtain rfl := hsame rfl
    simp only [execute]
    rcases locals[arg'.toNat]? with _ | _ | v <;> rfl
  | storeFast =>
    obtain rfl := hsame rfl
    cases stack with
    | nil => rfl
    | cons v rest =>
      simp only [execute]
      split <;> rfl
  | loadGlobal =>
    obtain rfl := hsame rfl
    simp only [execute]
    cases names'[arg'.toNat]? with
    | none => rfl
    | some name =>
      simp only [Effect.onto_give, Vm.mapError_lookup]
      rfl
  | storeGlobal =>
    obtain rfl := hsame rfl
    simp only [execute]
    cases names'[arg'.toNat]? with
    | none => rfl
    | some name => cases stack <;> rfl
  | compareOp =>
    obtain rfl := hsame rfl
    simp only [execute]
    cases Comparison.ofCode? arg' with
    | none => rfl
    | some comparison =>
      rcases stack with _ | ⟨b, _ | ⟨a, rest⟩⟩
      · rfl
      · rfl
      · simp only [Effect.onto_give, Value.mapError_compare]
        rfl
  | callFunction =>
    obtain rfl := hsame rfl
    simp only [execute]
    cases stack.drop arg'.toNat <;> rfl

/-- What an instruction leaves alone of its own machine and frame. -/
theorem execute_self (op : Opcode) (arg : UInt32) (vm : Vm) (f : Frame) :
    (execute op arg vm f).onto vm f arg.toNat = execute op arg vm f :=
  (execute_onto vm vm (.refl f.code) (Or.inl rfl)).symm

theorem vm_execute (op : Opcode) (arg : UInt32) (vm : Vm) (f : Frame) :
    (execute op arg vm f).vm = vm.withData (execute op arg vm f).vm.data := by
  have h := congrArg Effect.vm (execute_self op arg vm f)
  rw [← h]
  cases execute op arg vm f <;> rfl

theorem frame_execute (op : Opcode) (arg : UInt32) (vm : Vm) (f : Frame) :
    (execute op arg vm f).frame =
      f.withOperands (execute op arg vm f).frame.stack (execute op arg vm f).frame.locals := by
  have h := congrArg Effect.frame (execute_self op arg vm f)
  rw [← h]
  cases execute op arg vm f <;> rfl

/-! ### Changes that instructions do not see -/

/-- The change `φ` of a machine is one that instructions do not see. -/
def Vm.Unseen (φ : Vm → Vm) : Prop :=
  ∀ vm d, φ (vm.withData d) = (φ vm).withData d

/-- The change `ψ` of a frame is one that instructions do not see. -/
structure Frame.Unseen (ψ : Frame → Frame) : Prop where
  withOperands : ∀ (f : Frame) stack locals,
    ψ (f.withOperands stack locals) = (ψ f).withOperands stack locals
  tables : ∀ f : Frame, f.code.SameTables (ψ f).code
  lasti : ∀ f : Frame, (ψ f).lasti = f.lasti

theorem Vm.unseen_id : Vm.Unseen id := fun _ _ => rfl

theorem Frame.unseen_id : Frame.Unseen id :=
  ⟨fun _ _ _ => rfl, fun f => .refl f.code, fun _ => rfl⟩

theorem execute_map {φ : Vm → Vm} {ψ : Frame → Frame} (hφ : Vm.Unseen φ) (hψ : Frame.Unseen ψ)
    (op : Opcode) (arg : UInt32) (vm : Vm) (f : Frame) :
    execute op arg (φ vm) (ψ f) = (execute op arg vm f).map φ ψ := by
  have hvm : (φ vm).withData vm.data = φ vm := (hφ vm vm.data).symm
  have hf : (ψ f).withOperands f.stack f.locals = ψ f := (hψ.withOperands f f.stack f.locals).symm
  have honto : execute op arg ((φ vm).withData vm.data) ((ψ f).withOperands f.stack f.locals) =
      (execute op arg vm f).onto (φ vm) (ψ f) arg.toNat :=
    execute_onto vm (φ vm) (hψ.tables f) (Or.inl rfl)
  rw [hvm, hf] at honto
  calc execute op arg (φ vm) (ψ f)
      = (execute op arg vm f).onto (φ vm) (ψ f) arg.toNat := honto
    _ = ((execute op arg vm f).onto vm f arg.toNat).map φ ψ := by
        cases execute op arg vm f <;>
          simp only [Effect.onto, Effect.map, hφ vm, hψ.withOperands, hψ.lasti]
    _ = (execute op arg vm f).map φ ψ := by rw [execute_self]

theorem Effect.give_map (φ : Vm → Vm) (vm : Vm) (f : Frame) (rest : List Value)
    (result : Except Fault Value) :
    give (φ vm) f rest result = (give vm f rest result).map φ id := by
  cases result <;> rfl

/-- An instruction goes alike after a change of the machine that keeps the store, and the globals as
far as the instruction looks at them. -/
theorem execute_changed {φ : Vm → Vm} (hstore : ∀ vm, (φ vm).store = vm.store)
    (hupdate : ∀ (vm : Vm) store, φ { vm with store } = { φ vm with store }) {op : Opcode}
    (hlookup : op = .loadGlobal → ∀ vm name, (φ vm).lookup name = vm.lookup name)
    (hdefine : op = .storeGlobal → ∀ (vm : Vm) name v, φ (vm.define name v) = (φ vm).define name v)
    (arg : UInt32) (vm : Vm) (f : Frame) :
    execute op arg (φ vm) f = (execute op arg vm f).map φ id := by
  cases op with
  | nop | extendedArg | jumpAbsolute => rfl
  | buildMap =>
    simp only [execute, Vm.addMap, hstore]
    exact congrArg (Effect.next · _) (hupdate vm _).symm
  | popTop | loadConst | loadFast | getIter | callFunction | returnValue =>
    simp only [execute]
    split <;> rfl
  | raiseAssertion =>
    simp only [execute, hstore]
    split <;> rfl
  | storeFast =>
    simp only [execute]
    split
    · split <;> rfl
    · rfl
  | storeGlobal =>
    simp only [execute]
    split
    · split
      · exact congrArg (Effect.next · _) (hdefine rfl vm _ _).symm
      · rfl
    · rfl
  | storeSubscr =>
    simp only [execute, Vm.insert, hstore]
    split
    · split
      · exact congrArg (Effect.next · _) (hupdate vm _).symm
      · rfl
    · rfl
  | popJumpIfFalse | popJumpIfTrue =>
    simp only [execute, hstore]
    split
    · split <;> rfl
    · rfl
  | forIter =>
    simp only [execute, hstore]
    split
    · split
      · exact congrArg (Effect.next · _) (hupdate vm _).symm
      · rfl
    · rfl
    · rfl
  | loadGlobal =>
    simp only [execute, hlookup rfl]
    split
    · exact Effect.give_map φ vm f _ _
    · rfl
  | binaryAdd | binarySubtract | binarySubscr =>
    simp only [execute, hstore]
    split
    · exact Effect.give_map φ vm f _ _
    · rfl
  | compareOp =>
    simp only [execute]
    split
    · split
      · exact Effect.give_map φ vm f _ _
      · rfl
    · rfl

/-! ### Native functions -/

theorem Builtin.call_withData (b : Builtin) (args : List Value) (vm vm' : Vm) :
    b.call args (vm'.withData vm.data) =
      ((b.call args vm).1, vm'.withData (b.call args vm).2.data) := by
  cases b with
  | print => rfl
  | str => rcases args with _ | ⟨v, _ | ⟨w, rest⟩⟩ <;> rfl
  | len =>
    rcases args with _ | ⟨v, _ | ⟨w, rest⟩⟩
    · rfl
    · cases v <;> rfl
    · cases v <;> rfl
  | range =>
    rcases args with _ | ⟨v, _ | ⟨w, _ | ⟨x, rest⟩⟩⟩
    · rfl
    · cases v <;> rfl
    · cases v <;> cases w <;> rfl
    · cases v <;> cases w <;> rfl

theorem Builtin.call_map {φ : Vm → Vm} (hφ : Vm.Unseen φ) (b : Builtin) (args : List Value)
    (vm : Vm) : b.call args (φ vm) = ((b.call args vm).1, φ (b.call args vm).2) := by
  have hvm : (φ vm).withData vm.data = φ vm := (hφ vm vm.data).symm
  have hself := congrArg Prod.snd (b.call_withData args vm vm)
  have hother := b.call_withData args vm (φ vm)
  rw [hvm] at hother
  rw [hother, ← hφ vm]
  exact congrArg (fun w => (_, φ w)) hself.symm

end Wordcode
