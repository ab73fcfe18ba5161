import Wordcode.Programs
import Wordcode.Proofs.Layout
import Wordcode.Proofs.Routes

/-! Loading: the code of a program whose arguments take one byte each, and the virtual machine once
the module of a program was run. -/

namespace Wordcode

theorem layout_of_small {bound : Array Nat} {items : List Item}
    (h : widen bound (items.map fun item => ⟨item, 1⟩) = items.map fun item => ⟨item, 1⟩) :
    layout bound items = items.map fun item => ⟨item, 1⟩ := by
  rw [layout, settle, if_pos h]

/-- A draft without faults whose arguments take one byte each is laid out with one instruction for
each item. -/
theorem assemble_of_small {name : String} {commands : List Command} {d : Draft} {bound : List Nat}
    (hd : ({ name } : Draft).performAll commands = d) (hfault : d.fault = none)
    (hbound : boundItems 0 d.labels.toList = .ok bound)
    (hstray : strayLabel? bound.length d.items.toList = none)
    (hsmall : widen bound.toArray (d.items.toList.map fun item => ⟨item, 1⟩) =
      d.items.toList.map fun item => ⟨item, 1⟩) :
    assemble name commands =
      .ok (d.toCode bound.toArray (d.items.toList.map fun item => ⟨item, 1⟩)) := by
  rw [assemble, hd, Draft.build]
  simp only [hfault, hbound, hstray, layout_of_small hsmall]

/-- The code of a module that binds the function `id` to `name`. -/
def bindingCode (name : String) (id : FunctionId) : Code where
  name := "<module>"
  argcount := 0
  varnames := #[]
  names := #[name]
  consts := #[.function id, .none]
  bytes := #[2, 0, 6, 0, 2, 1, 19, 0]
  lines := [⟨0, 1⟩]

theorem moduleCode_eq (name : String) (id : FunctionId) :
    Program.moduleCode name id = .ok (bindingCode name id) := by
  have hassemble : Program.moduleCode name id = .ok (Draft.toCode _ #[] _) :=
    assemble_of_small rfl (by with_unfolding_all rfl) (by with_unfolding_all rfl)
      (by with_unfolding_all rfl) (by with_unfolding_all rfl)
  exact hassemble.trans (by with_unfolding_all rfl)

namespace Machine

theorem goes_bindingCode (vm : Vm) (name : String) (id : FunctionId) :
    Goes ⟨vm, (), .running ((bindingCode name id).frame 0 #[] [] 0) []⟩
      [.loadConst, .storeGlobal, .loadConst, .returnValue]
      ⟨(vm.define name (.function id)).popFrame, (), .giving (.ok .none) []⟩ :=
  (goes_loadConst ⟨rfl, rfl⟩ rfl).trans ((goes_storeGlobal ⟨rfl, rfl⟩ rfl).trans
    ((goes_loadConst ⟨rfl, rfl⟩ rfl).trans (goes_returnValue ⟨rfl, rfl⟩)))

end Machine

/-- The machine `vm'` is `vm` with a function `id` that has the given code and is bound to `name`,
but for what was counted and logged and for other functions. -/
structure Vm.Loaded (vm vm' : Vm) (name : String) (id : FunctionId) (code : Code) : Prop where
  code : vm'.store.code id = code
  globals : vm'.globals = vm.globals.insert name (.function id)
  console : vm'.console = vm.console
  depth : vm'.depth = vm.depth
  limit : vm'.limit = vm.limit

theorem Vm.Loaded.global?_self {vm vm' : Vm} {name : String} {id : FunctionId} {code : Code}
    (h : vm.Loaded vm' name id code) : vm'.global? name = some (.function id) := by
  rw [global?, h.globals, Std.HashMap.getElem?_insert_self]

theorem Vm.Loaded.global?_of_ne {vm vm' : Vm} {name other : String} {id : FunctionId} {code : Code}
    (h : vm.Loaded vm' name id code) (hne : name ≠ other) :
    vm'.global? other = vm.global? other := by
  rw [global?, h.globals, Std.HashMap.getElem?_insert, if_neg (by simpa using hne), global?]

theorem Vm.Loaded.start_eq {vm vm' : Vm} {name : String} {id : FunctionId} {code : Code}
    (h : vm.Loaded vm' name id code) (args : List Value) :
    ∀ request ∈ [Request.call (.function id) args, .callGlobal name args],
      vm'.start none () request = Machine.enter none vm' () code args [] := by
  have hlookup : vm'.lookup name = .ok (.function id) := by
    rw [lookup, h.global?_self]
  simp [start, hlookup, Machine.invoke, h.code]

/-- A program is loaded wherever there is room for the frame of its module. -/
theorem Vm.exists_loadProgram {vm : Vm} {p : Program} {code : Code} (hcode : p.code = .ok code)
    (hroom : vm.depth < vm.limit) :
    ∃ fuel id vm', vm.loadProgram p fuel = some (.ok (.function id), vm') ∧
      vm.Loaded vm' p.name id code := by
  let id : FunctionId := ⟨vm.store.functions.size⟩
  let body : FunctionId := ⟨vm.store.functions.size + 1⟩
  let functions := (vm.store.functions.push code).push (bindingCode p.name id)
  let vm₁ : Vm := { vm with store := { vm.store with functions := functions } }
  have hadd : vm.addProgram p = .ok (⟨body, id⟩, vm₁) := by
    simp only [addProgram, hcode, moduleCode_eq, addFunction, Store.addFunction, Array.size_push]
    rfl
  have hbody : vm₁.store.code body = bindingCode p.name id := by
    have hlast : functions[vm.store.functions.size + 1]? = some (bindingCode p.name id) := by
      rw [← Array.size_push code]
      exact Array.getElem?_push_size
    rw [Store.code, Array.getD_eq_getD_getElem?]
    exact congrArg (Option.getD · default) hlast
  have hfunction : vm₁.store.code id = code := by
    have hfirst : functions[vm.store.functions.size]? = some code := by
      rw [Array.getElem?_push_lt (by simp), Array.getElem_push_eq]
    rw [Store.code, Array.getD_eq_getD_getElem?]
    exact congrArg (Option.getD · default) hfirst
  have hstart : vm₁.start none () (.run body) =
      ⟨vm₁.pushFrame "<module>", (),
        .running ((bindingCode p.name id).frame 0 #[] [] 0) []⟩ := by
    rw [start, hbody]
    exact Machine.enter_eq_running rfl hroom
  have hgoes := Machine.goes_bindingCode (vm₁.pushFrame "<module>") p.name id
  rw [← hstart] at hgoes
  obtain ⟨fuel, r, hr, hending, hvm, -⟩ := execute_of_goes hgoes
  have hglobals : r.vm.globals = vm.globals.insert p.name (.function id) :=
    congrArg Vm.globals hvm
  have hloaded : vm.Loaded r.vm p.name id code :=
    { code := (congrArg (fun w => w.store.code id) hvm).trans hfunction
      globals := hglobals
      console := (congrArg Vm.console hvm :)
      depth := (congrArg Vm.depth hvm :)
      limit := (congrArg Vm.limit hvm :) }
  refine ⟨fuel, id, r.vm, ?_, hloaded⟩
  simp only [loadProgram, hadd, load, hr, hending, Option.map_some, Ending.value,
    hloaded.global?_self]

theorem Vm.loadProgram_of_le {vm : Vm} {p : Program} {n fuel : Nat}
    {answer : Except ProgramError Value × Vm} (h : vm.loadProgram p n = some answer)
    (hle : n ≤ fuel) : vm.loadProgram p fuel = some answer := by
  unfold loadProgram at h ⊢
  split at h
  · exact h
  · obtain ⟨r, hr, hanswer⟩ := Option.map_eq_some_iff.mp h
    rw [load, execute_of_le hr hle, Option.map_some, hanswer]

end Wordcode
