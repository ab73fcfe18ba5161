import Wordcode.Proofs.Execute

/-! What an instruction can do, kind by kind.  It drops operands or puts one on top of them, stores
a local or a global, writes an entry of a map, makes a map, pulls from an iterator, jumps, calls,
returns, or fails; nothing else of the machine or the frame changes. -/

namespace Wordcode

/-! ### Operators -/

/-- The value refers to no function and no map. -/
def Value.IsPlain : Value → Prop
  | .function _ | .map _ => False
  | _ => True

namespace Value

variable {a b v : Value}

theorem isPlain_of_add (h : a.add b = .ok v) : v.IsPlain := by
  unfold add at h
  split at h
  · split at h <;> cases h
    trivial
  · cases h
    trivial
  · cases h

theorem isPlain_of_subtract (h : a.subtract b = .ok v) : v.IsPlain := by
  unfold subtract at h
  split at h
  · split at h <;> cases h
    trivial
  · cases h

theorem isPlain_of_compare {op : Comparison} (h : (compare op a b).map Value.bool = .ok v) :
    v.IsPlain := by
  cases hcompare : compare op a b with
  | error e =>
    rw [hcompare] at h
    cases h
  | ok result =>
    rw [hcompare] at h
    cases h
    trivial

theorem entry_eq_ok {container key : Value} {refusal : Kind → Fault} {id : MapId} {k : MapKey}
    (h : container.entry key refusal = .ok (id, k)) : container = .map id ∧ key.key? = some k := by
  unfold entry at h
  split at h
  · split at h <;> cases h
    rename_i hkey
    exact ⟨rfl, hkey⟩
  · cases h

/-- What is read from a map is one of its entries. -/
theorem exists_entry_of_subscript {store : Store} {container key : Value}
    (h : container.subscript store key = .ok v) :
    ∃ id, container = .map id ∧ ∃ k : MapKey, (store.map id)[k]? = some v := by
  unfold subscript at h
  split at h
  · rename_i id k hentry
    split at h
    · rename_i w hw
      cases h
      exact ⟨id, (entry_eq_ok hentry).1, k, hw⟩
    · cases h
  · cases h

end Value

theorem Vm.global_or_isPlain_of_lookup {vm : Vm} {name : String} {v : Value}
    (h : vm.lookup name = .ok v) : vm.globals[name]? = some v ∨ v.IsPlain := by
  unfold lookup at h
  split at h
  · rename_i w hw
    cases h
    exact Or.inl hw
  · split at h <;> cases h
    exact Or.inr trivial

/-! ### Effects -/

/-- The values that an instruction can put on the operands of a frame: those that refer to no
function and no map, the constants and the locals of the frame, the globals, and the entries of the
maps among the operands. -/
inductive Frame.Draws (vm : Vm) (f : Frame) : Value → Prop
  | plain {v : Value} (hplain : v.IsPlain) : Draws vm f v
  | const {v : Value} (hconst : v ∈ f.code.consts) : Draws vm f v
  | slot {v : Value} (hlocal : some v ∈ f.locals) : Draws vm f v
  | global {name : String} {v : Value} (hglobal : vm.globals[name]? = some v) : Draws vm f v
  | entry {id : MapId} {k : MapKey} {v : Value} (hmap : .map id ∈ f.stack)
      (hentry : (vm.store.map id)[k]? = some v) : Draws vm f v

/-- What an instruction does. -/
inductive Execution (op : Opcode) (arg : UInt32) (vm : Vm) (f : Frame) : Effect → Prop
  | failed (e : Fault) : Execution op arg vm f (.leave vm f (.error e))
  | dropped {stack : List Value} (hstack : ∀ v ∈ stack, v ∈ f.stack) :
      Execution op arg vm f (.next vm { f with stack })
  | drew {v : Value} {rest : List Value} (hv : f.Draws vm v) (hrest : ∀ w ∈ rest, w ∈ f.stack) :
      Execution op arg vm f (.next vm { f with stack := v :: rest })
  | stored {v : Value} {rest : List Value} (hop : op = .storeFast) (hstack : f.stack = v :: rest) :
      Execution op arg vm f
        (.next vm { f with stack := rest, locals := f.locals.setIfInBounds arg.toNat (some v) })
  | defined {v : Value} {rest : List Value} (hop : op = .storeGlobal) (name : String)
      (hstack : f.stack = v :: rest) :
      Execution op arg vm f (.next (vm.define name v) { f with stack := rest })
  | inserted {key : Value} {id : MapId} {k : MapKey} {v : Value} {rest : List Value}
      (hop : op = .storeSubscr) (hstack : f.stack = key :: .map id :: v :: rest)
      (hkey : key.key? = some k) :
      Execution op arg vm f (.next (vm.insert id k v) { f with stack := rest })
  | added (hop : op = .buildMap) :
      Execution op arg vm f (.next (vm.addMap ∅).2 (f.push (.map (vm.addMap ∅).1)))
  | pulled {id : RangeId} {rest : List Value} {i : Int64} {r : Range} (hop : op = .forIter)
      (hstack : f.stack = .range id :: rest) (hpull : (vm.store.range id).pull = some (i, r)) :
      Execution op arg vm f
        (.next { vm with store := vm.store.setRange id r } (f.push (.int i)))
  | jumped {stack : List Value} (hop : op.isJump = true) (hstack : ∀ v ∈ stack, v ∈ f.stack) :
      Execution op arg vm f (.jump vm { f with stack } arg.toNat)
  | called {callee : Value} {rest : List Value} (hop : op = .callFunction)
      (hdrop : f.stack.drop arg.toNat = callee :: rest) :
      Execution op arg vm f
        (.call vm { f with stack := rest } callee (f.stack.take arg.toNat).reverse)
  | returned {v : Value} {rest : List Value} (hstack : f.stack = v :: rest) :
      Execution op arg vm f (.leave vm { f with stack := rest } (.ok v))

variable {op : Opcode} {arg : UInt32} {vm : Vm} {f : Frame}

theorem Execution.give {rest : List Value} {result : Except Fault Value}
    (hresult : ∀ v, result = .ok v → f.Draws vm v) (hrest : ∀ w ∈ rest, w ∈ f.stack) :
    Execution op arg vm f (.give vm f rest result) := by
  cases result with
  | ok v => exact .drew (hresult v rfl) hrest
  | error e => exact .failed e

theorem execution_execute (op : Opcode) (arg : UInt32) (vm : Vm) (f : Frame) :
    Execution op arg vm f (execute op arg vm f) := by
  have hself : ∀ v ∈ f.stack, v ∈ f.stack := fun _ h => h
  have htail : ∀ {v rest}, f.stack = v :: rest → ∀ w ∈ rest, w ∈ f.stack :=
    fun heq _ hw => heq ▸ List.mem_cons_of_mem _ hw
  have hpair : ∀ {a b rest}, f.stack = b :: a :: rest → ∀ w ∈ rest, w ∈ f.stack :=
    fun heq _ hw => heq ▸ List.mem_cons_of_mem _ (List.mem_cons_of_mem _ hw)
  cases op with
  | nop | extendedArg => exact .dropped hself
  | jumpAbsolute => exact .jumped rfl hself
  | buildMap => exact .added rfl
  | popTop =>
    simp only [execute]
    split
    · rename_i v rest hstack
      exact .dropped (htail hstack)
    · exact .failed _
  | loadConst =>
    simp only [execute]
    split
    · rename_i v hconst
      exact .drew (.const (Array.mem_of_getElem? hconst)) hself
    · exact .failed _
  | loadFast =>
    simp only [execute]
    split
    · rename_i v hlocal
      exact .drew (.slot (Array.mem_of_getElem? hlocal)) hself
    · exact .failed _
    · exact .failed _
  | storeFast =>
    simp only [execute]
    split
    · rename_i v rest hstack
      split
      · exact .stored rfl hstack
      · exact .failed _
    · exact .failed _
  | loadGlobal =>
    simp only [execute]
    split
    · refine .give (fun v hv => ?_) hself
      exact (Vm.global_or_isPlain_of_lookup hv).elim .global .plain
    · exact .failed _
  | storeGlobal =>
    simp only [execute]
    split
    · split
      · rename_i v rest hstack
        exact .defined rfl _ hstack
      · exact .failed _
    · exact .failed _
  | binaryAdd =>
    simp only [execute]
    split
    · rename_i b a rest hstack
      exact .give (fun v hv => .plain (Value.isPlain_of_add hv)) (hpair hstack)
    · exact .failed _
  | binarySubtract =>
    simp only [execute]
    split
    · rename_i b a rest hstack
      exact .give (fun v hv => .plain (Value.isPlain_of_subtract hv)) (hpair hstack)
    · exact .failed _
  | binarySubscr =>
    simp only [execute]
    split
    · rename_i key container rest hstack
      refine .give (fun v hv => ?_) (hpair hstack)
      obtain ⟨id, rfl, k, hentry⟩ := Value.exists_entry_of_subscript hv
      exact .entry (hstack ▸ by simp) hentry
    · exact .failed _
  | storeSubscr =>
    simp only [execute]
    split
    · rename_i key container v rest hstack
      split
      · rename_i id k hentry
        obtain ⟨rfl, hkey⟩ := Value.entry_eq_ok hentry
        exact .inserted rfl hstack hkey
      · exact .failed _
    · exact .failed _
  | compareOp =>
    simp only [execute]
    split
    · split
      · rename_i b a rest hstack
        exact .give (fun v hv => .plain (Value.isPlain_of_compare hv)) (hpair hstack)
      · exact .failed _
    · exact .failed _
  | popJumpIfFalse =>
    simp only [execute]
    split
    · rename_i v rest hstack
      split
      · exact .dropped (htail hstack)
      · exact .jumped rfl (htail hstack)
    · exact .failed _
  | popJumpIfTrue =>
    simp only [execute]
    split
    · rename_i v rest hstack
      split
      · exact .jumped rfl (htail hstack)
      · exact .dropped (htail hstack)
    · exact .failed _
  | getIter =>
    simp only [execute]
    split
    · exact .dropped hself
    · exact .failed _
    · exact .failed _
  | forIter =>
    simp only [execute]
    split
    · rename_i id rest hstack
      split
      · rename_i i r hpull
        exact .pulled rfl hstack hpull
      · exact .jumped rfl (htail hstack)
    · exact .failed _
    · exact .failed _
  | callFunction =>
    simp only [execute]
    split
    · rename_i callee rest hdrop
      exact .called rfl hdrop
    · exact .failed _
  | returnValue =>
    simp only [execute]
    split
    · rename_i v rest hstack
      exact .returned hstack
    · exact .failed _
  | raiseAssertion =>
    simp only [execute]
    split <;> exact .failed _

/-! ### What all instructions have in common -/

theorem isJump_of_execute {vm' : Vm} {f' : Frame} {target : Nat}
    (h : execute op arg vm f = .jump vm' f' target) : op.isJump = true := by
  have hexecution := execution_execute op arg vm f
  rw [h] at hexecution
  cases hexecution with
  | jumped hop => exact hop

/-- An instruction that calls leaves the machine as it is. -/
theorem vm_of_execute_call {vm' : Vm} {g : Frame} {callee : Value} {args : List Value}
    (h : execute op arg vm f = .call vm' g callee args) : vm' = vm := by
  have hexecution := execution_execute op arg vm f
  rw [h] at hexecution
  cases hexecution with
  | called => rfl

/-- An instruction leaves the locals alone, or stores to the one that it names. -/
theorem locals_execute (op : Opcode) (arg : UInt32) (vm : Vm) (f : Frame) :
    (execute op arg vm f).frame.locals = f.locals ∨
      op = .storeFast ∧ ∃ v,
        (execute op arg vm f).frame.locals = f.locals.setIfInBounds arg.toNat (some v) := by
  have hexecution := execution_execute op arg vm f
  generalize execute op arg vm f = e at hexecution ⊢
  cases hexecution with
  | stored hop => exact Or.inr ⟨hop, _, rfl⟩
  | _ => exact Or.inl rfl

end Wordcode
