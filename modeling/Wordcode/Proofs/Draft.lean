import Mathlib.Data.List.Basic
import Wordcode.Assembly.Build

/-! What a command does to a draft: the item that it adds, the rule that it breaks, and what every
draft that commands made has in common. -/

namespace Wordcode

namespace Draft

@[simp] theorem items_fail (d : Draft) (e : AssemblyError) : (d.fail e).items = d.items := rfl

@[simp] theorem labels_fail (d : Draft) (e : AssemblyError) : (d.fail e).labels = d.labels := rfl

@[simp] theorem line_fail (d : Draft) (e : AssemblyError) : (d.fail e).line = d.line := rfl

@[simp] theorem fault_fail (d : Draft) (e : AssemblyError) :
    (d.fail e).fault = d.fault.or (some e) := rfl

@[simp] theorem items_push (d : Draft) (op : Opcode) (operand : Operand) :
    (d.push op operand).items = d.items.push ⟨op, operand, d.line⟩ := rfl

@[simp] theorem labels_push (d : Draft) (op : Opcode) (operand : Operand) :
    (d.push op operand).labels = d.labels := rfl

@[simp] theorem fault_push (d : Draft) (op : Opcode) (operand : Operand) :
    (d.push op operand).fault = d.fault := rfl

/-- The item that a command adds to a draft. -/
def emission (d : Draft) : Command → Option Item
  | .param _ | .localSlot _ | .globalName _ | .constant _ | .line _ | .newLabel | .bind _ => none
  | .emit op => some ⟨op, .none, d.line⟩
  | .emitArg op arg => some ⟨op, .immediate arg, d.line⟩
  | .emitJump op id => some ⟨op, .label id, d.line⟩
  | .loadConst v => some ⟨.loadConst, .immediate (d.constant v).1, d.line⟩
  | .loadFast name => some ⟨.loadFast, .immediate (d.localSlot name).1, d.line⟩
  | .storeFast name => some ⟨.storeFast, .immediate (d.localSlot name).1, d.line⟩
  | .loadGlobal name => some ⟨.loadGlobal, .immediate (d.globalName name).1, d.line⟩
  | .storeGlobal name => some ⟨.storeGlobal, .immediate (d.globalName name).1, d.line⟩
  | .compare op => some ⟨.compareOp, .immediate op.code, d.line⟩
  | .call argc => some ⟨.callFunction, .immediate argc, d.line⟩
  | .ret => some ⟨.returnValue, .none, d.line⟩
  | .raiseAssertion message =>
    some ⟨.raiseAssertion, .immediate (d.constant (.str message)).1, d.line⟩

/-- The rule that a command breaks when it is performed on a draft. -/
def objection (d : Draft) : Command → Option AssemblyError
  | .param name =>
    if name ∈ d.varnames then some (.duplicateParam name)
    else if d.varnames.size ≠ d.argcount then some (.paramAfterLocal name)
    else none
  | .bind id => if d.labels[id]? = some none then none else some (.labelRebound id)
  | .emit op => if op.hasArg then some (.missingOperand op) else none
  | .emitArg op _ => if op.hasArg then none else some (.unexpectedOperand op)
  | .emitJump op _ => if op.isJump then none else some (.notAJump op)
  | _ => none

/-- The labels after a command: it may create one, or bind one to the next item. -/
def labelsAfter (d : Draft) : Command → Array (Option Nat)
  | .newLabel => d.labels.push none
  | .bind id =>
    if d.labels[id]? = some none then d.labels.setIfInBounds id (some d.items.size) else d.labels
  | _ => d.labels

theorem items_emit (d : Draft) (op : Opcode) :
    (d.emit op).items = d.items.push ⟨op, .none, d.line⟩ := by
  unfold emit
  split <;> rfl

theorem items_emitArg (d : Draft) (op : Opcode) (arg : UInt32) :
    (d.emitArg op arg).items = d.items.push ⟨op, .immediate arg, d.line⟩ := by
  unfold emitArg
  split <;> rfl

theorem items_emitJump (d : Draft) (op : Opcode) (id : Nat) :
    (d.emitJump op id).items = d.items.push ⟨op, .label id, d.line⟩ := by
  unfold emitJump
  split <;> rfl

/-- A command adds its item, if it has one, behind the others. -/
theorem items_perform (d : Draft) (c : Command) :
    (d.perform c).items.toList = d.items.toList ++ (d.emission c).toList := by
  cases c with
  | param name =>
    simp only [perform, param, emission, Option.toList_none, List.append_nil]
    split
    · rfl
    · split <;> rfl
  | bind id =>
    simp only [perform, bind, emission, Option.toList_none, List.append_nil]
    split <;> rfl
  | emit | ret => simp [perform, emission, items_emit]
  | emitArg | compare | call => simp [perform, emission, items_emitArg]
  | emitJump => simp [perform, emission, items_emitJump]
  | loadConst | raiseAssertion => simp [perform, emission, items_emitArg, constant]
  | loadFast | storeFast => simp [perform, emission, items_emitArg, localSlot]
  | loadGlobal | storeGlobal => simp [perform, emission, items_emitArg, globalName]
  | localSlot | globalName | constant | line | newLabel =>
    simp [perform, emission, localSlot, globalName, constant, atLine, newLabel]

/-- A draft keeps its first fault, and has one as soon as a command breaks a rule. -/
theorem fault_perform (d : Draft) (c : Command) :
    (d.perform c).fault = d.fault.or (d.objection c) := by
  cases c with
  | param name =>
    simp only [perform, param, objection]
    split
    · rfl
    · split <;> simp
  | bind id =>
    simp only [perform, bind, objection]
    split <;> simp_all
  | emit op | emitArg op | emitJump op =>
    simp only [perform, emit, emitArg, emitJump, objection]
    split <;> simp
  | loadConst | loadFast | storeFast | loadGlobal | storeGlobal | compare | call | ret
  | raiseAssertion =>
    simp [perform, objection, emit, emitArg, Opcode.hasArg, constant, localSlot, globalName]
  | localSlot | globalName | constant | line | newLabel =>
    simp [perform, objection, localSlot, globalName, constant, atLine, newLabel]

theorem labels_perform (d : Draft) (c : Command) : (d.perform c).labels = d.labelsAfter c := by
  cases c with
  | param name =>
    simp only [perform, param, labelsAfter]
    split
    · rfl
    · split <;> rfl
  | bind id =>
    simp only [perform, bind, labelsAfter]
    split <;> simp_all
  | emit op | emitArg op | emitJump op =>
    simp only [perform, emit, emitArg, emitJump, labelsAfter]
    split <;> rfl
  | loadConst | loadFast | storeFast | loadGlobal | storeGlobal | compare | call | ret
  | raiseAssertion =>
    simp [perform, labelsAfter, emit, emitArg, Opcode.hasArg, constant, localSlot, globalName]
  | localSlot | globalName | constant | line | newLabel =>
    simp [perform, labelsAfter, localSlot, globalName, constant, atLine, newLabel]

theorem fault_of_performAll {d : Draft} {commands : List Command}
    (h : (d.performAll commands).fault = none) : d.fault = none := by
  induction commands generalizing d with
  | nil => exact h
  | cons c rest ih =>
    have hnone := ih (d := d.perform c) h
    rw [fault_perform] at hnone
    exact (Option.or_eq_none_iff.mp hnone).1

/-! ### Drafts that commands made -/

/-- An item of a draft without a fault was there at the start, or a command that broke no rule
added it. -/
theorem exists_emission {d : Draft} {commands : List Command} {item : Item}
    (hfault : (d.performAll commands).fault = none)
    (hitem : item ∈ (d.performAll commands).items.toList) :
    item ∈ d.items.toList ∨
      ∃ c ∈ commands, ∃ d' : Draft, d'.objection c = none ∧ d'.emission c = some item := by
  induction commands generalizing d with
  | nil => exact Or.inl hitem
  | cons c rest ih =>
    rcases ih hfault hitem with hmem | ⟨c', hc', d', hd'⟩
    · rw [items_perform, List.mem_append, Option.mem_toList] at hmem
      rcases hmem with hmem | hemit
      · exact Or.inl hmem
      · refine Or.inr ⟨c, List.mem_cons_self, d, ?_, hemit⟩
        have hnone := fault_of_performAll (d := d.perform c) hfault
        rw [fault_perform] at hnone
        exact (Option.or_eq_none_iff.mp hnone).2
    · exact Or.inr ⟨c', List.mem_cons_of_mem c hc', d', hd'⟩

/-- Only a jump has a label for its operand. -/
theorem isJump_of_emission {d : Draft} {c : Command} {item : Item} {id : Nat}
    (hobject : d.objection c = none) (hemit : d.emission c = some item)
    (hoperand : item.operand = .label id) : item.op.isJump = true := by
  cases c with
  | emitJump op target =>
    cases hemit
    by_contra hop
    simp [objection, hop] at hobject
  | _ => cases hemit <;> cases hoperand

/-- An opcode that takes no argument has no operand. -/
theorem operand_of_emission {d : Draft} {c : Command} {item : Item}
    (hobject : d.objection c = none) (hemit : d.emission c = some item)
    (hop : item.op.hasArg = false) : item.operand = .none := by
  cases c with
  | emit | ret =>
    cases hemit
    rfl
  | emitArg op arg =>
    cases hemit
    simp [objection, hop] at hobject
  | emitJump op target =>
    have hlabel : item.operand = .label target := by
      cases hemit
      rfl
    have hjump := isJump_of_emission hobject hemit hlabel
    rw [Opcode.hasArg_of_isJump hjump] at hop
    cases hop
  | _ => cases hemit <;> cases hop

/-- A prefix or a jump has a label for its operand, unless a command gave it its argument. -/
theorem emission_of_raw {d : Draft} {c : Command} {item : Item}
    (hobject : d.objection c = none) (hemit : d.emission c = some item)
    (hop : item.op = .extendedArg ∨ item.op.isJump = true) :
    (∃ id, item.operand = .label id) ∨ ∃ arg, c = .emitArg item.op arg := by
  cases c with
  | emitJump op target =>
    cases hemit
    exact Or.inl ⟨target, rfl⟩
  | emitArg op arg =>
    cases hemit
    exact Or.inr ⟨arg, rfl⟩
  | emit op =>
    cases hemit
    have harg : op.hasArg = true := by
      rcases hop with rfl | hjump
      · rfl
      · exact Opcode.hasArg_of_isJump hjump
    simp [objection, harg] at hobject
  | _ => cases hemit <;> simp [Opcode.isJump] at hop

/-- No label is bound behind the end of the items. -/
def Bounded (d : Draft) : Prop :=
  ∀ id k : Nat, d.labels[id]? = some (some k) → k ≤ d.items.size

theorem size_items_le (d : Draft) (c : Command) : d.items.size ≤ (d.perform c).items.size := by
  have h := congrArg List.length (items_perform d c)
  rw [List.length_append, Array.length_toList, Array.length_toList] at h
  omega

theorem Bounded.perform {d : Draft} (h : d.Bounded) (c : Command) : (d.perform c).Bounded := by
  intro id k hk
  have hle := size_items_le d c
  suffices hold : k ≤ d.items.size by omega
  rw [labels_perform] at hk
  cases c with
  | newLabel =>
    rw [labelsAfter, Array.getElem?_push] at hk
    split at hk
    · cases hk
    · exact h id k hk
  | bind target =>
    rw [labelsAfter] at hk
    split at hk
    · rw [Array.getElem?_setIfInBounds] at hk
      split at hk
      · split at hk
        · cases hk
          exact Nat.le_refl _
        · cases hk
      · exact h id k hk
    · exact h id k hk
  | _ => exact h id k hk

theorem bounded_performAll (name : String) (commands : List Command) :
    (performAll { name } commands).Bounded :=
  List.foldlRecOn commands Draft.perform (fun id k h => by simp at h) fun _ h c _ => h.perform c

end Draft

end Wordcode
