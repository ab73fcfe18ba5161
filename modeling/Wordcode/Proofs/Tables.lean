import Wordcode.Proofs.Words

/-! The tables of a draft.  They only grow, so a place that a command looked up while it was
performed is still one when the draft is built, and no instruction that was emitted by name has an
argument out of range. -/

namespace Wordcode

/-! ### Interning -/

/-- The second table has each entry of the first at the same place. -/
def Extends {α : Type} (table table' : Array α) : Prop :=
  ∀ (i : Nat) x, table[i]? = some x → table'[i]? = some x

section Extends

variable {α : Type} {table table' table'' : Array α}

theorem Extends.refl (table : Array α) : Extends table table := fun _ _ h => h

theorem Extends.trans (h : Extends table table') (h' : Extends table' table'') :
    Extends table table'' :=
  fun i x hx => h' i x (h i x hx)

theorem extends_push (table : Array α) (x : α) : Extends table (table.push x) := by
  intro i y hy
  obtain ⟨hi, rfl⟩ := Array.getElem?_eq_some_iff.mp hy
  exact Array.getElem?_push_lt hi

theorem Extends.size_le (h : Extends table table') : table.size ≤ table'.size := by
  by_contra hlt
  have hsome := Array.getElem?_eq_getElem (Nat.lt_of_not_le hlt)
  obtain ⟨hself, -⟩ := Array.getElem?_eq_some_iff.mp (h _ _ hsome)
  exact Nat.lt_irrefl _ hself

end Extends

section Intern

variable {α : Type} [DecidableEq α] (table : Array α) (x : α)

theorem intern_snd : (intern table x).2 = if x ∈ table then table else table.push x := by
  unfold intern
  split
  · rename_i i hfind
    obtain ⟨hi, hx, -⟩ := Array.findIdx?_eq_some_iff_getElem.mp hfind
    rw [if_pos]
    exact Array.mem_of_getElem (of_decide_eq_true hx)
  · rename_i hfind
    rw [if_neg]
    intro hx
    simpa using Array.findIdx?_eq_none_iff.mp hfind x hx

theorem extends_intern : Extends table (intern table x).2 := by
  rw [intern_snd]
  split
  · exact .refl table
  · exact extends_push table x

/-- The place of an entry is in its table, also where the table is too long for its places. -/
theorem intern_lt_size : (intern table x).1.toNat < (intern table x).2.size := by
  have hle : ∀ n : Nat, (UInt32.ofNat n).toNat ≤ n := fun n => Nat.mod_le n _
  unfold intern
  split
  · rename_i i hfind
    have hlt : i < table.size := (Array.findIdx?_eq_some_iff_getElem.mp hfind).1
    exact Nat.lt_of_le_of_lt (hle i) hlt
  · rw [Array.size_push]
    exact Nat.lt_succ_of_le (hle _)

end Intern

/-! ### Lookups -/

/-- Whether an instruction looks its argument up: among the constants, the locals, the names or the
comparisons. -/
def Opcode.looksUp : Opcode → Bool
  | loadConst | loadFast | storeFast | loadGlobal | storeGlobal | compareOp | raiseAssertion => true
  | _ => false

/-- The argument of an instruction indexes what the instruction looks up in its code object, if it
looks up something. -/
def Code.Indexes (code : Code) (op : Opcode) (arg : UInt32) : Prop :=
  match op with
  | .loadConst | .raiseAssertion => arg.toNat < code.consts.size
  | .loadFast | .storeFast => arg.toNat < code.nlocals
  | .loadGlobal | .storeGlobal => arg.toNat < code.names.size
  | .compareOp => (Comparison.ofCode? arg).isSome
  | _ => True

theorem Code.indexes_of_looksUp (code : Code) {op : Opcode} (h : op.looksUp = false)
    (arg : UInt32) : code.Indexes op arg := by
  cases op with
  | loadConst | loadFast | storeFast | loadGlobal | storeGlobal | compareOp | raiseAssertion =>
    cases h
  | _ => trivial

theorem Comparison.isSome_ofCode?_iff (arg : UInt32) :
    (ofCode? arg).isSome ↔ arg.toNat < 6 := by
  constructor
  · intro h
    unfold ofCode? at h
    split at h <;> first
      | decide
      | cases h
  · intro h
    have hmem : ∀ n < 6, (ofCode? (UInt32.ofNat n)).isSome = true := by decide
    have hself := hmem arg.toNat h
    rwa [UInt32.ofNat_toNat] at hself

/-- A lesser argument indexes what a greater one does. -/
theorem Code.Indexes.mono {code : Code} {op : Opcode} {arg arg' : UInt32}
    (h : code.Indexes op arg) (hle : arg'.toNat ≤ arg.toNat) : code.Indexes op arg' := by
  cases op with
  | loadConst | loadFast | storeFast | loadGlobal | storeGlobal | raiseAssertion =>
    exact Nat.lt_of_le_of_lt hle h
  | compareOp =>
    have hlt := (Comparison.isSome_ofCode?_iff arg).mp h
    exact (Comparison.isSome_ofCode?_iff arg').mpr (Nat.lt_of_le_of_lt hle hlt)
  | _ => trivial

/-! ### Commands -/

/-- What a table lists: a variable, a name or a constant. -/
inductive Entry where
  | varname (x : String)
  | name (name : String)
  | const (v : Value)

namespace Command

/-- The entry whose place a command asks for. -/
def entry? : Command → Option Entry
  | .localSlot x | .loadFast x | .storeFast x => some (.varname x)
  | .globalName name | .loadGlobal name | .storeGlobal name => some (.name name)
  | .constant v | .loadConst v => some (.const v)
  | .raiseAssertion message => some (.const (.str message))
  | _ => none

/-- The parameter that a command declares. -/
def param? : Command → Option String
  | .param x => some x
  | _ => none

theorem param?_eq_none_of_entry? {c : Command} {e : Entry} (he : c.entry? = some e) :
    c.param? = none := by
  cases c <;> first | rfl | cases he

/-- Whether a command leaves prefixes, and the arguments of instructions that look them up, to the
assembler. -/
def isNamed : Command → Bool
  | .emitArg op _ => op ≠ .extendedArg && !op.looksUp
  | _ => true

end Command

/-! ### Drafts -/

namespace Draft

/-- What the instructions of a draft see, without the instructions. -/
def tables (d : Draft) : Code := d.toCode #[] []

@[simp] theorem tables_emit (d : Draft) (op : Opcode) : (d.emit op).tables = d.tables := by
  unfold emit
  split <;> rfl

@[simp] theorem tables_emitArg (d : Draft) (op : Opcode) (arg : UInt32) :
    (d.emitArg op arg).tables = d.tables := by
  unfold emitArg
  split <;> rfl

@[simp] theorem tables_emitJump (d : Draft) (op : Opcode) (id : Nat) :
    (d.emitJump op id).tables = d.tables := by
  unfold emitJump
  split <;> rfl

@[simp] theorem tables_fail (d : Draft) (e : AssemblyError) : (d.fail e).tables = d.tables := rfl

end Draft

/-- The tables of the second code object extend those of the first. -/
structure Code.Extends (code code' : Code) : Prop where
  varnames : Wordcode.Extends code.varnames code'.varnames
  names : Wordcode.Extends code.names code'.names
  consts : Wordcode.Extends code.consts code'.consts

/-- The tables of the first code object are no longer than those of the second. -/
structure Code.Within (code code' : Code) : Prop where
  consts : code.consts.size ≤ code'.consts.size
  names : code.names.size ≤ code'.names.size
  nlocals : code.nlocals ≤ code'.nlocals

namespace Code

variable {code code' code'' : Code}

theorem Extends.refl (code : Code) : code.Extends code := ⟨.refl _, .refl _, .refl _⟩

theorem Extends.trans (h : code.Extends code') (h' : code'.Extends code'') :
    code.Extends code'' :=
  ⟨h.varnames.trans h'.varnames, h.names.trans h'.names, h.consts.trans h'.consts⟩

theorem Extends.within (h : code.Extends code') : code.Within code' :=
  ⟨h.consts.size_le, h.names.size_le, h.varnames.size_le⟩

theorem Indexes.within {op : Opcode} {arg : UInt32} (h : code.Indexes op arg)
    (hwithin : code.Within code') : code'.Indexes op arg := by
  cases op with
  | loadConst | raiseAssertion => exact Nat.lt_of_lt_of_le h hwithin.consts
  | loadFast | storeFast => exact Nat.lt_of_lt_of_le h hwithin.nlocals
  | loadGlobal | storeGlobal => exact Nat.lt_of_lt_of_le h hwithin.names
  | compareOp => exact h
  | _ => trivial

end Code

namespace Draft

/-- The place of an entry in the tables of a draft, with the draft, whose tables get the entry if
they do not list it. -/
def place (d : Draft) : Entry → UInt32 × Draft
  | .varname x => d.localSlot x
  | .name name => d.globalName name
  | .const v => d.constant v

theorem extends_place (d : Draft) (e : Entry) : d.tables.Extends (d.place e).2.tables := by
  cases e with
  | varname x => exact ⟨extends_intern d.varnames x, .refl _, .refl _⟩
  | name name => exact ⟨.refl _, extends_intern d.names name, .refl _⟩
  | const v => exact ⟨.refl _, .refl _, extends_intern d.consts v⟩

theorem argcount_place (d : Draft) (e : Entry) : (d.place e).2.argcount = d.argcount := by
  cases e <;> rfl

/-- What a command does to the tables of a draft: it declares a new parameter, asks for the place of
an entry, or leaves them alone. -/
inductive Grows (d : Draft) : Command → Code → Prop
  | declared {x : String} (hnew : x ∉ d.varnames) (hsize : d.varnames.size = d.argcount) :
      Grows d (.param x)
        { d.tables with varnames := d.varnames.push x, argcount := d.argcount + 1 }
  | asked {c : Command} {e : Entry} (he : c.entry? = some e) : Grows d c (d.place e).2.tables
  | kept {c : Command} (he : c.entry? = none) (hparam : d.objection c = none → c.param? = none) :
      Grows d c d.tables

theorem grows_perform (d : Draft) (c : Command) : d.Grows c (d.perform c).tables := by
  cases c with
  | param x =>
    rw [perform, param]
    split
    · rename_i hold
      refine .kept rfl fun hobject => ?_
      simp [objection, hold] at hobject
    · rename_i hnew
      split
      · rename_i hsize
        refine .kept rfl fun hobject => ?_
        simp [objection, hnew, hsize] at hobject
      · rename_i hsize
        exact .declared hnew (not_not.mp hsize)
  | bind id =>
    rw [perform, bind]
    split <;> exact .kept rfl fun _ => rfl
  | localSlot x => exact .asked (e := .varname x) rfl
  | globalName name => exact .asked (e := .name name) rfl
  | constant v => exact .asked (e := .const v) rfl
  | loadFast x | storeFast x =>
    simp only [perform, tables_emitArg]
    exact .asked (e := .varname x) rfl
  | loadGlobal name | storeGlobal name =>
    simp only [perform, tables_emitArg]
    exact .asked (e := .name name) rfl
  | loadConst v =>
    simp only [perform, tables_emitArg]
    exact .asked (e := .const v) rfl
  | raiseAssertion message =>
    simp only [perform, tables_emitArg]
    exact .asked (e := .const (.str message)) rfl
  | emit | ret =>
    rw [perform, tables_emit]
    exact .kept rfl fun _ => rfl
  | emitArg | compare | call =>
    rw [perform, tables_emitArg]
    exact .kept rfl fun _ => rfl
  | emitJump =>
    rw [perform, tables_emitJump]
    exact .kept rfl fun _ => rfl
  | line | newLabel => exact .kept rfl fun _ => rfl

theorem tables_perform_of_entry {d : Draft} {c : Command} {e : Entry} (he : c.entry? = some e) :
    (d.perform c).tables = (d.place e).2.tables := by
  have h := d.grows_perform c
  generalize (d.perform c).tables = tables at h ⊢
  cases h with
  | declared => cases he
  | asked he' =>
    rw [he'] at he
    cases he
    rfl
  | kept hnone =>
    rw [hnone] at he
    cases he

theorem extends_perform (d : Draft) (c : Command) : d.tables.Extends (d.perform c).tables := by
  have h := d.grows_perform c
  generalize (d.perform c).tables = tables at h ⊢
  cases h with
  | declared => exact ⟨extends_push _ _, .refl _, .refl _⟩
  | asked => exact d.extends_place _
  | kept => exact .refl _

/-- The item that a command emits by name indexes the tables that the command leaves. -/
theorem indexes_emission {d : Draft} {c : Command} (hnamed : c.isNamed = true)
    (hobject : d.objection c = none) {item : Item} (hemit : d.emission c = some item)
    (bound places : Array Nat) :
    (d.perform c).tables.Indexes item.op (item.operand.resolve bound places) := by
  cases c with
  | emit op =>
    cases hemit
    refine Code.indexes_of_looksUp _ ?_ _
    have harg : op.hasArg = false := by
      by_contra h
      simp [objection, h] at hobject
    cases op <;> first | rfl | cases harg
  | emitArg op arg =>
    cases hemit
    refine Code.indexes_of_looksUp _ ?_ _
    simp only [Command.isNamed, Bool.and_eq_true, Bool.not_eq_true'] at hnamed
    exact hnamed.2
  | emitJump op id =>
    cases hemit
    refine Code.indexes_of_looksUp _ ?_ _
    have hjump : op.isJump = true := by
      by_contra h
      simp [objection, h] at hobject
    cases op <;> first | rfl | cases hjump
  | compare op =>
    cases hemit
    show (Comparison.ofCode? op.code).isSome = true
    rw [Comparison.ofCode?_code]
    rfl
  | call | ret =>
    cases hemit
    trivial
  | loadConst v | raiseAssertion v =>
    cases hemit
    simp only [perform, tables_emitArg]
    exact intern_lt_size d.consts _
  | loadFast name | storeFast name =>
    cases hemit
    simp only [perform, tables_emitArg]
    exact intern_lt_size d.varnames name
  | loadGlobal name | storeGlobal name =>
    cases hemit
    simp only [perform, tables_emitArg]
    exact intern_lt_size d.names name
  | _ => cases hemit

/-- All items index the tables as they are. -/
def Indexed (d : Draft) : Prop :=
  ∀ item ∈ d.items.toList, ∀ bound places : Array Nat,
    d.tables.Indexes item.op (item.operand.resolve bound places)

theorem Indexed.perform {d : Draft} (h : d.Indexed) {c : Command} (hnamed : c.isNamed = true)
    (hobject : d.objection c = none) : (d.perform c).Indexed := by
  intro item hitem bound places
  rw [items_perform, List.mem_append, Option.mem_toList] at hitem
  rcases hitem with hold | hemit
  · exact (h item hold bound places).within (d.extends_perform c).within
  · exact indexes_emission hnamed hobject hemit bound places

theorem Indexed.performAll {d : Draft} (h : d.Indexed) {commands : List Command}
    (hnamed : ∀ c ∈ commands, c.isNamed = true)
    (hfault : (d.performAll commands).fault = none) : (d.performAll commands).Indexed := by
  induction commands generalizing d with
  | nil => exact h
  | cons c rest ih =>
    obtain ⟨hc, hrest⟩ := List.forall_mem_cons.mp hnamed
    have hnone := fault_of_performAll (d := d.perform c) hfault
    rw [fault_perform] at hnone
    exact ih (h.perform hc (Option.or_eq_none_iff.mp hnone).2) hrest hfault

/-- Only a parameter changes the number of parameters, and it comes before any other local. -/
theorem argcount_perform (d : Draft) (c : Command) :
    (d.perform c).argcount = d.argcount ∨ (d.perform c).argcount = (d.perform c).varnames.size := by
  have hgrows := d.grows_perform c
  have hvarnames : (d.perform c).tables.varnames = (d.perform c).varnames := rfl
  have hargcount : (d.perform c).tables.argcount = (d.perform c).argcount := rfl
  generalize (d.perform c).tables = tables at hgrows hvarnames hargcount
  rw [← hvarnames, ← hargcount]
  cases hgrows with
  | declared hnew hsize => exact Or.inr (by rw [Array.size_push, hsize])
  | asked => exact Or.inl (d.argcount_place _)
  | kept => exact Or.inl rfl

theorem argcount_le_performAll (name : String) (commands : List Command) :
    (performAll { name } commands).argcount ≤ (performAll { name } commands).varnames.size := by
  refine List.foldlRecOn (motive := fun d : Draft => d.argcount ≤ d.varnames.size) commands
    Draft.perform (Nat.le_refl 0) fun d h c _ => ?_
  rcases d.argcount_perform c with hsame | hparam
  · rw [hsame]
    exact Nat.le_trans h (d.extends_perform c).within.nlocals
  · exact Nat.le_of_eq hparam

end Draft

/-! ### Built code -/

/-- The code object was built. -/
def Code.Assembled (code : Code) : Prop :=
  ∃ name commands, assemble name commands = .ok code

/-- The code object was built from commands that leave prefixes and lookups to the assembler. -/
def Code.AssembledByName (code : Code) : Prop :=
  ∃ name commands, assemble name commands = .ok code ∧ ∀ c ∈ commands, c.isNamed = true

namespace Code

variable {code : Code}

theorem AssembledByName.assembled (h : code.AssembledByName) : code.Assembled := by
  obtain ⟨name, commands, hbuild, -⟩ := h
  exact ⟨name, commands, hbuild⟩

theorem Assembled.argcount_le (h : code.Assembled) : code.argcount ≤ code.nlocals := by
  obtain ⟨name, commands, hbuild⟩ := h
  obtain ⟨bound, slots, henc⟩ := Draft.exists_encodes hbuild
  rw [henc.code_eq]
  exact Draft.argcount_le_performAll name commands

theorem Assembled.exists_words (h : code.Assembled) :
    ∃ words, code.bytes.toList = wordBytes words ∧
      ∀ w ∈ words, w.1.hasArg = false → w.2 = 0 := by
  obtain ⟨name, commands, hbuild⟩ := h
  exact exists_words_of_assemble hbuild

/-- The arguments of prefixes have room for one byte more. -/
theorem toNat_lt_of_mem_prefixes {offset count : Nat} {arg : UInt32} (harg : arg.toNat < 2 ^ 24)
    {i : Instruction} (h : i ∈ prefixes offset count arg) : i.arg.toNat < 2 ^ 24 := by
  induction count generalizing arg with
  | zero => cases h
  | succ count ih =>
    rw [prefixes, List.mem_append, List.mem_singleton] at h
    rcases h with h | rfl
    · refine ih ?_ h
      rw [UInt32.toNat_div]
      exact Nat.lt_of_le_of_lt (Nat.div_le_self _ _) harg
    · exact harg

/-- The instructions of code that was built by name: no prefix carries more than three bytes, and
all other arguments index what they are looked up in. -/
theorem AssembledByName.of_mem_instructions (h : code.AssembledByName) {i : Instruction}
    (hi : i ∈ code.instructions) :
    (i.opcode = .extendedArg → i.arg.toNat < 2 ^ 24) ∧ code.Indexes i.opcode i.arg := by
  obtain ⟨name, commands, hbuild, hnamed⟩ := h
  obtain ⟨bound, slots, henc⟩ := Draft.exists_encodes hbuild
  have hplain : ∀ arg, .emitArg .extendedArg arg ∉ commands := by
    intro arg hmem
    cases hnamed _ hmem
  have hop := Draft.op_ne_extendedArg henc.fault hplain
  have hindexed : (Draft.performAll { name } commands).Indexed :=
    Draft.Indexed.performAll (fun _ h => by cases h) hnamed henc.fault
  rw [henc.instructions_eq hop] at hi
  obtain ⟨s, hs, offset, hunit⟩ := exists_slot_of_mem_listing hi
  rw [unitList, List.mem_append, List.mem_singleton] at hunit
  rcases hunit with hprefix | rfl
  · have hopcode := opcode_of_mem_prefixes hprefix
    refine ⟨fun _ => toNat_lt_of_mem_prefixes ?_ hprefix, ?_⟩
    · rw [UInt32.toNat_div]
      exact Nat.div_lt_of_lt_mul (UInt32.toNat_lt _)
    · rw [hopcode]
      trivial
  · refine ⟨fun hext => absurd hext (hop _ (henc.item_mem hs)), ?_⟩
    have hitem := hindexed s.item (henc.item_mem hs) bound (starts 0 slots).toArray
    rw [henc.code_eq]
    exact hitem

end Code
end Wordcode
