import Wordcode.Proofs.LineTable
import Wordcode.Proofs.WellFormed

/-! What the tables of built code list.  Interning never lists anything twice and leaves every entry
at its place, so the place that a command was given for a variable, a name or a constant is still
that of the same entry once all commands were performed; and the parameters, which are declared
before any other local, are the first variables. -/

namespace Wordcode

/-! ### Interning -/

section Distinct

variable {α : Type}

theorem nodup_push {table : Array α} {x : α} (h : table.toList.Nodup) (hx : x ∉ table) :
    (table.push x).toList.Nodup := by
  rw [Array.toList_push, List.nodup_append]
  refine ⟨h, List.pairwise_singleton _ x, fun y hy z hz => ?_⟩
  rw [List.mem_singleton.mp hz]
  rintro rfl
  exact hx (Array.mem_toList_iff.mp hy)

variable [DecidableEq α] (table : Array α) (x : α)

theorem nodup_intern (h : table.toList.Nodup) : (intern table x).2.toList.Nodup := by
  rw [intern_snd]
  split
  · exact h
  · exact nodup_push h ‹_›

/-- The place that interning answers with is that of the entry, if it is a place of 32 bits. -/
theorem getElem?_intern (hsize : (intern table x).2.size ≤ 2 ^ 32) :
    (intern table x).2[(intern table x).1.toNat]? = some x := by
  unfold intern at hsize ⊢
  split at hsize <;> rename_i hfind
  · obtain ⟨hi, hx, -⟩ := Array.findIdx?_eq_some_iff_getElem.mp hfind
    rw [UInt32.toNat_ofNat_of_lt' (Nat.lt_of_lt_of_le hi hsize), Array.getElem?_eq_getElem hi,
      of_decide_eq_true hx]
  · rw [Array.size_push] at hsize
    rw [UInt32.toNat_ofNat_of_lt' hsize, Array.getElem?_push_size]

end Distinct

/-! ### Entries -/

/-- The opcode of the instruction into which a command puts the place of its entry; a command that
answers with the place puts it into none. -/
def Command.opcode? : Command → Option Opcode
  | .loadConst _ => some .loadConst
  | .loadFast _ => some .loadFast
  | .storeFast _ => some .storeFast
  | .loadGlobal _ => some .loadGlobal
  | .storeGlobal _ => some .storeGlobal
  | .raiseAssertion _ => some .raiseAssertion
  | _ => none

/-- The parameters that commands declare, in order. -/
def parameters (commands : List Command) : List String := commands.filterMap Command.param?

theorem parameters_concat {before : List Command} {c : Command} (h : ∀ x, c ≠ .param x) :
    parameters (before ++ [c]) = parameters before := by
  have hnone : c.param? = none := by
    cases c with
    | param x => exact absurd rfl (h x)
    | _ => rfl
  simp [parameters, hnone]

/-- The entry is at place `i` of its table. -/
def Code.Lists (code : Code) (i : UInt32) : Entry → Prop
  | .varname x => code.varnames[i.toNat]? = some x
  | .name name => code.names[i.toNat]? = some name
  | .const v => code.consts[i.toNat]? = some v

/-- No table lists anything twice. -/
structure Code.Distinct (code : Code) : Prop where
  varnames : code.varnames.toList.Nodup
  names : code.names.toList.Nodup
  consts : code.consts.toList.Nodup

/-- Every place in the tables is one of 32 bits. -/
structure Code.Addressable (code : Code) : Prop where
  varnames : code.varnames.size < 2 ^ 32
  names : code.names.size < 2 ^ 32
  consts : code.consts.size < 2 ^ 32

namespace Code

variable {code code' : Code}

theorem Lists.extend {i : UInt32} {e : Entry} (h : code.Lists i e) (hext : code.Extends code') :
    code'.Lists i e := by
  cases e with
  | varname x => exact hext.varnames _ _ h
  | name name => exact hext.names _ _ h
  | const v => exact hext.consts _ _ h

theorem Addressable.of_extends (h : code'.Addressable) (hext : code.Extends code') :
    code.Addressable :=
  ⟨Nat.lt_of_le_of_lt hext.varnames.size_le h.varnames,
    Nat.lt_of_le_of_lt hext.names.size_le h.names,
    Nat.lt_of_le_of_lt hext.consts.size_le h.consts⟩

end Code

/-! ### Drafts -/

namespace Draft

theorem distinct_place {d : Draft} (h : d.tables.Distinct) (e : Entry) :
    (d.place e).2.tables.Distinct := by
  cases e with
  | varname x => exact ⟨nodup_intern d.varnames x h.varnames, h.names, h.consts⟩
  | name name => exact ⟨h.varnames, nodup_intern d.names name h.names, h.consts⟩
  | const v => exact ⟨h.varnames, h.names, nodup_intern d.consts v h.consts⟩

theorem lists_place {d : Draft} {e : Entry} (h : (d.place e).2.tables.Addressable) :
    (d.place e).2.tables.Lists (d.place e).1 e := by
  cases e with
  | varname x => exact getElem?_intern d.varnames x (Nat.le_of_lt h.varnames)
  | name name => exact getElem?_intern d.names name (Nat.le_of_lt h.names)
  | const v => exact getElem?_intern d.consts v (Nat.le_of_lt h.consts)

theorem extends_performAll (d : Draft) (commands : List Command) :
    d.tables.Extends (d.performAll commands).tables := by
  induction commands generalizing d with
  | nil => exact .refl _
  | cons c rest ih => exact (d.extends_perform c).trans (ih (d.perform c))

theorem distinct_perform {d : Draft} (h : d.tables.Distinct) (c : Command) :
    (d.perform c).tables.Distinct := by
  have hgrows := d.grows_perform c
  generalize (d.perform c).tables = tables at hgrows ⊢
  cases hgrows with
  | declared hnew => exact ⟨nodup_push h.varnames hnew, h.names, h.consts⟩
  | asked => exact distinct_place h _
  | kept => exact h

theorem distinct_performAll (name : String) (commands : List Command) :
    (performAll { name } commands).tables.Distinct :=
  List.foldlRecOn (motive := fun d : Draft => d.tables.Distinct) commands Draft.perform
    ⟨.nil, .nil, .nil⟩ fun _ h c _ => distinct_perform h c

/-- A command that asks for an entry answers with its place, or puts it into an instruction. -/
theorem answer_or_emission (d : Draft) {c : Command} {e : Entry} (he : c.entry? = some e) :
    match c.opcode? with
    | none => d.answer? c = some (d.place e).1
    | some op => d.emission c = some ⟨op, .immediate (d.place e).1, d.line⟩ := by
  cases c with
  | localSlot | globalName | constant | loadConst | loadFast | storeFast | loadGlobal | storeGlobal
  | raiseAssertion =>
    cases he
    rfl
  | _ => cases he

/-! ### Parameters -/

/-- The parameters are the first variables of a draft. -/
structure ParametersFirst (d : Draft) (parameters : List String) : Prop where
  varnames : d.varnames.toList.take d.argcount = parameters
  argcount : d.argcount = parameters.length

theorem ParametersFirst.extend {d : Draft} {parameters : List String}
    (h : d.ParametersFirst parameters) {varnames : Array String}
    (hext : Extends d.varnames varnames) : varnames.toList.take d.argcount = parameters := by
  have hlength := congrArg List.length h.varnames
  rw [List.length_take, ← h.argcount, Array.length_toList] at hlength
  rw [← h.varnames]
  refine List.ext_getElem? fun i => ?_
  rw [List.getElem?_take, List.getElem?_take]
  split
  · have hi : i < d.varnames.size := by omega
    rw [Array.getElem?_toList, Array.getElem?_toList, Array.getElem?_eq_getElem hi]
    exact hext i _ (Array.getElem?_eq_getElem hi)
  · rfl

theorem ParametersFirst.perform {d : Draft} {before : List Command}
    (h : d.ParametersFirst (parameters before)) {c : Command} (hobject : d.objection c = none) :
    (d.perform c).ParametersFirst (parameters (before ++ [c])) := by
  cases declares_perform hobject with
  | param x hnew hsize hvarnames hargcount =>
    have hparameters : parameters (before ++ [.param x]) = parameters before ++ [x] :=
      List.filterMap_append
    have hall : d.varnames.toList = parameters before := by
      rw [← h.varnames, ← hsize, ← Array.length_toList, List.take_length]
    have hcount : d.argcount + 1 = (parameters before ++ [x]).length := by
      rw [List.length_append, h.argcount]
      rfl
    rw [hparameters]
    refine ⟨?_, hargcount.trans hcount⟩
    rw [hvarnames, hargcount, Array.toList_push, hall, hcount, List.take_length]
  | slot c x _ hparam hvarnames hargcount =>
    have hext : Extends d.varnames (d.perform c).varnames := (d.extends_perform c).varnames
    rw [parameters_concat hparam]
    exact ⟨hargcount ▸ h.extend hext, hargcount.trans h.argcount⟩
  | other c hc hvarnames hargcount =>
    have hparam : ∀ y, c ≠ .param y := by
      rintro y rfl
      cases hc
    rw [parameters_concat hparam]
    exact ⟨by rw [hvarnames, hargcount, h.varnames], hargcount.trans h.argcount⟩

/-- The parameters come first as long as no command breaks a rule; by induction on the commands, of
which the last one is performed on the draft of those before. -/
theorem parametersFirst_performAll {name : String} {commands : List Command}
    (hfault : (performAll { name } commands).fault = none) :
    (performAll { name } commands).ParametersFirst (parameters commands) := by
  induction commands using List.reverseRecOn with
  | nil => exact ⟨rfl, rfl⟩
  | append_singleton before c ih =>
    rw [performAll_concat, fault_perform] at hfault
    obtain ⟨hbefore, hobject⟩ := Option.or_eq_none_iff.mp hfault
    rw [performAll_concat]
    exact (ih hbefore).perform hobject

end Draft

/-! ### Built code -/

namespace Draft

theorem items_performAll (d : Draft) (commands : List Command) :
    d.items.toList <+: (d.performAll commands).items.toList := by
  induction commands generalizing d with
  | nil => exact List.prefix_rfl
  | cons c rest ih =>
    refine List.IsPrefix.trans ?_ (ih (d.perform c))
    rw [items_perform]
    exact List.prefix_append _ _

theorem performAll_append (d : Draft) (before after : List Command) :
    d.performAll (before ++ after) = (d.performAll before).performAll after := List.foldl_append

/-- The item that a command emits is numbered by the items before it. -/
theorem getElem?_items_performAll {d : Draft} {c : Command} {item : Item}
    (hemit : d.emission c = some item) (after : List Command) :
    (d.performAll (c :: after)).items.toList[d.items.size]? = some item := by
  have hself : (d.perform c).items.toList[d.items.size]? = some item := by
    rw [items_perform, hemit, ← Array.length_toList]
    exact List.getElem?_concat_length
  obtain ⟨hlt, -⟩ := List.getElem?_eq_some_iff.mp hself
  obtain ⟨later, hlater⟩ := items_performAll (d.perform c) after
  show ((d.perform c).performAll after).items.toList[d.items.size]? = some item
  rw [← hlater, List.getElem?_append_left hlt]
  exact hself

end Draft

/-- `i` is the place that the command `c`, performed on the draft `d`, answers with, or that stands
in the instruction that it adds to the code, which is laid out in `slots`. -/
def Code.Carries (code : Code) (slots : List Slot) (d : Draft) (c : Command) (i : UInt32) : Prop :=
  match c.opcode? with
  | none => d.answer? c = some i
  | some op => ∃ s rest, slots[d.items.size]? = some s ∧
      s.item = ⟨op, .immediate i, d.line⟩ ∧ unitsFor i ≤ s.units ∧
      code.bytes.toList.drop (offsetOf slots d.items.size) = encode op i s.units ++ rest

theorem Draft.Encodes.carries {name : String} {before after : List Command} {c : Command}
    {bound : Array Nat} {slots : List Slot} {code : Code}
    (h : (performAll { name } (before ++ c :: after)).Encodes bound slots code) {e : Entry}
    (he : c.entry? = some e) :
    let d := performAll { name } before
    code.Carries slots d c (d.place e).1 := by
  intro d
  have hanswer := d.answer_or_emission he
  unfold Code.Carries
  cases hop : c.opcode? with
  | none =>
    rw [hop] at hanswer
    exact hanswer
  | some op =>
    rw [hop] at hanswer
    have hitem := getElem?_items_performAll hanswer after
    rw [← performAll_append, ← h.items, List.getElem?_map] at hitem
    obtain ⟨s, hs, hsitem⟩ := Option.map_eq_some_iff.mp hitem
    obtain ⟨hlt, rfl⟩ := List.getElem?_eq_some_iff.mp hs
    have hunits := unitsFor_le_of_widen_eq h.settled (List.getElem_mem hlt)
    have hbytes := drop_encodeAll bound (starts 0 slots).toArray hlt h.units_pos
    rw [hsitem] at hunits hbytes
    rw [← h.bytes_eq] at hbytes
    exact ⟨_, _, hs, hsitem, hunits, hbytes⟩

/-- The tables of built code are those of the draft, which lists each entry at the place that it was
first given. -/
theorem Draft.Encodes.lists {name : String} {before after : List Command} {c : Command}
    {bound : Array Nat} {slots : List Slot} {code : Code}
    (h : (performAll { name } (before ++ c :: after)).Encodes bound slots code)
    (hsize : code.Addressable) {e : Entry} (he : c.entry? = some e) :
    code.Lists ((performAll { name } before).place e).1 e := by
  have hext : ((performAll { name } before).place e).2.tables.Extends code := by
    have hlater := extends_performAll ((performAll { name } before).perform c) after
    rw [h.code_eq, ← tables_perform_of_entry he, performAll_append]
    exact ⟨hlater.varnames, hlater.names, hlater.consts⟩
  exact (lists_place (hsize.of_extends hext)).extend hext

/-- The parameters are the first variables of built code. -/
theorem Draft.Encodes.parameters {name : String} {commands : List Command} {bound : Array Nat}
    {slots : List Slot} {code : Code}
    (h : (performAll { name } commands).Encodes bound slots code) :
    code.varnames.toList.take code.argcount = Wordcode.parameters commands ∧
      code.argcount = (Wordcode.parameters commands).length := by
  obtain ⟨hvarnames, hargcount⟩ := parametersFirst_performAll h.fault
  rw [h.code_eq]
  exact ⟨hvarnames, hargcount⟩

end Wordcode
