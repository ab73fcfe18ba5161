import Wordcode.Proofs.Decode
import Wordcode.Proofs.Symbolic

/-! Built code item by item: where the bytes of each item are, and what the machine does when it
comes to them.  It executes the prefixes first, behind which the item's instruction finds the
argument that the operand stands for. -/

namespace Wordcode

/-! ### Sources -/

/-- Whether a command leaves prefixes and the arguments of jumps to the assembler. -/
def Command.isSymbolic : Command → Bool
  | .emitArg op _ => op ≠ .extendedArg && !op.isJump
  | _ => true

/-- `code` is what a source assembles to, and short enough for all its places to be arguments. -/
structure Source.Assembles (src : Source) (code : Code) : Prop where
  build : assemble src.name src.commands = .ok code
  symbolic : ∀ c ∈ src.commands, c.isSymbolic = true
  size : code.instructionCount < 2 ^ 32

/-- The number of prefixes of item `k`: the prefixes in a row at its place. -/
def Code.prefixCount (code : Code) (k : Nat) : Nat :=
  ((code.instructions.drop (code.places.getD k 0)).takeWhile
    fun i => i.opcode = .extendedArg).length

/-- The item is at the place `place` of the code object: `units` units that hold the argument that
its operand stands for. -/
structure Item.At (item : Item) (d : Draft) (code : Code) (place units : Nat) (arg : UInt32) :
    Prop where
  op : item.op ≠ .extendedArg
  room : unitsFor arg ≤ units
  bytes : ∃ rest, code.bytes.toList.drop (2 * place) = encode item.op arg units ++ rest
  decodes : item.DecodesTo d.labels code.places ⟨2 * (place + units - 1), item.op, arg⟩

theorem listing_append (argument : Operand → UInt32) (place : Nat) (slots later : List Slot) :
    listing argument place (slots ++ later) =
      listing argument place slots ++
        listing argument (place + (slots.map Slot.units).sum) later := by
  induction slots generalizing place with
  | nil => rfl
  | cons s rest ih =>
    rw [List.cons_append, listing, listing, ih, List.append_assoc, List.map_cons, List.sum_cons,
      Nat.add_assoc]

/-- The instructions at the place of a slot begin with its prefixes, and no more of them. -/
theorem takeWhile_listing {argument : Operand → UInt32} {slots : List Slot} {k : Nat}
    (hk : k < slots.length) (h : ∀ s ∈ slots, s.Fits argument) :
    (((listing argument 0 slots).drop ((slots.take k).map Slot.units).sum).takeWhile
      fun i => i.opcode = .extendedArg).length = slots[k].units - 1 := by
  have hbefore : (listing argument 0 (slots.take k)).length = ((slots.take k).map Slot.units).sum :=
    length_listing 0 fun s hs => (h s (List.mem_of_mem_take hs)).pos
  have hsplit := listing_append argument 0 (slots.take k) (slots.drop k)
  have hop := (h slots[k] (List.getElem_mem hk)).op
  rw [List.take_append_drop] at hsplit
  rw [hsplit, ← hbefore, List.drop_left, List.drop_eq_getElem_cons hk, listing, unitList,
    List.append_assoc, List.takeWhile_append_of_pos, List.length_append, length_prefixes,
    List.singleton_append, List.takeWhile_cons_of_neg (by simpa using hop)]
  · rfl
  · intro i hi
    simpa using opcode_of_mem_prefixes hi

namespace Source.Assembles

variable {src : Source} {code : Code} (h : src.Assembles code)
include h

theorem sameTables : src.tables.SameTables code := by
  obtain ⟨bound, slots, henc⟩ := Draft.exists_encodes h.build
  rw [henc.code_eq]
  exact ⟨rfl, rfl, rfl, rfl⟩

theorem argcount_eq : code.argcount = src.tables.argcount := by
  obtain ⟨bound, slots, henc⟩ := Draft.exists_encodes h.build
  rw [henc.code_eq]
  rfl

theorem plain : ∀ arg, .emitArg .extendedArg arg ∉ src.commands := by
  intro arg hmem
  cases h.symbolic _ hmem

theorem fault_eq_none : src.draft.fault = none := by
  obtain ⟨bound, slots, henc⟩ := Draft.exists_encodes h.build
  exact henc.fault

theorem isJump_of_label {item : Item} (hitem : item ∈ src.draft.items.toList) {id : Nat}
    (hoperand : item.operand = .label id) : item.op.isJump = true := by
  rcases Draft.exists_emission h.fault_eq_none hitem with hmem | ⟨c, -, d, hobject, hemit⟩
  · cases hmem
  · exact Draft.isJump_of_emission hobject hemit hoperand

theorem exists_label_of_isJump {item : Item} (hitem : item ∈ src.draft.items.toList)
    (hop : item.op.isJump = true) : ∃ id, item.operand = .label id := by
  rcases Draft.exists_emission h.fault_eq_none hitem with hmem | ⟨c, hc, d, hobject, hemit⟩
  · cases hmem
  · rcases Draft.emission_of_raw hobject hemit (Or.inr hop) with hlabel | ⟨arg, rfl⟩
    · exact hlabel
    · have hsymbolic := h.symbolic _ hc
      simp [Command.isSymbolic, hop] at hsymbolic

/-- Each item of the source is in the code, at the place of its number. -/
theorem exists_at {k : Nat} {item : Item} (hitem : src.draft.items[k]? = some item) :
    ∃ place units arg, code.places[k]? = some place ∧
      code.places[k + 1]? = some (place + units) ∧ code.prefixCount k + 1 = units ∧
      item.At src.draft code place units arg := by
  obtain ⟨bound, slots, henc⟩ := Draft.exists_encodes h.build
  have hop := Draft.op_ne_extendedArg henc.fault h.plain
  have hfits := henc.fits hop
  obtain ⟨hk, rfl⟩ := Array.getElem?_eq_some_iff.mp hitem
  have hk' : k < slots.length := by rwa [henc.length_slots]
  have hslot : slots[k].item = src.draft.items[k] := by
    have hmap := congrArg (fun l => l[k]?) henc.items
    simp only [List.getElem?_map, List.getElem?_eq_getElem hk', Array.getElem?_toList] at hmap
    exact Option.some.inj (hmap.trans hitem)
  have hmem : slots[k] ∈ slots := List.getElem_mem hk'
  have hdecodes := henc.decodesTo hop (Draft.bounded_performAll src.name src.commands) h.size hmem
    (i := ⟨2 * (((slots.take k).map Slot.units).sum + slots[k].units - 1), slots[k].item.op, _⟩)
    rfl rfl
  have hbytes := drop_encodeAll bound (starts 0 slots).toArray hk' fun s hs => (hfits s hs).pos
  rw [← henc.bytes_eq] at hbytes
  have hplace := getElem?_starts 0 (Nat.le_of_lt hk')
  have hnext := getElem?_starts 0 (Nat.succ_le_of_lt hk')
  rw [← henc.places_eq hop, Nat.zero_add] at hplace hnext
  rw [List.take_succ_eq_append_getElem hk', List.map_append, List.sum_append] at hnext
  rw [hslot] at hdecodes hbytes
  refine ⟨_, slots[k].units, _, hplace, ?_, ?_, ?_, ?_, ⟨_, hbytes⟩, hdecodes⟩
  · rw [hnext]
    simp
  · have hpos := (hfits _ hmem).pos
    rw [Code.prefixCount, List.getD_eq_getElem?_getD, hplace, henc.instructions_eq hop,
      Option.getD_some, takeWhile_listing hk' hfits]
    omega
  · exact hop _ (Array.getElem_mem_toList hk)
  · rw [← hslot]
    exact (hfits _ hmem).room

/-- Behind the last item the code ends. -/
theorem size_bytes_eq {place : Nat} (hplace : code.places[src.draft.items.size]? = some place) :
    code.bytes.size = 2 * place := by
  obtain ⟨bound, slots, henc⟩ := Draft.exists_encodes h.build
  have hop := Draft.op_ne_extendedArg henc.fault h.plain
  have hlength : src.draft.items.size = slots.length := henc.length_slots.symm
  have hlast := getElem?_starts 0 (Nat.le_refl slots.length)
  rw [← henc.places_eq hop, List.take_length, Nat.zero_add] at hlast
  rw [hlength, hlast] at hplace
  rw [henc.size_bytes hop, Option.some.inj hplace]

/-- A place has the number of an item, or of the end. -/
theorem le_of_places {k place : Nat} (hplace : code.places[k]? = some place) :
    k ≤ src.draft.items.size := by
  obtain ⟨bound, slots, henc⟩ := Draft.exists_encodes h.build
  have hop := Draft.op_ne_extendedArg henc.fault h.plain
  obtain ⟨hk, -⟩ := List.getElem?_eq_some_iff.mp hplace
  have hlength : slots.length = src.draft.items.size := henc.length_slots
  rw [henc.places_eq hop, length_starts] at hk
  omega

end Source.Assembles

/-! ### Execution of an item -/

/-- The machine `vm` when it has executed `n` instructions. -/
def Vm.withExecuted (vm : Vm) (n : Nat) : Vm := { vm with executed := n }

/-- A frame that comes to the bytes of an instruction fetches it. -/
theorem Frame.fetch_of_drop {f : Frame} {op : Opcode} {low : UInt8} {rest : List UInt8}
    (h : f.code.bytes.toList.drop f.pc = op.byte :: low :: rest) : f.fetch = .ok (op, low) := by
  have hget : ∀ i, f.code.bytes[f.pc + i]? = (op.byte :: low :: rest)[i]? := by
    intro i
    rw [← h, List.getElem?_drop, Array.getElem?_toList]
  have hbyte : f.code.bytes[f.pc]? = some op.byte := hget 0
  have hlow : f.code.bytes[f.pc + 1]? = some low := hget 1
  rw [fetch, hbyte, hlow]
  dsimp only
  rw [Opcode.ofByte?_byte]

/-- A frame that has come past prefixes fetches the instruction behind them. -/
theorem Frame.fetch_behind {f : Frame} {count : Nat} {arg : UInt32} {op : Opcode} {low : UInt8}
    {rest : List UInt8}
    (h : f.code.bytes.toList.drop f.pc = prefixBytes count arg ++ (op.byte :: low :: rest))
    (pending : UInt32) (lasti : Nat) :
    ({ f with pc := f.pc + 2 * count, pending, lasti } : Frame).fetch = .ok (op, low) := by
  apply fetch_of_drop
  show f.code.bytes.toList.drop (f.pc + 2 * count) = _
  rw [← List.drop_drop, h, ← length_prefixBytes count arg, List.drop_left]

/-- A frame that is behind its last byte fetches nothing. -/
theorem Frame.fetch_of_size_le {f : Frame} (h : f.code.bytes.size ≤ f.pc) :
    f.fetch = .error (.pastEnd f.code.name f.pc) := by
  rw [fetch, Array.getElem?_eq_none h]

namespace Machine

variable {f : Frame} {rest : List UInt8} (vm : Vm) (callers : List Frame)

theorem iterate_prefixes {count : Nat} {arg : UInt32} (hpending : f.pending = 0)
    (hbytes : f.code.bytes.toList.drop f.pc = prefixBytes count arg ++ rest)
    (harg : arg.toNat < 256 ^ count) :
    ∃ lasti, (step none)^[count] ⟨vm, (), .running f callers⟩ =
      ⟨vm.withExecuted (vm.executed + count), (),
        .running { f with pc := f.pc + 2 * count, pending := arg, lasti } callers⟩ := by
  induction count generalizing arg rest with
  | zero =>
    have hzero : arg = 0 := UInt32.toNat_inj.mp (Nat.lt_one_iff.mp harg)
    refine ⟨f.lasti, ?_⟩
    rw [hzero, ← hpending]
    rfl
  | succ count ih =>
    rw [prefixBytes, List.append_assoc] at hbytes
    obtain ⟨lasti, hrun⟩ := ih hbytes (toNat_div_lt harg)
    refine ⟨f.pc + 2 * count, ?_⟩
    rw [Function.iterate_succ_apply', hrun]
    show executeNext none (vm.withExecuted (vm.executed + count)) ()
      { f with pc := f.pc + 2 * count, pending := arg / 256, lasti } callers = _
    rw [executeNext_none (Frame.fetch_behind hbytes (arg / 256) lasti)]
    show proceed none () callers (execute _ (foldArg (arg / 256) arg.toUInt8) _ _) = _
    rw [foldArg_div]
    rfl

/-- The steps of an item: its prefixes, and its instruction with its whole argument, in a frame that
was advanced past it. -/
theorem iterate_item {op : Opcode} {arg : UInt32} {units : Nat} (hop : op ≠ .extendedArg)
    (hroom : unitsFor arg ≤ units) (hpending : f.pending = 0)
    (hbytes : f.code.bytes.toList.drop f.pc = encode op arg units ++ rest) :
    ∃ lasti, (step none)^[units] ⟨vm, (), .running f callers⟩ =
      proceed none () callers (execute op arg (vm.withExecuted (vm.executed + units))
        { f with pc := f.pc + 2 * units, lasti }) := by
  have hpos := Nat.le_trans (unitsFor_pos arg) hroom
  obtain ⟨count, rfl⟩ : ∃ count, units = count + 1 := ⟨units - 1, by omega⟩
  rw [encode, Nat.add_sub_cancel, List.append_assoc] at hbytes
  obtain ⟨lasti, hrun⟩ :=
    iterate_prefixes vm callers hpending hbytes (toNat_div_lt (toNat_lt_of_unitsFor_le hroom))
  refine ⟨f.pc + 2 * count, ?_⟩
  let g : Frame := { f with pc := f.pc + 2 * count, pending := arg / 256, lasti }
  have hadvance : g.advance op arg =
      { f with pc := f.pc + 2 * (count + 1), lasti := f.pc + 2 * count } := by
    rw [Frame.advance, if_neg hop, ← hpending]
    rfl
  rw [Function.iterate_succ_apply', hrun]
  show executeNext none (vm.withExecuted (vm.executed + count)) () g callers = _
  rw [executeNext_none (Frame.fetch_behind hbytes (arg / 256) lasti)]
  show proceed none () callers (execute _ (foldArg (arg / 256) arg.toUInt8) _ _) = _
  rw [foldArg_div, ← hadvance]
  rfl

end Machine

end Wordcode
