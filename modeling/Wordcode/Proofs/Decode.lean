import Wordcode.Proofs.Layout

/-! Decoding undoes assembling: the instructions that built code decodes to are those of its items,
each behind its prefixes, with the arguments that the operands stand for. -/

namespace Wordcode

/-! ### One item -/

/-- A byte behind the bytes above it gives the argument back. -/
theorem foldArg_div (arg : UInt32) : foldArg (arg / 256) arg.toUInt8 = arg := by
  apply UInt32.toNat_inj.mp
  have hlt := arg.toNat_lt
  simp only [foldArg, UInt32.toNat_add, UInt32.toNat_mul, UInt32.toNat_div, UInt8.toNat_toUInt32,
    UInt32.toNat_toUInt8, UInt32.reduceToNat]
  omega

/-- What is above the lowest byte of an argument fits into one byte less. -/
theorem toNat_div_lt {arg : UInt32} {count : Nat} (h : arg.toNat < 256 ^ (count + 1)) :
    (arg / 256).toNat < 256 ^ count := by
  rw [Nat.pow_succ, Nat.mul_comm] at h
  rw [UInt32.toNat_div]
  exact Nat.div_lt_of_lt_mul h

theorem decode_byte (offset : Nat) (pending : UInt32) (op : Opcode) (low : UInt8)
    (rest : List UInt8) :
    decode offset pending (op.byte :: low :: rest) =
      ⟨offset, op, foldArg pending low⟩ ::
        decode (offset + 2) (if op = .extendedArg then foldArg pending low else 0) rest := by
  rw [decode, Opcode.ofByte?_byte]

/-- The prefixes, `count` of them from byte `offset` on, behind which the argument `arg` is
pending. -/
def prefixes (offset : Nat) : Nat → UInt32 → List Instruction
  | 0, _ => []
  | count + 1, arg =>
    prefixes offset count (arg / 256) ++ [⟨offset + 2 * count, .extendedArg, arg⟩]

@[simp] theorem length_prefixes (offset count : Nat) (arg : UInt32) :
    (prefixes offset count arg).length = count := by
  induction count generalizing arg with
  | zero => rfl
  | succ count ih => rw [prefixes, List.length_append, ih, List.length_singleton]

theorem opcode_of_mem_prefixes {offset count : Nat} {arg : UInt32} {i : Instruction}
    (h : i ∈ prefixes offset count arg) : i.opcode = .extendedArg := by
  induction count generalizing arg with
  | zero => cases h
  | succ count ih =>
    rw [prefixes, List.mem_append, List.mem_singleton] at h
    rcases h with h | rfl
    · exact ih h
    · rfl

/-- Prefixes decode to themselves, and what they carry is pending behind them. -/
theorem decode_prefixBytes (offset count : Nat) (arg : UInt32) (rest : List UInt8)
    (harg : arg.toNat < 256 ^ count) :
    decode offset 0 (prefixBytes count arg ++ rest) =
      prefixes offset count arg ++ decode (offset + 2 * count) arg rest := by
  induction count generalizing arg rest with
  | zero =>
    have hzero : arg = 0 := UInt32.toNat_inj.mp (Nat.lt_one_iff.mp harg)
    rw [hzero]
    rfl
  | succ count ih =>
    rw [prefixBytes, prefixes, List.append_assoc, ih _ _ (toNat_div_lt harg), List.append_assoc]
    congr 1
    rw [List.cons_append, List.singleton_append, decode_byte, if_pos rfl, foldArg_div]
    rfl

/-- The instructions of an item of `units` units: its prefixes and itself. -/
def unitList (offset : Nat) (op : Opcode) (arg : UInt32) (units : Nat) : List Instruction :=
  prefixes offset (units - 1) (arg / 256) ++ [⟨offset + 2 * (units - 1), op, arg⟩]

theorem length_unitList {offset : Nat} {op : Opcode} {arg : UInt32} {units : Nat}
    (hunits : 1 ≤ units) : (unitList offset op arg units).length = units := by
  rw [unitList, List.length_append, length_prefixes, List.length_singleton]
  omega

/-- An item that has room for its argument decodes to its units. -/
theorem decode_encode {op : Opcode} {arg : UInt32} {units : Nat} (offset : Nat)
    (rest : List UInt8) (hop : op ≠ .extendedArg) (hroom : unitsFor arg ≤ units) :
    decode offset 0 (encode op arg units ++ rest) =
      unitList offset op arg units ++ decode (offset + 2 * units) 0 rest := by
  have hpos := Nat.le_trans (unitsFor_pos arg) hroom
  have hlt := toNat_lt_of_unitsFor_le hroom
  have hdiv : (arg / 256).toNat < 256 ^ (units - 1) := by
    apply toNat_div_lt
    rwa [Nat.sub_add_cancel hpos]
  rw [encode, List.append_assoc, decode_prefixBytes _ _ _ _ hdiv, unitList, List.append_assoc]
  congr 1
  rw [List.cons_append, List.singleton_append, decode_byte, if_neg hop, foldArg_div,
    List.singleton_append, show offset + 2 * (units - 1) + 2 = offset + 2 * units by omega]

theorem length_prefixBytes (count : Nat) (arg : UInt32) :
    (prefixBytes count arg).length = 2 * count := by
  induction count generalizing arg with
  | zero => rfl
  | succ count ih =>
    rw [prefixBytes, List.length_append, ih]
    rfl

theorem length_encode {op : Opcode} {arg : UInt32} {units : Nat} (hunits : 1 ≤ units) :
    (encode op arg units).length = 2 * units := by
  rw [encode, List.length_append, length_prefixBytes]
  show 2 * (units - 1) + 2 = 2 * units
  omega

/-! ### All items -/

/-- The instructions of the slots from place `place` on, where `argument` says what the operands
stand for. -/
def listing (argument : Operand → UInt32) (place : Nat) : List Slot → List Instruction
  | [] => []
  | s :: rest =>
    unitList (2 * place) s.item.op (argument s.item.operand) s.units ++
      listing argument (place + s.units) rest

/-- A slot that holds no prefix and has room for its argument. -/
structure Slot.Fits (argument : Operand → UInt32) (s : Slot) : Prop where
  op : s.item.op ≠ .extendedArg
  room : unitsFor (argument s.item.operand) ≤ s.units

theorem Slot.Fits.pos {argument : Operand → UInt32} {s : Slot} (h : s.Fits argument) :
    1 ≤ s.units :=
  Nat.le_trans (unitsFor_pos _) h.room

variable {argument : Operand → UInt32} {slots : List Slot}

theorem decode_encodeAll {bound places : Array Nat} (place : Nat)
    (h : ∀ s ∈ slots, s.Fits (Operand.resolve bound places)) :
    decode (2 * place) 0 (encodeAll bound places slots) =
      listing (Operand.resolve bound places) place slots := by
  induction slots generalizing place with
  | nil => rfl
  | cons s rest ih =>
    obtain ⟨hs, hrest⟩ := List.forall_mem_cons.mp h
    rw [encodeAll, List.flatMap_cons, ← encodeAll, decode_encode _ _ hs.op hs.room, listing,
      ← Nat.mul_add, ih _ hrest]

theorem length_encodeAll {bound places : Array Nat} (h : ∀ s ∈ slots, 1 ≤ s.units) :
    (encodeAll bound places slots).length = 2 * (slots.map Slot.units).sum := by
  induction slots with
  | nil => rfl
  | cons s rest ih =>
    obtain ⟨hs, hrest⟩ := List.forall_mem_cons.mp h
    rw [encodeAll, List.flatMap_cons, ← encodeAll, List.length_append, length_encode hs,
      ih hrest, List.map_cons, List.sum_cons, Nat.mul_add]

/-- Behind the slots before it stands the encoding of a slot. -/
theorem drop_encodeAll (bound places : Array Nat) {slots : List Slot} {k : Nat}
    (hk : k < slots.length) (h : ∀ s ∈ slots, 1 ≤ s.units) :
    (encodeAll bound places slots).drop (2 * ((slots.take k).map Slot.units).sum) =
      encode slots[k].item.op (slots[k].item.operand.resolve bound places) slots[k].units ++
        encodeAll bound places (slots.drop (k + 1)) := by
  have hbefore : (encodeAll bound places (slots.take k)).length =
      2 * ((slots.take k).map Slot.units).sum :=
    length_encodeAll fun s hs => h s (List.mem_of_mem_take hs)
  have hsplit : encodeAll bound places slots =
      encodeAll bound places (slots.take k) ++ encodeAll bound places (slots.drop k) := by
    rw [encodeAll, encodeAll, encodeAll, ← List.flatMap_append, List.take_append_drop]
  rw [hsplit, ← hbefore, List.drop_left, List.drop_eq_getElem_cons hk, encodeAll,
    List.flatMap_cons]
  rfl

theorem length_listing (place : Nat) (h : ∀ s ∈ slots, 1 ≤ s.units) :
    (listing argument place slots).length = (slots.map Slot.units).sum := by
  induction slots generalizing place with
  | nil => rfl
  | cons s rest ih =>
    obtain ⟨hs, hrest⟩ := List.forall_mem_cons.mp h
    rw [listing, List.length_append, length_unitList hs, ih _ hrest, List.map_cons, List.sum_cons]

theorem exists_slot_of_mem_listing {place : Nat} {i : Instruction}
    (h : i ∈ listing argument place slots) :
    ∃ s ∈ slots, ∃ offset, i ∈ unitList offset s.item.op (argument s.item.operand) s.units := by
  induction slots generalizing place with
  | nil => cases h
  | cons s rest ih =>
    rw [listing, List.mem_append] at h
    rcases h with hfirst | hrest
    · exact ⟨s, List.mem_cons_self, _, hfirst⟩
    · obtain ⟨s', hs', hmem⟩ := ih hrest
      exact ⟨s', List.mem_cons_of_mem s hs', hmem⟩

theorem filter_unitList {offset : Nat} {op : Opcode} {arg : UInt32} {units : Nat}
    (hop : op ≠ .extendedArg) :
    (unitList offset op arg units).filter (fun i => i.opcode ≠ .extendedArg) =
      [⟨offset + 2 * (units - 1), op, arg⟩] := by
  have hnil : (prefixes offset (units - 1) (arg / 256)).filter
      (fun i => i.opcode ≠ .extendedArg) = [] := by
    refine List.filter_eq_nil_iff.mpr fun i hi => ?_
    simp [opcode_of_mem_prefixes hi]
  rw [unitList, List.filter_append, hnil, List.nil_append, List.filter_singleton]
  simp [hop]

/-- Without its prefixes, the listing has one instruction for each slot. -/
theorem filter_listing (place : Nat) (h : ∀ s ∈ slots, s.Fits argument) :
    List.Forall₂ (fun s i => i.opcode = s.item.op ∧ i.arg = argument s.item.operand) slots
      ((listing argument place slots).filter fun i => i.opcode ≠ .extendedArg) := by
  induction slots generalizing place with
  | nil => exact .nil
  | cons s rest ih =>
    obtain ⟨hs, hrest⟩ := List.forall_mem_cons.mp h
    rw [listing, List.filter_append, filter_unitList hs.op, List.singleton_append]
    exact .cons ⟨rfl, rfl⟩ (ih _ hrest)

/-! ### Places in decoded code -/

/-- The places behind the instructions that are no prefixes, where the first instruction is at
`place`. -/
def boundaries (place : Nat) : List Instruction → List Nat
  | [] => []
  | i :: rest =>
    if i.opcode = .extendedArg then boundaries (place + 1) rest
    else (place + 1) :: boundaries (place + 1) rest

/-- The places at which a code object can be cut without parting a prefix from its instruction: the
first unit of each item, and the end. -/
def Code.places (code : Code) : List Nat := 0 :: boundaries 0 code.instructions

/-- A place is inside an item when the instruction before it is a prefix. -/
def Code.Inside (code : Code) (place : Nat) : Prop :=
  ∃ before i, place = before + 1 ∧ code.instructions[before]? = some i ∧ i.opcode = .extendedArg

theorem boundaries_prefixes (place offset count : Nat) (arg : UInt32) (rest : List Instruction) :
    boundaries place (prefixes offset count arg ++ rest) = boundaries (place + count) rest := by
  induction count generalizing arg rest with
  | zero => rfl
  | succ count ih =>
    rw [prefixes, List.append_assoc, ih, List.singleton_append, boundaries, if_pos rfl,
      Nat.add_assoc]

/-- The places of a listing are where its slots start. -/
theorem boundaries_listing (place : Nat) (h : ∀ s ∈ slots, s.Fits argument) :
    place :: boundaries place (listing argument place slots) = starts place slots := by
  induction slots generalizing place with
  | nil => rfl
  | cons s rest ih =>
    obtain ⟨hs, hrest⟩ := List.forall_mem_cons.mp h
    have hpos := hs.pos
    rw [listing, unitList, List.append_assoc, boundaries_prefixes, List.singleton_append,
      boundaries, if_neg hs.op, starts, ← ih _ hrest,
      show place + (s.units - 1) + 1 = place + s.units by omega]

theorem lt_of_mem_boundaries {place p : Nat} {l : List Instruction} (h : p ∈ boundaries place l) :
    place < p := by
  induction l generalizing place with
  | nil => cases h
  | cons i rest ih =>
    rw [boundaries] at h
    split at h
    · exact Nat.lt_of_succ_lt (ih h)
    · rcases List.mem_cons.mp h with rfl | hmem
      · exact Nat.lt_succ_self place
      · exact Nat.lt_of_succ_lt (ih hmem)

/-- The instruction before a boundary is no prefix. -/
theorem opcode_ne_of_mem_boundaries (place : Nat) {before : Nat} {l : List Instruction}
    {i : Instruction} (h : place + before + 1 ∈ boundaries place l) (hi : l[before]? = some i) :
    i.opcode ≠ .extendedArg := by
  induction l generalizing place before with
  | nil => cases hi
  | cons first rest ih =>
    have hlater : place + before + 1 ∈ boundaries (place + 1) rest → before ≠ 0 := by
      intro hmem hzero
      have := lt_of_mem_boundaries hmem
      omega
    cases before with
    | zero =>
      cases hi
      intro hop
      rw [boundaries, if_pos hop] at h
      exact hlater h rfl
    | succ before =>
      rw [List.getElem?_cons_succ] at hi
      refine ih (place + 1) ?_ hi
      rw [boundaries] at h
      rw [show place + 1 + before + 1 = place + (before + 1) + 1 by omega]
      split at h
      · exact h
      · rcases List.mem_cons.mp h with heq | hmem
        · omega
        · exact hmem

/-! ### Built code -/

/-- The instruction `i` is what an item decodes to, where the labels are bound as in `labels` and
the items are at `places`: it has the item's opcode and the argument that its operand stands for,
which for a label is the place of the item that the label is bound to. -/
def Item.DecodesTo (labels : Array (Option Nat)) (places : List Nat) (item : Item)
    (i : Instruction) : Prop :=
  i.opcode = item.op ∧
    match item.operand with
    | .none => i.arg = 0
    | .immediate arg => i.arg = arg
    | .label id =>
      ∃ k : Nat, labels[id]? = some (some k) ∧ places[k]? = some i.arg.toNat

namespace Draft.Encodes

variable {d : Draft} {bound : Array Nat} {code : Code}

theorem fits (h : d.Encodes bound slots code)
    (hop : ∀ item ∈ d.items.toList, item.op ≠ .extendedArg) :
    ∀ s ∈ slots, s.Fits (Operand.resolve bound (starts 0 slots).toArray) :=
  fun _ hs => ⟨hop _ (h.item_mem hs), unitsFor_le_of_widen_eq h.settled hs⟩

theorem bytes_eq (h : d.Encodes bound slots code) :
    code.bytes.toList = encodeAll bound (starts 0 slots).toArray slots := by
  rw [h.code_eq]
  rfl

section

variable (h : d.Encodes bound slots code)
  (hop : ∀ item ∈ d.items.toList, item.op ≠ .extendedArg)
include h hop

theorem size_bytes : code.bytes.size = 2 * (slots.map Slot.units).sum := by
  rw [← Array.length_toList, h.bytes_eq, length_encodeAll fun s hs => (h.fits hop s hs).pos]

theorem instructionCount_eq : code.instructionCount = (slots.map Slot.units).sum := by
  rw [Code.instructionCount, h.size_bytes hop, Nat.mul_div_cancel_left _ (by decide)]

theorem instructions_eq :
    code.instructions = listing (Operand.resolve bound (starts 0 slots).toArray) 0 slots := by
  rw [Code.instructions, h.bytes_eq]
  exact decode_encodeAll 0 (h.fits hop)

theorem places_eq : code.places = starts 0 slots := by
  rw [Code.places, h.instructions_eq hop, boundaries_listing 0 (h.fits hop)]

/-- An argument that a slot was encoded with is the one that its operand stands for. -/
theorem decodesTo (hbound : d.Bounded) (hsize : code.instructionCount < 2 ^ 32) {s : Slot}
    (hs : s ∈ slots) {i : Instruction} (hi : i.opcode = s.item.op)
    (harg : i.arg = s.item.operand.resolve bound (starts 0 slots).toArray) :
    s.item.DecodesTo d.labels code.places i := by
  refine ⟨hi, ?_⟩
  rw [harg]
  cases hoperand : s.item.operand with
  | none => rfl
  | immediate arg => rfl
  | label id =>
    obtain ⟨k, hlabel, hk⟩ := h.bound_eq _ (h.item_mem hs) id hoperand
    have hle : k ≤ slots.length := h.length_slots ▸ hbound id k hlabel
    have hplace := getElem?_starts 0 hle
    have htotal : ((slots.take k).map Slot.units).sum ≤ code.instructionCount := by
      rw [h.instructionCount_eq hop, ← List.take_append_drop k slots, List.map_append,
        List.sum_append, List.take_append_drop]
      exact Nat.le_add_right _ _
    rw [Nat.zero_add] at hplace
    have hresolve : Operand.resolve bound (starts 0 slots).toArray (.label id) =
        UInt32.ofNat ((slots.take k).map Slot.units).sum := by
      rw [Operand.resolve, hk, Array.getD_eq_getD_getElem?, List.getElem?_toArray, hplace]
      rfl
    refine ⟨k, hlabel, ?_⟩
    rw [h.places_eq hop, hresolve, hplace,
      UInt32.toNat_ofNat_of_lt' (Nat.lt_of_le_of_lt htotal hsize)]

end

end Draft.Encodes

/-- The items of commands that emit no prefix are no prefixes. -/
theorem Draft.op_ne_extendedArg {name : String} {commands : List Command}
    (hfault : (performAll { name } commands).fault = none)
    (hplain : ∀ arg, .emitArg .extendedArg arg ∉ commands) :
    ∀ item ∈ (performAll { name } commands).items.toList, item.op ≠ .extendedArg := by
  intro item hitem hop
  rcases exists_emission hfault hitem with hmem | ⟨c, hc, d, hobject, hemit⟩
  · cases hmem
  · rcases emission_of_raw hobject hemit (Or.inl hop) with ⟨id, hid⟩ | ⟨arg, rfl⟩
    · have hjump := isJump_of_emission hobject hemit hid
      rw [hop] at hjump
      cases hjump
    · exact hplain arg (hop ▸ hc)

/-- Decoding undoes assembling.  Code of fewer than 2^32 instructions that was built from commands
without explicit prefixes decodes completely, to one instruction for each item once the prefixes are
left out; and no place that a label stands for is inside an item. -/
theorem instructions_of_assemble {name : String} {commands : List Command} {code : Code}
    (hbuild : assemble name commands = .ok code)
    (hplain : ∀ arg, .emitArg .extendedArg arg ∉ commands)
    (hsize : code.instructionCount < 2 ^ 32) :
    let d := Draft.performAll { name } commands
    code.bytes.size = 2 * code.instructions.length ∧
      code.instructions.length = code.instructionCount ∧
      List.Forall₂ (Item.DecodesTo d.labels code.places) d.items.toList
        (code.instructions.filter fun i => i.opcode ≠ .extendedArg) ∧
      code.places.length = d.items.size + 1 ∧
      code.places.getLast? = some code.instructionCount ∧
      ∀ place ∈ code.places, ¬code.Inside place := by
  intro d
  obtain ⟨bound, slots, h⟩ := Draft.exists_encodes hbuild
  have hop := Draft.op_ne_extendedArg h.fault hplain
  have hpos : ∀ s ∈ slots, 1 ≤ s.units := fun s hs => (h.fits hop s hs).pos
  have hcount := h.instructionCount_eq hop
  have hlength : code.instructions.length = code.instructionCount := by
    rw [h.instructions_eq hop, length_listing 0 hpos, hcount]
  refine ⟨?_, hlength, ?_, ?_, ?_, ?_⟩
  · rw [hlength, hcount, h.size_bytes hop]
  · have hlist := filter_listing 0 (h.fits hop)
    rw [← h.instructions_eq hop] at hlist
    rw [← h.items, List.forall₂_map_left_iff]
    have hmem := (List.forall₂_and_left (p := (· ∈ slots)) slots _).mpr ⟨fun _ hs => hs, hlist⟩
    refine hmem.imp fun s i ⟨hs, hi, harg⟩ => ?_
    exact h.decodesTo hop (Draft.bounded_performAll name commands) hsize hs hi harg
  · rw [h.places_eq hop, length_starts, h.length_slots]
  · rw [h.places_eq hop, getLast?_starts, hcount, Nat.zero_add]
  · rintro place hplace ⟨before, i, rfl, hi, hext⟩
    rw [Code.places, List.mem_cons] at hplace
    rcases hplace with hzero | hmem
    · omega
    · refine opcode_ne_of_mem_boundaries 0 ?_ hi hext
      rwa [Nat.zero_add]

/-- A jump over an instruction with two prefixes. -/
theorem instructions_of_assemble_skip :
    let commands := [.newLabel, .emitJump .jumpAbsolute 0, .emitArg .buildMap 70000, .bind 0, .ret]
    ∃ code, assemble "skip" commands = .ok code ∧ (∀ arg, .emitArg .extendedArg arg ∉ commands) ∧
      code.instructionCount < 2 ^ 32 ∧
      List.Forall₂ (Item.DecodesTo #[some 2] code.places)
        [⟨.jumpAbsolute, .label 0, 1⟩, ⟨.buildMap, .immediate 70000, 1⟩, ⟨.returnValue, .none, 1⟩]
        (code.instructions.filter fun i => i.opcode ≠ .extendedArg) := by
  intro commands
  let d := Draft.performAll { name := "skip" } commands
  have hbuild : assemble "skip" commands = .ok (d.toCode #[2] (layout #[2] d.items.toList)) := rfl
  have hlayout : layout #[2] d.items.toList =
      [⟨⟨.jumpAbsolute, .label 0, 1⟩, 1⟩, ⟨⟨.buildMap, .immediate 70000, 1⟩, 3⟩,
        ⟨⟨.returnValue, .none, 1⟩, 1⟩] := by
    rw [layout_eq_widen rfl (by decide)]
    decide
  rw [hlayout] at hbuild
  have hplain : ∀ arg, .emitArg .extendedArg arg ∉ commands := by simp [commands]
  have hsize : (d.toCode #[2] [⟨⟨.jumpAbsolute, .label 0, 1⟩, 1⟩,
      ⟨⟨.buildMap, .immediate 70000, 1⟩, 3⟩,
      ⟨⟨.returnValue, .none, 1⟩, 1⟩]).instructionCount < 2 ^ 32 := by
    decide
  exact ⟨_, hbuild, hplain, hsize, (instructions_of_assemble hbuild hplain hsize).2.2.1⟩

end Wordcode
