import Wordcode.Proofs.Decode
import Wordcode.Proofs.Faults

/-! Words: built code is a sequence of whole instructions, so a frame whose offset is even finds an
instruction there or has run past the end, and the argument that is pending behind prefixes is at
most the one that decoding from the start has pending there. -/

namespace Wordcode

/-! ### Code of whole instructions -/

/-- The bytes of opcodes with their argument bytes. -/
def wordBytes (words : List (Opcode × UInt8)) : List UInt8 :=
  words.flatMap fun w => [w.1.byte, w.2]

theorem wordBytes_append (words later : List (Opcode × UInt8)) :
    wordBytes (words ++ later) = wordBytes words ++ wordBytes later := List.flatMap_append

/-- The words of so many prefixes that carry the low bytes of `arg`. -/
def prefixWords : Nat → UInt32 → List (Opcode × UInt8)
  | 0, _ => []
  | count + 1, arg => prefixWords count (arg / 256) ++ [(.extendedArg, arg.toUInt8)]

/-- The words of an item, its prefixes first. -/
def Slot.words (bound places : Array Nat) (s : Slot) : List (Opcode × UInt8) :=
  let arg := s.item.operand.resolve bound places
  prefixWords (s.units - 1) (arg / 256) ++ [(s.item.op, arg.toUInt8)]

theorem wordBytes_prefixWords (count : Nat) (arg : UInt32) :
    wordBytes (prefixWords count arg) = prefixBytes count arg := by
  induction count generalizing arg with
  | zero => rfl
  | succ count ih =>
    rw [prefixWords, wordBytes_append, ih, prefixBytes]
    rfl

theorem wordBytes_flatMap_words (bound places : Array Nat) (slots : List Slot) :
    wordBytes (slots.flatMap (Slot.words bound places)) = encodeAll bound places slots := by
  induction slots with
  | nil => rfl
  | cons s rest ih =>
    rw [List.flatMap_cons, wordBytes_append, ih, Slot.words, wordBytes_append,
      wordBytes_prefixWords, encodeAll, encodeAll, List.flatMap_cons, encode]
    rfl

theorem opcode_of_mem_prefixWords {count : Nat} {arg : UInt32} {w : Opcode × UInt8}
    (h : w ∈ prefixWords count arg) : w.1 = .extendedArg := by
  induction count generalizing arg with
  | zero => cases h
  | succ count ih =>
    rcases List.mem_append.mp h with h | h
    · exact ih h
    · rw [List.mem_singleton.mp h]

/-- Built code consists of words, and those of opcodes that take no argument have the byte 0. -/
theorem exists_words_of_assemble {name : String} {commands : List Command} {code : Code}
    (h : assemble name commands = .ok code) :
    ∃ words, code.bytes.toList = wordBytes words ∧
      ∀ w ∈ words, w.1.hasArg = false → w.2 = 0 := by
  obtain ⟨bound, slots, henc⟩ := Draft.exists_encodes h
  refine ⟨slots.flatMap (Slot.words bound (starts 0 slots).toArray), ?_, ?_⟩
  · rw [henc.bytes_eq, wordBytes_flatMap_words]
  · intro w hw harg
    obtain ⟨s, hs, hw⟩ := List.mem_flatMap.mp hw
    rcases List.mem_append.mp hw with hprefix | hitem
    · rw [opcode_of_mem_prefixWords hprefix] at harg
      cases harg
    · obtain rfl := List.mem_singleton.mp hitem
      have hemission := Draft.exists_emission henc.fault (henc.item_mem hs)
      rcases hemission with hnone | ⟨c, -, d, hobject, hemit⟩
      · cases hnone
      · rw [Draft.operand_of_emission hobject hemit harg]
        rfl

theorem getElem?_wordBytes (words : List (Opcode × UInt8)) (k : Nat) :
    (wordBytes words)[2 * k]? = words[k]?.map (·.1.byte) ∧
      (wordBytes words)[2 * k + 1]? = words[k]?.map (·.2) := by
  induction words generalizing k with
  | nil => exact ⟨rfl, rfl⟩
  | cons w rest ih =>
    cases k with
    | zero => exact ⟨rfl, rfl⟩
    | succ k => exact ih k

/-- At an even offset there is an instruction, or the end of the code. -/
theorem Frame.fetch_of_words {f : Frame} {words : List (Opcode × UInt8)}
    (hwords : f.code.bytes.toList = wordBytes words) {k : Nat} (hpc : f.pc = 2 * k) :
    f.fetch = match words[k]? with
      | some w => .ok w
      | none => .error (.pastEnd f.code.name f.pc) := by
  obtain ⟨hbyte, hlow⟩ := getElem?_wordBytes words k
  rw [← hwords, Array.getElem?_toList, ← hpc] at hbyte hlow
  unfold fetch
  rw [hbyte, hlow]
  cases words[k]? with
  | none => rfl
  | some w => simp only [Option.map_some, Opcode.ofByte?_byte]

/-! ### What is pending -/

/-- The argument that is pending at instruction `k` of a list that is decoded with `pending` before
its first. -/
def pendingAt (pending : UInt32) (l : List Instruction) : Nat → UInt32
  | 0 => pending
  | k + 1 =>
    match l[k]? with
    | some i => if i.opcode = .extendedArg then i.arg else 0
    | none => 0

theorem pendingAt_succ_cons (pending : UInt32) (i : Instruction) (l : List Instruction) (k : Nat) :
    pendingAt pending (i :: l) (k + 1) =
      pendingAt (if i.opcode = .extendedArg then i.arg else 0) l k := by
  cases k <;> rfl

/-- Each word decodes to one instruction, whose argument is its byte behind what is pending. -/
theorem getElem?_decode_wordBytes (offset : Nat) (pending : UInt32) (words : List (Opcode × UInt8))
    (k : Nat) :
    (decode offset pending (wordBytes words))[k]? = words[k]?.map fun w =>
      ⟨offset + 2 * k, w.1, foldArg (pendingAt pending (decode offset pending (wordBytes words)) k)
        w.2⟩ := by
  induction words generalizing offset pending k with
  | nil => rfl
  | cons w rest ih =>
    have hdecode : decode offset pending (wordBytes (w :: rest)) = _ :=
      decode_byte offset pending w.1 w.2 (wordBytes rest)
    rw [hdecode]
    cases k with
    | zero => rfl
    | succ k =>
      rw [List.getElem?_cons_succ, List.getElem?_cons_succ, ih, pendingAt_succ_cons,
        show offset + 2 + 2 * k = offset + 2 * (k + 1) by omega]

end Wordcode
