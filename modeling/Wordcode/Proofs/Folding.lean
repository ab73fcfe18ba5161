import Wordcode.Proofs.Activations
import Wordcode.Proofs.Safety

/-! Folding: prefixes are folded into arguments twice, by the decoder along the bytes and by a frame
along its route.  Both give an instruction the same argument, unless a jump parts it from its
prefixes; and in that argument only the lowest 32 bits of what is spelled are left. -/

namespace Wordcode

open Trace

/-! ### Arguments as they are spelled -/

/-- The number that bytes spell, the highest of them first. -/
def spelled (bytes : List UInt8) : Nat := bytes.foldl (fun n byte => n * 256 + byte.toNat) 0

theorem spelled_append_byte (bytes : List UInt8) (byte : UInt8) :
    spelled (bytes ++ [byte]) = spelled bytes * 256 + byte.toNat := by
  simp [spelled, List.foldl_append]

/-- The argument bytes of the prefixes directly before instruction `k`, and of the instruction. -/
def Code.argumentBytes (code : Code) : Nat → List UInt8
  | 0 => [code.bytes.getD 1 0]
  | k + 1 =>
    (if code.opcodeAt? (2 * k) = some .extendedArg then code.argumentBytes k else []) ++
      [code.bytes.getD (2 * (k + 1) + 1) 0]

theorem toNat_foldArg_mod (pending : UInt32) (low : UInt8) :
    (foldArg pending low).toNat = (pending.toNat * 256 + low.toNat) % 2 ^ 32 := by
  simp only [foldArg, UInt32.toNat_add, UInt32.toNat_mul, UInt8.toNat_toUInt32,
    UInt32.reduceToNat]
  omega

/-- A byte behind a number of which only the lowest 32 bits are left. -/
theorem toNat_foldArg_of_mod {pending : UInt32} {n : Nat} (h : pending.toNat = n % 2 ^ 32)
    (low : UInt8) : (foldArg pending low).toNat = (n * 256 + low.toNat) % 2 ^ 32 := by
  rw [toNat_foldArg_mod, h]
  omega

section Words

variable {code : Code} {words : List (Opcode × UInt8)}
  (hwords : code.bytes.toList = wordBytes words)
include hwords

theorem Code.getElem?_instructions (k : Nat) :
    code.instructions[k]? =
      words[k]?.map fun w => ⟨2 * k, w.1, foldArg (pendingAt 0 code.instructions k) w.2⟩ := by
  have hdecode := getElem?_decode_wordBytes 0 0 words k
  rw [← hwords, Nat.zero_add] at hdecode
  exact hdecode

theorem Code.opcodeAt?_of_words (k : Nat) :
    code.opcodeAt? (2 * k) = words[k]?.map fun w => w.1 := by
  have hbyte := (getElem?_wordBytes words k).1
  rw [← hwords, Array.getElem?_toList] at hbyte
  rw [Code.opcodeAt?, hbyte]
  cases words[k]? with
  | none => rfl
  | some w => exact Opcode.ofByte?_byte w.1

theorem Code.getD_bytes_of_words {k : Nat} {w : Opcode × UInt8} (hw : words[k]? = some w) :
    code.bytes.getD (2 * k + 1) 0 = w.2 := by
  have hlow := (getElem?_wordBytes words k).2
  rw [← hwords, Array.getElem?_toList, hw, Option.map_some] at hlow
  rw [Array.getD_eq_getD_getElem?, hlow, Option.getD_some]

/-- The argument of an instruction is what its prefixes and itself spell, but for the bits above the
32nd; by induction on the instructions before it, of which the last one may be a prefix. -/
theorem Code.toNat_arg {k : Nat} {ins : Instruction} (h : code.instructions[k]? = some ins) :
    ins.arg.toNat = spelled (code.argumentBytes k) % 2 ^ 32 := by
  induction k generalizing ins with
  | zero =>
    rw [Code.getElem?_instructions hwords, Option.map_eq_some_iff] at h
    obtain ⟨w, hw, rfl⟩ := h
    rw [Code.argumentBytes, Code.getD_bytes_of_words hwords hw]
    exact toNat_foldArg_of_mod (n := 0) rfl w.2
  | succ k ih =>
    rw [Code.getElem?_instructions hwords, Option.map_eq_some_iff] at h
    obtain ⟨w, hw, rfl⟩ := h
    rw [Code.argumentBytes, Code.getD_bytes_of_words hwords hw, spelled_append_byte]
    refine toNat_foldArg_of_mod ?_ w.2
    rw [pendingAt, Code.opcodeAt?_of_words hwords]
    cases hbefore : code.instructions[k]? with
    | none =>
      rw [Code.getElem?_instructions hwords, Option.map_eq_none_iff] at hbefore
      rw [hbefore]
      rfl
    | some before =>
      have harg := ih hbefore
      rw [Code.getElem?_instructions hwords, Option.map_eq_some_iff] at hbefore
      obtain ⟨v, hv, rfl⟩ := hbefore
      simp only [hv, Option.map_some, Option.some.injEq]
      split
      · exact harg
      · rfl

end Words

/-! ### Frames in step with the decoder -/

/-- A jump to a place parts no instruction from its prefixes: the place is the start, or behind the
end, or the instruction directly before it is no prefix. -/
def Code.Landing (code : Code) (place : Nat) : Prop :=
  place = 0 ∨ code.instructionCount ≤ place ∨ ¬code.Inside place

theorem Code.Landing.pendingAt_eq {code : Code} {place : Nat} (h : code.Landing place)
    (hlt : 2 * place + 1 < code.bytes.size) : pendingAt 0 code.instructions place = 0 := by
  cases place with
  | zero => rfl
  | succ before =>
    obtain hzero | hbehind | hinside := h
    · exact absurd hzero (Nat.succ_ne_zero before)
    · rw [Code.instructionCount] at hbehind
      omega
    · rw [pendingAt]
      split
      · rename_i i hi
        exact if_neg fun hext => hinside ⟨before, i, rfl, hi, hext⟩
      · rfl

/-- The frame executes the code `body`, and has pending what decoding has pending at its offset,
unless no instruction is there. -/
structure Frame.InStep (body : Code) (f : Frame) : Prop where
  code : f.code = body
  pending : f.pc + 1 < body.bytes.size → f.pending = pendingAt 0 body.instructions (f.pc / 2)

theorem Frame.pc_lt_of_fetch {f : Frame} {op : Opcode} {low : UInt8}
    (h : f.fetch = .ok (op, low)) : f.pc + 1 < f.code.bytes.size := by
  unfold fetch at h
  split at h
  · rename_i hlow
    exact (Array.getElem?_eq_some_iff.mp hlow).1
  · cases h

namespace Frame.InStep

variable {code : Code} {f : Frame} {op : Opcode} {low : UInt8}

theorem of_begins {args : List Value} (hcode : f.code = code) (h : f.Begins args) :
    f.InStep code := by
  refine ⟨hcode, fun _ => ?_⟩
  rw [h.pc_eq, h.pending_eq]
  rfl

theorem samePlace {g : Frame} (hplace : f.SamePlace g) (h : f.InStep code) : g.InStep code := by
  refine ⟨hplace.code.trans h.code, ?_⟩
  rw [hplace.pc, hplace.pending]
  exact h.pending

/-- The instruction that a frame in step executes is the one that decodes at its offset. -/
theorem getElem?_instructions (h : f.InStep code) (htrack : f.OnTrack) (hcode : code.Assembled)
    (hfetch : f.fetch = .ok (op, low)) :
    code.instructions[f.pc / 2]? = some ⟨f.pc, op, foldArg f.pending low⟩ := by
  obtain rfl := h.code
  rw [h.pending (Frame.pc_lt_of_fetch hfetch)]
  exact htrack.getElem?_instructions hcode hfetch

theorem advance (h : f.InStep code) (htrack : f.OnTrack) (hcode : code.Assembled)
    (hfetch : f.fetch = .ok (op, low)) : (f.advance op (foldArg f.pending low)).InStep code := by
  refine ⟨h.code, fun _ => ?_⟩
  have hnext : (f.pc + 2) / 2 = f.pc / 2 + 1 := by omega
  show (if op = .extendedArg then foldArg f.pending low else 0) =
    pendingAt 0 code.instructions ((f.pc + 2) / 2)
  rw [hnext, pendingAt, h.getElem?_instructions htrack hcode hfetch]

theorem jump {target : Nat} (h : f.InStep code) (hpending : f.pending = 0)
    (hlanding : code.Landing target) : ({ f with pc := target * 2 } : Frame).InStep code := by
  refine ⟨h.code, fun hlt => ?_⟩
  show f.pending = pendingAt 0 code.instructions (target * 2 / 2)
  rw [Nat.mul_div_cancel _ (by decide), hlanding.pendingAt_eq (Nat.mul_comm target 2 ▸ hlt),
    hpending]

end Frame.InStep

/-! ### Runs -/

/-- Executing folds arguments as decoding does.  Every frame that runs was entered at some moment.
If its code was built, from whatever commands, and all jumps that it has taken since then part no
instruction from its prefixes, the instruction that it executes now is the one that decodes at its
offset, with the same argument: the lowest 32 bits of what its prefixes and itself spell. -/
theorem executing_folds_as_decoding {σ : Type} (hook : Option (Tracer σ)) (vm : Vm) (s : σ)
    (request : Request) :
    (∀ n f callers, (vm.stepped hook s request n).phase = .running f callers →
      ∃ a k, a + k = n ∧ vm.Lives hook s request a k ∧
        vm.height hook s request a = callers.length + 1) ∧
    ∀ a k f callers, vm.Lives hook s request a k →
      (vm.stepped hook s request a).phase.frames = f :: callers → f.code.Assembled →
      (∀ i < k, ∀ target ∈ (vm.stepped hook s request (a + i)).target? hook (callers.length + 1),
        f.code.Landing target) →
      ∀ ins ∈ (vm.stepped hook s request (a + k)).instruction? (callers.length + 1),
        f.code.instructions[ins.offset / 2]? = some ins ∧
          ins.arg.toNat = spelled (f.code.argumentBytes (ins.offset / 2)) % 2 ^ 32 := by
  have htrack := vm.onTrack_stepped hook s request
  refine ⟨fun n f callers hphase => ?_, ?_⟩
  · have hheight : vm.height hook s request n = callers.length + 1 :=
      congrArg (fun phase => phase.frames.length) hphase
    exact Vm.exists_lives hook vm s request (Nat.succ_pos _) (Nat.le_of_eq hheight.symm)
  · intro a k f callers hlives hframes hcode hlandings ins hins
    have hheight : vm.height hook s request a = callers.length + 1 := by
      rw [Vm.height, hframes, List.length_cons]
    have hat : FrameAt (vm.stepped hook s request (a + k)).phase.frames
        (vm.height hook s request a) (Frame.InStep f.code) := by
      refine hlives.frameAt ?_ .samePlace ?_ ?_
      · intro g outer args houter hbegins
        rw [hframes] at houter
        cases houter
        exact .of_begins rfl hbegins
      · intro i _ g op low hg hfetch hstep
        exact hstep.advance (htrack _ g hg) hcode hfetch
      · intro i hi g target htarget hpending hstep
        rw [hheight] at htarget
        exact hstep.jump hpending (hlandings i hi target htarget)
    obtain ⟨g, outer, op, low, hphase, hdepth, hfetch, rfl⟩ := Machine.instruction?_eq_some hins
    have hg : g ∈ (vm.stepped hook s request (a + k)).phase.frames := by
      rw [hphase]
      exact List.mem_cons_self
    rw [hphase, hheight] at hat
    have hdecoded := (hat.top hdepth).getElem?_instructions (htrack _ g hg) hcode hfetch
    obtain ⟨words, hwords, -⟩ := hcode.exists_words
    exact ⟨hdecoded, Code.toNat_arg hwords hdecoded⟩

/-- A machine with a function that builds a map behind four prefixes, drops it, and starts over. -/
def spinningVm : Vm where
  store.functions :=
    #[⟨"spin", 0, #[], #[], #[], #[21, 1, 21, 2, 21, 3, 21, 4, 11, 5, 1, 0, 15, 0], [⟨0, 1⟩]⟩]

/-- In the second round the argument of the map is still what is left of five bytes. -/
theorem executing_folds_as_decoding_spinning :
    let run := Request.run ⟨0⟩
    let code := spinningVm.store.code ⟨0⟩
    code.Assembled ∧ spinningVm.Lives none () run 0 11 ∧
      (∀ i < 11, ∀ target ∈ (spinningVm.stepped none () run (0 + i)).target? none 1,
        code.Landing target) ∧
      (spinningVm.stepped none () run 11).instruction? 1 = some ⟨8, .buildMap, 0x02030405⟩ ∧
      code.instructions[4]? = some ⟨8, .buildMap, 0x02030405⟩ ∧
      code.argumentBytes 4 = [1, 2, 3, 4, 5] ∧
      (0x02030405 : UInt32).toNat = spelled [1, 2, 3, 4, 5] % 2 ^ 32 := by
  intro run code
  have hcode : code.Assembled := by
    refine ⟨"spin", [.emitArg .extendedArg 1, .emitArg .extendedArg 2, .emitArg .extendedArg 3,
      .emitArg .extendedArg 4, .emitArg .buildMap 5, .emit .popTop, .emitArg .jumpAbsolute 0], ?_⟩
    with_unfolding_all rfl
  have hlives : spinningVm.Lives none () run 0 11 := by
    refine ⟨by decide, ?_⟩
    decide +kernel
  have htargets : ∀ i < 11, ∀ target ∈ (spinningVm.stepped none () run (0 + i)).target? none 1,
      target = 0 := by decide +kernel
  have hlandings : ∀ i < 11, ∀ target ∈ (spinningVm.stepped none () run (0 + i)).target? none 1,
      code.Landing target := fun i hi target htarget => Or.inl (htargets i hi target htarget)
  have hexecuted : (spinningVm.stepped none () run 11).instruction? 1 =
      some ⟨8, .buildMap, 0x02030405⟩ := by decide +kernel
  obtain ⟨hdecoded, harg⟩ := (executing_folds_as_decoding none spinningVm () run).2 0 11
    (Frame.enter code []) [] hlives rfl hcode hlandings _ (Nat.zero_add 11 ▸ hexecuted)
  exact ⟨hcode, hlives, hlandings, hexecuted, hdecoded, by decide, harg⟩

end Wordcode
