import Wordcode.Proofs.Steps

/-! Faults by where they come from.  Operations on values, names and native functions fail with
plain faults, which say neither that the recursion limit was reached nor that code is ill-formed; an
instruction fails with one of these, with a stack underflow, or with an argument that indexes
nothing. -/

namespace Wordcode

open Trace

/-- A fault that code of any form can come to within its frames. -/
def Fault.Plain (e : Fault) : Prop := e.kind ≠ .recursion ∧ e.kind ≠ .internal

/-- A result that is no fault, or a plain one. -/
def PlainResult (result : Except Fault Value) : Prop := ∀ e, result = .error e → e.Plain

theorem plainResult_ok (v : Value) : PlainResult (.ok v) := by
  intro e h
  cases h

theorem plainResult_error {e : Fault} (h : e.Plain) : PlainResult (.error e) := by
  intro e' h'
  cases h'
  exact h

/-! ### Operations -/

theorem Vm.plain_lookup (vm : Vm) (name : String) : PlainResult (vm.lookup name) := by
  unfold lookup
  split
  · exact plainResult_ok _
  · split
    · exact plainResult_ok _
    · exact plainResult_error ⟨ErrorKind.noConfusion, ErrorKind.noConfusion⟩

namespace Value

theorem plain_add (a b : Value) : PlainResult (a.add b) := by
  unfold add
  split
  · split
    · exact plainResult_ok _
    · exact plainResult_error ⟨ErrorKind.noConfusion, ErrorKind.noConfusion⟩
  · exact plainResult_ok _
  · exact plainResult_error ⟨ErrorKind.noConfusion, ErrorKind.noConfusion⟩

theorem plain_subtract (a b : Value) : PlainResult (a.subtract b) := by
  unfold subtract
  split
  · split
    · exact plainResult_ok _
    · exact plainResult_error ⟨ErrorKind.noConfusion, ErrorKind.noConfusion⟩
  · exact plainResult_error ⟨ErrorKind.noConfusion, ErrorKind.noConfusion⟩

theorem plain_compare (op : Comparison) (a b : Value) :
    PlainResult ((compare op a b).map .bool) := by
  unfold compare
  split
  · exact plainResult_ok _
  · exact plainResult_ok _
  · split
    · exact plainResult_ok _
    · exact plainResult_error ⟨ErrorKind.noConfusion, ErrorKind.noConfusion⟩

theorem plain_of_entry {container key : Value} {refusal : Kind → Fault}
    (hrefusal : ∀ kind, (refusal kind).Plain) {e : Fault}
    (h : container.entry key refusal = .error e) : e.Plain := by
  unfold entry at h
  split at h
  · split at h
    · cases h
    · cases h
      exact ⟨ErrorKind.noConfusion, ErrorKind.noConfusion⟩
  · cases h
    exact hrefusal _

theorem plain_subscript (store : Store) (container key : Value) :
    PlainResult (container.subscript store key) := by
  unfold subscript
  split
  · split
    · exact plainResult_ok _
    · exact plainResult_error ⟨ErrorKind.noConfusion, ErrorKind.noConfusion⟩
  · rename_i e he
    exact plainResult_error
      (plain_of_entry (fun _ => ⟨ErrorKind.noConfusion, ErrorKind.noConfusion⟩) he)

end Value

theorem Builtin.plain_call (b : Builtin) (args : List Value) (vm : Vm) :
    PlainResult (b.call args vm).1 := by
  unfold call
  split <;> first
    | exact plainResult_ok _
    | exact plainResult_error ⟨ErrorKind.noConfusion, ErrorKind.noConfusion⟩

/-! ### Instructions -/

/-- The fault of a frame that has no next instruction. -/
theorem Frame.fault_of_fetch {f : Frame} {e : Fault} (h : f.fetch = .error e) :
    e = .pastEnd f.code.name f.pc ∨
      ∃ byte, f.code.bytes[f.pc]? = some byte ∧ Opcode.ofByte? byte = none ∧
        e = .invalidOpcode byte f.pc := by
  unfold fetch at h
  split at h
  · rename_i byte low hbyte hlow
    split at h
    · cases h
    · rename_i hop
      cases h
      exact Or.inr ⟨byte, hbyte, hop, rfl⟩
  · cases h
    exact Or.inl rfl

/-- The argument of an instruction indexes what the instruction looks up, if it looks up
something. -/
def Frame.Indexes (f : Frame) (op : Opcode) (arg : UInt32) : Prop :=
  match op with
  | .loadConst | .raiseAssertion => arg.toNat < f.code.consts.size
  | .loadFast | .storeFast => arg.toNat < f.locals.size
  | .loadGlobal | .storeGlobal => arg.toNat < f.code.names.size
  | .compareOp => (Comparison.ofCode? arg).isSome
  | _ => True

namespace Effect

/-- The fault with which a frame is left in effect. -/
def fault? : Effect → Option Fault
  | leave _ _ (.error e) => some e
  | _ => none

variable {vm : Vm} {f : Frame} {e : Fault}

theorem plain_of_give {rest : List Value} {result : Except Fault Value} (h : PlainResult result)
    (he : (give vm f rest result).fault? = some e) : e.Plain := by
  cases result with
  | ok v => cases he
  | error e' =>
    cases he
    exact h e rfl

end Effect

/-- An instruction fails with a stack underflow, with an argument that indexes nothing, or with a
plain fault. -/
theorem fault_of_execute {op : Opcode} {arg : UInt32} {vm : Vm} {f : Frame} {e : Fault}
    (h : (execute op arg vm f).fault? = some e) :
    e = f.underflow ∨ e = f.argumentFault op arg ∧ ¬f.Indexes op arg ∨ e.Plain := by
  have hunderflow : (Effect.fault vm f f.underflow).fault? = some e → e = f.underflow :=
    fun h => (Option.some.inj h).symm
  have hargument : (Effect.fault vm f (f.argumentFault op arg)).fault? = some e →
      e = f.argumentFault op arg := fun h => (Option.some.inj h).symm
  have hplain : ∀ {e' : Fault}, e'.Plain → (Effect.fault vm f e').fault? = some e → e.Plain := by
    intro e' hplain hsome
    cases hsome
    exact hplain
  cases op with
  | nop | extendedArg | buildMap | jumpAbsolute => cases h
  | popTop | callFunction =>
    simp only [execute] at h
    split at h
    · cases h
    · exact Or.inl (hunderflow h)
  | loadConst =>
    simp only [execute] at h
    split at h
    · cases h
    · rename_i hconst
      exact Or.inr (Or.inl ⟨hargument h, by simpa [Frame.Indexes] using hconst⟩)
  | loadFast =>
    simp only [execute] at h
    split at h
    · cases h
    · exact Or.inr (Or.inr (hplain ⟨ErrorKind.noConfusion, ErrorKind.noConfusion⟩ h))
    · rename_i hlocal
      exact Or.inr (Or.inl ⟨hargument h, by simpa [Frame.Indexes] using hlocal⟩)
  | storeFast =>
    simp only [execute] at h
    split at h
    · split at h
      · cases h
      · rename_i hslot
        exact Or.inr (Or.inl ⟨hargument h, hslot⟩)
    · exact Or.inl (hunderflow h)
  | loadGlobal =>
    simp only [execute] at h
    split at h
    · exact Or.inr (Or.inr (Effect.plain_of_give (vm.plain_lookup _) h))
    · rename_i hname
      exact Or.inr (Or.inl ⟨hargument h, by simpa [Frame.Indexes] using hname⟩)
  | storeGlobal =>
    simp only [execute] at h
    split at h
    · split at h
      · cases h
      · exact Or.inl (hunderflow h)
    · rename_i hname
      exact Or.inr (Or.inl ⟨hargument h, by simpa [Frame.Indexes] using hname⟩)
  | binaryAdd =>
    simp only [execute] at h
    split at h
    · exact Or.inr (Or.inr (Effect.plain_of_give (Value.plain_add _ _) h))
    · exact Or.inl (hunderflow h)
  | binarySubtract =>
    simp only [execute] at h
    split at h
    · exact Or.inr (Or.inr (Effect.plain_of_give (Value.plain_subtract _ _) h))
    · exact Or.inl (hunderflow h)
  | binarySubscr =>
    simp only [execute] at h
    split at h
    · exact Or.inr (Or.inr (Effect.plain_of_give (Value.plain_subscript _ _ _) h))
    · exact Or.inl (hunderflow h)
  | storeSubscr =>
    simp only [execute] at h
    split at h
    · split at h
      · cases h
      · rename_i e' he'
        have hrefused := Value.plain_of_entry
          (fun _ => ⟨ErrorKind.noConfusion, ErrorKind.noConfusion⟩) he'
        exact Or.inr (Or.inr (hplain hrefused h))
    · exact Or.inl (hunderflow h)
  | compareOp =>
    simp only [execute] at h
    split at h
    · split at h
      · exact Or.inr (Or.inr (Effect.plain_of_give (Value.plain_compare _ _ _) h))
      · exact Or.inl (hunderflow h)
    · rename_i hcomparison
      exact Or.inr (Or.inl ⟨hargument h, by simpa [Frame.Indexes] using hcomparison⟩)
  | popJumpIfFalse | popJumpIfTrue =>
    simp only [execute] at h
    split at h
    · split at h <;> cases h
    · exact Or.inl (hunderflow h)
  | getIter =>
    simp only [execute] at h
    split at h
    · cases h
    · exact Or.inr (Or.inr (hplain ⟨ErrorKind.noConfusion, ErrorKind.noConfusion⟩ h))
    · exact Or.inl (hunderflow h)
  | forIter =>
    simp only [execute] at h
    split at h
    · split at h <;> cases h
    · exact Or.inr (Or.inr (hplain ⟨ErrorKind.noConfusion, ErrorKind.noConfusion⟩ h))
    · exact Or.inl (hunderflow h)
  | returnValue =>
    simp only [execute] at h
    split at h
    · cases h
    · exact Or.inl (hunderflow h)
  | raiseAssertion =>
    simp only [execute] at h
    split at h
    · exact Or.inr (Or.inr (hplain ⟨ErrorKind.noConfusion, ErrorKind.noConfusion⟩ h))
    · rename_i hconst
      exact Or.inr (Or.inl ⟨hargument h, by simpa [Frame.Indexes] using hconst⟩)

end Wordcode
