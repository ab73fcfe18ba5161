import Wordcode.Opcode
import Wordcode.Value

/-! Code objects: the body of a function as wordcode, pairs of an opcode byte and an argument byte,
with the tables that the arguments index and the table of source lines.  An argument above one byte
is spread over `EXTENDED_ARG` instructions before the one that it belongs to. -/

namespace Wordcode

/-- The instruction at byte `start` and those after it, up to the next entry, are of line `line`. -/
structure LineEntry where
  start : Nat
  line : UInt32
  deriving DecidableEq

structure Code where
  name : String
  argcount : Nat
  varnames : Array String
  names : Array String
  consts : Array Value
  bytes : Array UInt8
  lines : List LineEntry

instance : Inhabited Code := ⟨⟨"", 0, #[], #[], #[], #[], []⟩⟩

/-- The argument of an instruction: what the prefixes before it gave, one byte higher, with the
instruction's own byte below.  Bits above the 32nd are lost. -/
def foldArg (pending : UInt32) (low : UInt8) : UInt32 := pending * 256 + low.toUInt32

/-- An instruction with the argument that its prefixes give it. -/
structure Instruction where
  offset : Nat
  opcode : Opcode
  arg : UInt32
  deriving DecidableEq

/-- The instructions that the bytes from `offset` on encode, up to the first byte that encodes none,
where the prefixes just before them gave `pending`. -/
def decode (offset : Nat) (pending : UInt32) : List UInt8 → List Instruction
  | byte :: low :: rest =>
    match Opcode.ofByte? byte with
    | none => []
    | some opcode =>
      let arg := foldArg pending low
      ⟨offset, opcode, arg⟩ ::
        decode (offset + 2) (if opcode = .extendedArg then arg else 0) rest
  | _ => []

namespace Code

def nlocals (code : Code) : Nat := code.varnames.size

/-- The number of encoded instructions, prefixes included. -/
def instructionCount (code : Code) : Nat := code.bytes.size / 2

def instructions (code : Code) : List Instruction := decode 0 0 code.bytes.toList

/-- The source line of the byte at `offset`; 0 before the first entry. -/
def lineAt (code : Code) (offset : Nat) : UInt32 :=
  match (code.lines.filter fun entry => entry.start ≤ offset).getLast? with
  | some entry => entry.line
  | none => 0

def isLineStart (code : Code) (offset : Nat) : Bool :=
  code.lines.any fun entry => entry.start == offset

def opcodeAt? (code : Code) (offset : Nat) : Option Opcode :=
  code.bytes[offset]?.bind Opcode.ofByte?

def debug (code : Code) : String :=
  "Code \x7b name: " ++ Text.quote code.name ++ ", argcount: " ++ toString code.argcount ++
    ", nlocals: " ++ toString code.nlocals ++ ", instructions: " ++
    toString code.instructionCount ++ " \x7d"

end Code

end Wordcode
