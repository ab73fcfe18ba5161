/-! The instruction set: the opcodes with their bytes and names, which of them take an argument or
a jump target, and the six comparisons with their argument codes and symbols. -/

namespace Wordcode

/-- The operations of the machine, in the order of their bytes. -/
inductive Opcode where
  | nop
  | popTop
  | loadConst
  | loadFast
  | storeFast
  | loadGlobal
  | storeGlobal
  | binaryAdd
  | binarySubtract
  | binarySubscr
  | storeSubscr
  | buildMap
  | compareOp
  | popJumpIfFalse
  | popJumpIfTrue
  | jumpAbsolute
  | getIter
  | forIter
  | callFunction
  | returnValue
  | raiseAssertion
  | extendedArg
  deriving DecidableEq

namespace Opcode

def all : List Opcode :=
  [nop, popTop, loadConst, loadFast, storeFast, loadGlobal, storeGlobal, binaryAdd, binarySubtract,
    binarySubscr, storeSubscr, buildMap, compareOp, popJumpIfFalse, popJumpIfTrue, jumpAbsolute,
    getIter, forIter, callFunction, returnValue, raiseAssertion, extendedArg]

/-- The byte that encodes an opcode. -/
def byte : Opcode → UInt8
  | nop => 0
  | popTop => 1
  | loadConst => 2
  | loadFast => 3
  | storeFast => 4
  | loadGlobal => 5
  | storeGlobal => 6
  | binaryAdd => 7
  | binarySubtract => 8
  | binarySubscr => 9
  | storeSubscr => 10
  | buildMap => 11
  | compareOp => 12
  | popJumpIfFalse => 13
  | popJumpIfTrue => 14
  | jumpAbsolute => 15
  | getIter => 16
  | forIter => 17
  | callFunction => 18
  | returnValue => 19
  | raiseAssertion => 20
  | extendedArg => 21

/-- The opcode that a byte encodes, for the bytes 0 to 21. -/
def ofByte? : UInt8 → Option Opcode
  | 0 => some nop
  | 1 => some popTop
  | 2 => some loadConst
  | 3 => some loadFast
  | 4 => some storeFast
  | 5 => some loadGlobal
  | 6 => some storeGlobal
  | 7 => some binaryAdd
  | 8 => some binarySubtract
  | 9 => some binarySubscr
  | 10 => some storeSubscr
  | 11 => some buildMap
  | 12 => some compareOp
  | 13 => some popJumpIfFalse
  | 14 => some popJumpIfTrue
  | 15 => some jumpAbsolute
  | 16 => some getIter
  | 17 => some forIter
  | 18 => some callFunction
  | 19 => some returnValue
  | 20 => some raiseAssertion
  | 21 => some extendedArg
  | _ => none

/-- The name under which an opcode is listed and counted. -/
def name : Opcode → String
  | nop => "NOP"
  | popTop => "POP_TOP"
  | loadConst => "LOAD_CONST"
  | loadFast => "LOAD_FAST"
  | storeFast => "STORE_FAST"
  | loadGlobal => "LOAD_GLOBAL"
  | storeGlobal => "STORE_GLOBAL"
  | binaryAdd => "BINARY_ADD"
  | binarySubtract => "BINARY_SUBTRACT"
  | binarySubscr => "BINARY_SUBSCR"
  | storeSubscr => "STORE_SUBSCR"
  | buildMap => "BUILD_MAP"
  | compareOp => "COMPARE_OP"
  | popJumpIfFalse => "POP_JUMP_IF_FALSE"
  | popJumpIfTrue => "POP_JUMP_IF_TRUE"
  | jumpAbsolute => "JUMP_ABSOLUTE"
  | getIter => "GET_ITER"
  | forIter => "FOR_ITER"
  | callFunction => "CALL_FUNCTION"
  | returnValue => "RETURN_VALUE"
  | raiseAssertion => "RAISE_ASSERTION"
  | extendedArg => "EXTENDED_ARG"

def ofName? (name : String) : Option Opcode := all.find? fun op => op.name == name

/-- The name of the opcode that a byte encodes; all other bytes share one name. -/
def nameOfByte (byte : UInt8) : String :=
  match ofByte? byte with
  | some op => op.name
  | none => "<unknown>"

/-- Whether an opcode reads its argument. -/
def hasArg : Opcode → Bool
  | nop | popTop | binaryAdd | binarySubtract | binarySubscr | storeSubscr | getIter
  | returnValue => false
  | _ => true

/-- Whether the argument of an opcode is the index of an instruction to go to. -/
def isJump : Opcode → Bool
  | popJumpIfFalse | popJumpIfTrue | jumpAbsolute | forIter => true
  | _ => false

theorem ofByte?_byte (op : Opcode) : ofByte? op.byte = some op := by cases op <;> rfl

theorem mem_all (op : Opcode) : op ∈ all := by cases op <;> decide

theorem eq_of_name_eq {op op' : Opcode} (h : op.name = op'.name) : op = op' := by
  have hof : ∀ op : Opcode, ofName? op.name = some op := by
    intro op
    cases op <;> decide
  exact Option.some.inj (by rw [← hof op, ← hof op', h])

theorem hasArg_of_isJump {op : Opcode} (h : op.isJump = true) : op.hasArg = true := by
  cases op <;> first | rfl | cases h

end Opcode

/-- The comparisons of `COMPARE_OP`, in the order of their argument codes. -/
inductive Comparison where
  | lt
  | le
  | eq
  | ne
  | gt
  | ge
  deriving DecidableEq

namespace Comparison

def all : List Comparison := [lt, le, eq, ne, gt, ge]

/-- The argument that selects a comparison. -/
def code : Comparison → UInt32
  | lt => 0
  | le => 1
  | eq => 2
  | ne => 3
  | gt => 4
  | ge => 5

/-- The comparison that an argument selects, for the arguments 0 to 5. -/
def ofCode? : UInt32 → Option Comparison
  | 0 => some lt
  | 1 => some le
  | 2 => some eq
  | 3 => some ne
  | 4 => some gt
  | 5 => some ge
  | _ => none

def symbol : Comparison → String
  | lt => "<"
  | le => "<="
  | eq => "=="
  | ne => "!="
  | gt => ">"
  | ge => ">="

def ofSymbol? (symbol : String) : Option Comparison := all.find? fun op => op.symbol == symbol

theorem ofCode?_code (op : Comparison) : ofCode? op.code = some op := by cases op <;> rfl

end Comparison

end Wordcode
