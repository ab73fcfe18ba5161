import Wordcode.Store
import Wordcode.Text.Column

/-! The listing of a code object: one row for each encoded instruction, with the source line where
it changes, the byte offset, the opcode, and the argument with what it stands for. -/

namespace Wordcode.Code

/-- What the argument of an instruction stands for: a constant, a variable, a comparison, or the
byte offset that a jump goes to. -/
def note (store : Store) (code : Code) (ins : Instruction) : Option String :=
  let index := ins.arg.toNat
  match ins.opcode with
  | .loadConst | .raiseAssertion => code.consts[index]?.map store.debug
  | .loadFast | .storeFast => code.varnames[index]?
  | .loadGlobal | .storeGlobal => code.names[index]?
  | .compareOp => (Comparison.ofCode? ins.arg).map Comparison.symbol
  | op => if op.isJump then some ("to " ++ toString (index * 2)) else none

/-- The argument column of an instruction, empty for an opcode that reads none. -/
def argument (store : Store) (code : Code) (ins : Instruction) : String :=
  if ins.opcode.hasArg then
    " " ++ toString ins.arg ++
      (match code.note store ins with
      | some note => " (" ++ note ++ ")"
      | none => "")
  else ""

/-- The line column of a row, after a row of line `last?`: filled where the line changes, and after
an empty row unless it is the first. -/
def lineColumn (last? : Option UInt32) (line : UInt32) : String :=
  if last? = some line then Text.blanks 4
  else (if last?.isSome then "\n" else "") ++ Text.alignRight 4 (toString line)

/-- The rows of the listing of `instructions`, after a row of line `last?`. -/
def rows (store : Store) (code : Code) (last? : Option UInt32) : List Instruction → List String
  | [] => []
  | ins :: rest =>
    let line := code.lineAt ins.offset
    let row := lineColumn last? line ++ " " ++ Text.alignRight 6 (toString ins.offset) ++ " " ++
      Text.alignLeft 18 ins.opcode.name ++ code.argument store ins ++ "\n"
    row :: rows store code (some line) rest

/-- The listing of a code object whose constants are of `store`. -/
def disassemble (store : Store) (code : Code) : String :=
  String.join (code.rows store none code.instructions)

end Wordcode.Code
