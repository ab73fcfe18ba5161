import Wordcode.Code

/-! Drafts: a code object while it is being assembled.  A draft collects items, instructions with
symbolic operands, and the tables that their arguments index, as commands are performed on it.  It
keeps the first fault and goes on. -/

namespace Wordcode

inductive AssemblyError where
  | unboundLabel (id : Nat)
  | labelRebound (id : Nat)
  | missingOperand (op : Opcode)
  | unexpectedOperand (op : Opcode)
  | notAJump (op : Opcode)
  | duplicateParam (name : String)
  | paramAfterLocal (name : String)
  /-- A jump names a label that was never created. -/
  | strayLabel (id : Nat)
  deriving DecidableEq

def AssemblyError.message : AssemblyError → String
  | .unboundLabel id => "label " ++ toString id ++ " was never bound"
  | .labelRebound id => "label " ++ toString id ++ " bound more than once"
  | .missingOperand op => op.name ++ " requires an argument"
  | .unexpectedOperand op => op.name ++ " takes no argument"
  | .notAJump op => op.name ++ " cannot take a label"
  | .duplicateParam name => "duplicate parameter '" ++ name ++ "'"
  | .paramAfterLocal name => "parameter '" ++ name ++ "' declared after a local"
  | .strayLabel id => "label " ++ toString id ++ " was never created"

inductive Operand where
  | none
  | immediate (arg : UInt32)
  | label (id : Nat)
  deriving DecidableEq

/-- An instruction before its argument is known, with the source line that it is of. -/
structure Item where
  op : Opcode
  operand : Operand
  line : UInt32
  deriving DecidableEq

/-- A code object that is being assembled.  Each label holds the number of the item that it is
bound to, once it is bound. -/
structure Draft where
  name : String
  argcount : Nat := 0
  varnames : Array String := #[]
  names : Array String := #[]
  consts : Array Value := #[]
  items : Array Item := #[]
  labels : Array (Option Nat) := #[]
  line : UInt32 := 1
  fault : Option AssemblyError := none

/-- The place of `x` in a table that holds no two equal entries, with the table, which gets a new
last entry if `x` was not in it. -/
def intern {α : Type} [DecidableEq α] (table : Array α) (x : α) : UInt32 × Array α :=
  match table.findIdx? (· = x) with
  | some i => (UInt32.ofNat i, table)
  | none => (UInt32.ofNat table.size, table.push x)

namespace Draft

def fail (d : Draft) (e : AssemblyError) : Draft := { d with fault := d.fault.or (some e) }

/-- Declares the next parameter.  Parameters take the first local slots, so they come before any
other local. -/
def param (d : Draft) (name : String) : Draft :=
  if name ∈ d.varnames then d.fail (.duplicateParam name)
  else if d.varnames.size ≠ d.argcount then d.fail (.paramAfterLocal name)
  else { d with varnames := d.varnames.push name, argcount := d.argcount + 1 }

def localSlot (d : Draft) (name : String) : UInt32 × Draft :=
  let (i, table) := intern d.varnames name
  (i, { d with varnames := table })

def globalName (d : Draft) (name : String) : UInt32 × Draft :=
  let (i, table) := intern d.names name
  (i, { d with names := table })

/-- The place of a constant; equal constants share one. -/
def constant (d : Draft) (v : Value) : UInt32 × Draft :=
  let (i, table) := intern d.consts v
  (i, { d with consts := table })

def atLine (d : Draft) (line : UInt32) : Draft := { d with line }

def newLabel (d : Draft) : Draft := { d with labels := d.labels.push none }

/-- Binds a label to the next item. -/
def bind (d : Draft) (id : Nat) : Draft :=
  match d.labels[id]? with
  | some none => { d with labels := d.labels.setIfInBounds id (some d.items.size) }
  | _ => d.fail (.labelRebound id)

def push (d : Draft) (op : Opcode) (operand : Operand) : Draft :=
  { d with items := d.items.push ⟨op, operand, d.line⟩ }

def emit (d : Draft) (op : Opcode) : Draft :=
  (if op.hasArg then d.fail (.missingOperand op) else d).push op .none

def emitArg (d : Draft) (op : Opcode) (arg : UInt32) : Draft :=
  (if op.hasArg then d else d.fail (.unexpectedOperand op)).push op (.immediate arg)

def emitJump (d : Draft) (op : Opcode) (id : Nat) : Draft :=
  (if op.isJump then d else d.fail (.notAJump op)).push op (.label id)

end Draft

/-- The commands that describe a code object, in the order in which they are performed. -/
inductive Command where
  | param (name : String)
  | localSlot (name : String)
  | globalName (name : String)
  | constant (v : Value)
  | line (line : UInt32)
  | newLabel
  | bind (id : Nat)
  | emit (op : Opcode)
  | emitArg (op : Opcode) (arg : UInt32)
  | emitJump (op : Opcode) (id : Nat)
  | loadConst (v : Value)
  | loadFast (name : String)
  | storeFast (name : String)
  | loadGlobal (name : String)
  | storeGlobal (name : String)
  | compare (op : Comparison)
  | call (argc : UInt32)
  | ret
  | raiseAssertion (message : String)

namespace Draft

def perform (d : Draft) : Command → Draft
  | .param name => d.param name
  | .localSlot name => (d.localSlot name).2
  | .globalName name => (d.globalName name).2
  | .constant v => (d.constant v).2
  | .line line => d.atLine line
  | .newLabel => d.newLabel
  | .bind id => d.bind id
  | .emit op => d.emit op
  | .emitArg op arg => d.emitArg op arg
  | .emitJump op id => d.emitJump op id
  | .loadConst v =>
    let (i, d) := d.constant v
    d.emitArg .loadConst i
  | .loadFast name =>
    let (i, d) := d.localSlot name
    d.emitArg .loadFast i
  | .storeFast name =>
    let (i, d) := d.localSlot name
    d.emitArg .storeFast i
  | .loadGlobal name =>
    let (i, d) := d.globalName name
    d.emitArg .loadGlobal i
  | .storeGlobal name =>
    let (i, d) := d.globalName name
    d.emitArg .storeGlobal i
  | .compare op => d.emitArg .compareOp op.code
  | .call argc => d.emitArg .callFunction argc
  | .ret => d.emit .returnValue
  | .raiseAssertion message =>
    let (i, d) := d.constant (.str message)
    d.emitArg .raiseAssertion i

/-- The place in its table that a command answers with: that of a variable, a name or a
constant. -/
def answer? (d : Draft) : Command → Option UInt32
  | .localSlot name => some (d.localSlot name).1
  | .globalName name => some (d.globalName name).1
  | .constant v => some (d.constant v).1
  | _ => none

def performAll (d : Draft) (commands : List Command) : Draft := commands.foldl perform d

/-- The places that the given commands answer with, in order. -/
def answers (d : Draft) : List Command → List UInt32
  | [] => []
  | c :: rest => (d.answer? c).toList ++ answers (d.perform c) rest

end Draft

end Wordcode
