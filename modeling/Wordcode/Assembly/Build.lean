import Wordcode.Assembly.Layout

/-! Building: the code object that a draft describes.  The labels are resolved, the items laid out
and encoded, and the line table is read off the layout. -/

namespace Wordcode

/-- The bytes of `count` prefixes that carry the low bytes of `arg`, the highest of them first. -/
def prefixBytes : Nat → UInt32 → List UInt8
  | 0, _ => []
  | count + 1, arg => prefixBytes count (arg / 256) ++ [Opcode.extendedArg.byte, arg.toUInt8]

def encode (op : Opcode) (arg : UInt32) (units : Nat) : List UInt8 :=
  prefixBytes (units - 1) (arg / 256) ++ [op.byte, arg.toUInt8]

/-- The bytes of the slots, where the labels are bound to the items `bound` and the items start at
the places `places`. -/
def encodeAll (bound places : Array Nat) (slots : List Slot) : List UInt8 :=
  slots.flatMap fun s => encode s.item.op (s.item.operand.resolve bound places) s.units

/-- The line table of the slots from byte `start` on, after an item of line `last?`: one entry where
the line changes. -/
def lineTable (last? : Option UInt32) (start : Nat) : List Slot → List LineEntry
  | [] => []
  | s :: rest =>
    let later := lineTable (some s.item.line) (start + 2 * s.units) rest
    if last? = some s.item.line then later else ⟨start, s.item.line⟩ :: later

/-- The items that the labels from `id` on are bound to; the first unbound label is a fault. -/
def boundItems (id : Nat) : List (Option Nat) → Except AssemblyError (List Nat)
  | [] => .ok []
  | none :: _ => .error (.unboundLabel id)
  | some item :: rest => (boundItems (id + 1) rest).map (item :: ·)

/-- The first label that a jump names although there are only `count`. -/
def strayLabel? (count : Nat) (items : List Item) : Option Nat :=
  items.findSome? fun item =>
    match item.operand with
    | .label id => if id < count then none else some id
    | _ => none

namespace Draft

def toCode (d : Draft) (bound : Array Nat) (slots : List Slot) : Code where
  name := d.name
  argcount := d.argcount
  varnames := d.varnames
  names := d.names
  consts := d.consts
  bytes := (encodeAll bound (starts 0 slots).toArray slots).toArray
  lines := lineTable none 0 slots

/-- The code object that a draft describes, or what is wrong with it: the first fault of its
commands, then the first label that is not bound, then the first jump to a label that does not
exist. -/
def build (d : Draft) : Except AssemblyError Code :=
  match d.fault with
  | some e => .error e
  | none =>
    match boundItems 0 d.labels.toList with
    | .error e => .error e
    | .ok bound =>
      match strayLabel? bound.length d.items.toList with
      | some id => .error (.strayLabel id)
      | none =>
        let bound := bound.toArray
        .ok (d.toCode bound (layout bound d.items.toList))

end Draft

def assemble (name : String) (commands : List Command) : Except AssemblyError Code :=
  (Draft.performAll { name } commands).build

end Wordcode
