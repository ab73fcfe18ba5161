import Wordcode.Log.Event
import Wordcode.Text.Number
import Wordcode.Text.Pattern

/-! Directives of a log filter, as `target[span{field=value}]=level`.  Each part may be left out: a
level alone is for all targets, and a directive without a level shows all levels.  A directive
with a span, or with the value of a field, is about events inside of spans; no event of this library
is inside of one. -/

namespace Wordcode.Log

/-- A field that a directive asks for, perhaps with a value. -/
structure FieldMatch where
  name : String
  value? : Option String := none
  deriving DecidableEq

/-- A directive: which events it is for, and up to which level it shows them; no level shows
none. -/
structure Directive where
  /-- What the targets begin with. -/
  target? : Option String := none
  span? : Option String := none
  field? : Option FieldMatch := none
  level? : Option Level := some .trace
  deriving DecidableEq

/-! ### Levels -/

/-- The level that a text names, in any case, or by its rank; `off` and 0 name no level. -/
def levelOf? (s : List Char) : Option (Option Level) :=
  let named := (String.ofList s).toLower
  let rank? := Text.count? s
  if named = "off" ∨ rank? = some 0 then some none
  else (Level.all.find? fun l => l.name.toLower = named ∨ rank? = some l.rank).map some

/-! ### Cutting

A directive may have blanks around it.  Its marks are looked for without them, but its parts are cut
from the directive as it stands, between the places of bytes that the marks were found at.  Only the
ends of a part matter: a mark itself may be found at a place inside of a character. -/

/-- Where the reading of a directive stands: the marks to come, without the blanks, and the place of
the byte that they begin at. -/
structure Cursor where
  marks : List Char
  place : Nat := 0

def byteSize (s : List Char) : Nat := (s.map Char.utf8Size).foldr (· + ·) 0

/-- The first `n` bytes of a text, and what follows them; nothing if a character is cut. -/
def splitBytes? (n : Nat) (s : List Char) : Option (List Char × List Char) :=
  if n = 0 then some ([], s)
  else
    match s with
    | [] => none
    | c :: s =>
      if c.utf8Size ≤ n then
        (splitBytes? (n - c.utf8Size) s).map fun (front, back) => (c :: front, back)
      else none
termination_by structural s

/-- The bytes of a text from one place up to another; nothing if a character is cut. -/
def slice? (first last : Nat) (s : List Char) : Option (List Char) := do
  let (_, back) ← splitBytes? first s
  let (part, _) ← splitBytes? (last - first) back
  return part

namespace Cursor

/-- The part of a text up to the first mark among `marks`, and the cursor at that mark. -/
def upTo? (marks : List Char) (s : List Char) (r : Cursor) : Option (String × Cursor) :=
  let part := r.marks.takeWhile (· ∉ marks)
  let last := r.place + byteSize part
  (slice? r.place last s).map fun cut =>
    (String.ofList cut, ⟨r.marks.drop part.length, last⟩)

def pass (r : Cursor) : Cursor := ⟨r.marks.tail, r.place + 1⟩

def rest? (s : List Char) (r : Cursor) : Option (List Char) :=
  (splitBytes? r.place s).map fun (_, back) => back

end Cursor

/-! ### Reading -/

/-- Reads a field, with its value from the first equals sign up to the second.  A value is a number
or a pattern. -/
def FieldMatch.ofChars? (s : List Char) : Option FieldMatch :=
  let name := s.takeWhile (· ≠ '=')
  match s.drop name.length with
  | [] => if name = [] then none else some ⟨String.ofList name, none⟩
  | _ :: rest =>
    let value := rest.takeWhile (· ≠ '=')
    if Text.isPlusDecimal value || Text.isPattern value then
      some ⟨String.ofList name, some (String.ofList value)⟩
    else none

namespace Directive

/-- Whether a directive may begin with a character. -/
def canBegin (c : Char) : Bool := Text.isAlphanumeric c || c ∈ ['-', ':', '_']

/-- Reads the level behind an equals sign. -/
def readLevel? (d : Directive) (s : List Char) (r : Cursor) : Option Directive := do
  let level ← r.pass.rest? s
  if level = [] then return { d with level? := some .trace }
  else return { d with level? := ← levelOf? level }

/-- Reads what is behind a closing bracket: a level, or nothing. -/
def readEnd? (d : Directive) (s : List Char) (r : Cursor) : Option Directive :=
  match r.marks with
  | [] => some d
  | c :: _ => if c = '=' then d.readLevel? s r else none

/-- Reads what is in brackets, from the opening bracket on, and what is behind them. -/
def readBrackets? (d : Directive) (s : List Char) (r : Cursor) : Option Directive := do
  let (span, r) ← r.pass.upTo? [']', '{'] s
  if r.marks.head? = some ']' then readEnd? { d with span? := some span } s r.pass
  else if r.marks.head? = some '{' then
    let (field, r) ← r.pass.upTo? ['}'] s
    let field ← FieldMatch.ofChars? field.toList
    if r.marks.take 2 = ['}', ']'] then
      readEnd? { d with span? := if span = "" then none else some span, field? := some field } s
        r.pass.pass
    else none
  else none

def ofChars? (s : List Char) : Option Directive := do
  let r : Cursor := { marks := Text.trim s }
  let c ← r.marks.head?
  if c = '[' then readBrackets? {} s r
  else if canBegin c then
    if r.marks.all (· ∉ ['=', '[']) then
      match levelOf? s with
      | some level? => return { level? }
      | none => return { target? := some (String.ofList s) }
    else
      let (target, r) ← r.upTo? ['=', '['] s
      if r.marks.head? = some '=' then readLevel? { target? := some target } s r
      else readBrackets? { target? := some target } s r
  else none

/-! ### Matching -/

/-- Whether a directive is for an event outside of all spans. -/
def isFor (d : Directive) (e : Record) : Bool :=
  d.span?.isNone && d.target?.all (fun start => start.toList.isPrefixOf e.target.toList) &&
    d.field?.all fun field => field.value?.isNone && field.name ∈ e.fieldNames

/-- How specific the target of a directive is: by its length. -/
def targetWeight (d : Directive) : Nat :=
  match d.target? with
  | some start => start.utf8ByteSize + 1
  | none => 0

/-- Whether, of two directives for an event, the second decides if it stands last: the one with the
longer target does; of equals, one with a field before one without, and the one whose field has the
greater name. -/
def yieldsTo (d e : Directive) : Bool :=
  if d.targetWeight = e.targetWeight then
    match d.field?, e.field? with
    | none, _ => true
    | some _, none => false
    | some f, some g => f.name ≤ g.name
  else d.targetWeight < e.targetWeight

end Directive

end Wordcode.Log
