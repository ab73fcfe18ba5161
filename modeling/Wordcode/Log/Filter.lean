import Wordcode.Log.Directive
import Wordcode.Text.Column

/-! Log filters: which events are shown, by a comma-separated list of directives. -/

namespace Wordcode.Log

abbrev Filter := List Directive

def splitAtCommas : List Char → List (List Char)
  | [] => [[]]
  | c :: rest =>
    if c = ',' then [] :: splitAtCommas rest
    else
      match splitAtCommas rest with
      | part :: parts => (c :: part) :: parts
      | [] => [[c]]

namespace Filter

/-- The filter that a text gives, if all of its directives can be read; empty ones are left out. -/
def parse? (s : List Char) : Option Filter :=
  ((splitAtCommas s).filter (· ≠ [])).mapM Directive.ofChars?

def defaultText : String := "warn"

/-- The filter that is used when none is given, or when it is blank or cannot be read. -/
def default : Filter := [{ level? := some .warn }]

/-- The filter for a setting, which may be absent.  Blanks at its ends do not count. -/
def ofSetting (setting? : Option String) : Filter :=
  let s := Text.trim ((setting?.getD "").toList)
  if s = [] then default else (parse? s).getD default

/-- The directive that decides about an event: the most specific one, and of equals the last. -/
def deciding (f : Filter) (e : Record) : Option Directive :=
  (f.filter fun d => d.isFor e).foldl
    (fun best? d =>
      match best? with
      | some best => if best.yieldsTo d then some d else best?
      | none => some d)
    none

def admits (f : Filter) (e : Record) : Bool :=
  match (f.deciding e).bind Directive.level? with
  | some least => e.level.rank ≤ least.rank
  | none => false

end Filter

def Record.line (r : Record) : String :=
  Text.alignRight 5 r.level.name ++ " " ++ r.target ++ ": " ++ r.message ++
    String.join (r.fields.map fun (name, value) => " " ++ name ++ "=" ++ value.display)

end Wordcode.Log
