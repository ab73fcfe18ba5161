import Wordcode.Text.Pattern.Class
import Wordcode.Text.Pattern.Group
import Wordcode.Text.Pattern.Nesting

/-! Patterns: which texts are regular expressions that an automaton over characters can match.
Groups, classes, escapes and flags are read from left to right; what a pattern matches is not asked
here.  Counted repetitions and braced escapes end with a brace, which the texts in question do not
hold, so an opening brace outside of classes is never part of a pattern. -/

namespace Wordcode.Text

namespace Pattern

/-- How far a pattern has been read. -/
structure Progress where
  flags : Flags := {}
  /-- The names of the groups so far. -/
  names : List (List Char) := []
  /-- The innermost open group, or the pattern. -/
  level : Level := {}
  /-- What is around each open group, the innermost first, with the flags that hold there. -/
  around : List (Flags × Level) := []
  /-- The open classes, the innermost first. -/
  brackets : List Brackets := []

namespace Progress

def push (p : Progress) (depth : Nat) : Progress :=
  { p with level := { p.level with items := p.level.items.push depth } }

def openClass? (p : Progress) (s : List Char) : Option (Progress × List Char) :=
  (Pattern.openClass? p.flags s).map fun rest =>
    ({ p with brackets := {} :: p.brackets }, rest)

/-- Closes the class `b`, which is in the classes `outer`. -/
def closeClass (p : Progress) (b : Brackets) (outer : List Brackets) : Progress :=
  match outer with
  | around :: outer => { p with brackets := around.push b.nesting :: outer }
  | [] => { p with brackets := [] }.push b.nesting

/-- Goes on in the class `b`, which is in the classes `outer`.  Hyphens that a class begins with
stand for themselves, and so does a closing bracket that it begins with. -/
def stepInClass? (p : Progress) (b : Brackets) (outer : List Brackets) (c : Char)
    (rest : List Char) : Option (Progress × List Char) :=
  let next (b : Brackets) : Progress := { p with brackets := b :: outer }
  if b.fresh ∧ (c = '-' ∨ c = ']' ∧ b.items.size = 0) then
    if p.flags.admitsChar then some (next { b.push 0 with fresh := c = '-' }, rest) else none
  else if c = ']' then some (p.closeClass b outer, rest)
  else if c = '[' then
    match namedClass? rest with
    | some (negated, rest) =>
      if p.flags.admitsNamed negated then some (next (b.push 0), rest) else none
    | none => (next { b with fresh := false }).openClass? rest
  else if c ∈ ['&', '-', '~'] ∧ rest.head? = some c then some (next b.operator, rest.tail)
  else (member? p.flags c rest).map fun rest => (next (b.push 0), rest)

/-- Opens what stands at an opening parenthesis. -/
def openGroup? (p : Progress) (s : List Char) : Option (Progress × List Char) :=
  match opening? p.flags (p.flags.skip s) with
  | some (.group name?, flags, rest) =>
    if name?.any (· ∈ p.names) then none
    else
      some
        ({ p with
            flags
            names := name?.toList ++ p.names
            level := {}
            around := (p.flags, p.level) :: p.around }, rest)
  | some (.change, flags, rest) =>
    some ({ p with flags, level := { p.level with items := p.level.items.pushChange } }, rest)
  | none => none

/-- Closes the innermost group, with which its flags end. -/
def closeGroup? (p : Progress) : Option Progress :=
  match p.around with
  | (flags, level) :: around =>
    some ({ p with flags, level, around }.push (p.level.nesting + 1))
  | [] => none

def repeatLast? (p : Progress) : Option Progress :=
  p.level.items.repeatLast?.map fun items => { p with level := { p.level with items } }

def element? (p : Progress) (c : Char) (rest : List Char) : Option (Progress × List Char) :=
  if c = '.' then (if p.flags.wide then some (p.push 0, rest) else none)
  else if c ∈ ['^', '$'] then some (p.push 0, rest)
  else
    match atom? p.flags c rest with
    | some (a, rest) => if p.flags.admits a then some (p.push 0, rest) else none
    | none => none

/-- Goes on outside of classes.  A question mark right behind the sign of a repetition belongs to
it. -/
def stepOutside? (p : Progress) (c : Char) (rest : List Char) : Option (Progress × List Char) :=
  if c = '(' then p.openGroup? rest
  else if c = ')' then p.closeGroup?.map fun p => (p, rest)
  else if c = '|' then some ({ p with level := p.level.alternative }, rest)
  else if c ∈ ['?', '*', '+'] then
    p.repeatLast?.map fun p => (p, if rest.head? = some '?' then rest.tail else rest)
  else if c = '[' then p.openClass? rest
  else if c = '{' then none
  else p.element? c rest

/-- Goes on with the character `c`, in front of `rest`. -/
def step? (p : Progress) (c : Char) (rest : List Char) : Option (Progress × List Char) :=
  match p.brackets with
  | b :: outer => p.stepInClass? b outer c rest
  | [] => p.stepOutside? c rest

/-! ### Each step ends further on -/

theorem length_openClass?_le {p q : Progress} {s rest : List Char}
    (h : p.openClass? s = some (q, rest)) : rest.length ≤ s.length := by
  obtain ⟨tail, ht, heq⟩ := Option.map_eq_some_iff.1 h
  obtain ⟨-, rfl⟩ := Prod.mk.inj heq
  exact Pattern.length_openClass?_le ht

theorem length_stepInClass?_le {p q : Progress} {b : Brackets} {outer : List Brackets} {c : Char}
    {s rest : List Char} (h : p.stepInClass? b outer c s = some (q, rest)) :
    rest.length ≤ s.length := by
  unfold stepInClass? at h
  dsimp only at h
  split at h
  · obtain ⟨-, -, rfl⟩ : _ ∧ _ ∧ s = rest := by simpa using h
    exact Nat.le_refl _
  · split at h
    · obtain ⟨-, rfl⟩ := Prod.mk.inj (Option.some.inj h)
      exact Nat.le_refl _
    · split at h
      · split at h
        · rename_i negated tail hn
          obtain ⟨-, -, rfl⟩ : _ ∧ _ ∧ tail = rest := by simpa using h
          exact length_namedClass?_le hn
        · exact length_openClass?_le h
      · split at h
        · obtain ⟨-, rfl⟩ := Prod.mk.inj (Option.some.inj h)
          simp
        · obtain ⟨tail, ht, heq⟩ := Option.map_eq_some_iff.1 h
          obtain ⟨-, rfl⟩ := Prod.mk.inj heq
          exact length_member?_le ht

theorem length_openGroup?_le {p q : Progress} {s rest : List Char}
    (h : p.openGroup? s = some (q, rest)) : rest.length ≤ s.length := by
  have hs := p.flags.length_skip_le s
  unfold openGroup? at h
  split at h
  · rename_i tail ho
    have := length_opening?_le ho
    obtain ⟨-, -, rfl⟩ : _ ∧ _ ∧ tail = rest := by simpa using h
    omega
  · rename_i tail ho
    have := length_opening?_le ho
    obtain ⟨-, rfl⟩ := Prod.mk.inj (Option.some.inj h)
    omega
  · simp at h

theorem length_element?_le {p q : Progress} {c : Char} {s rest : List Char}
    (h : p.element? c s = some (q, rest)) : rest.length ≤ s.length := by
  unfold element? at h
  split at h
  · obtain ⟨-, -, rfl⟩ : _ ∧ _ ∧ s = rest := by simpa using h
    exact Nat.le_refl _
  · split at h
    · obtain ⟨-, rfl⟩ := Prod.mk.inj (Option.some.inj h)
      exact Nat.le_refl _
    · split at h
      · rename_i tail ha
        obtain ⟨-, -, rfl⟩ : _ ∧ _ ∧ tail = rest := by simpa using h
        exact length_atom?_le ha
      · simp at h

theorem length_stepOutside?_le {p q : Progress} {c : Char} {s rest : List Char}
    (h : p.stepOutside? c s = some (q, rest)) : rest.length ≤ s.length := by
  unfold stepOutside? at h
  split at h
  · exact length_openGroup?_le h
  · split at h
    · obtain ⟨_, -, heq⟩ := Option.map_eq_some_iff.1 h
      obtain ⟨-, rfl⟩ := Prod.mk.inj heq
      exact Nat.le_refl _
    · split at h
      · obtain ⟨-, rfl⟩ := Prod.mk.inj (Option.some.inj h)
        exact Nat.le_refl _
      · split at h
        · obtain ⟨_, -, heq⟩ := Option.map_eq_some_iff.1 h
          obtain ⟨-, rfl⟩ := Prod.mk.inj heq
          split <;> simp
        · split at h
          · exact length_openClass?_le h
          · split at h
            · simp at h
            · exact length_element?_le h

theorem length_step?_le {p q : Progress} {c : Char} {s rest : List Char}
    (h : p.step? c s = some (q, rest)) : rest.length ≤ s.length := by
  unfold step? at h
  split at h
  · exact length_stepInClass?_le h
  · exact length_stepOutside?_le h

end Progress

/-- Reads a pattern to its end. -/
def read? (p : Progress) (s : List Char) : Option Progress :=
  match _ : p.flags.skip s with
  | [] => some p
  | c :: rest =>
    match _ : p.step? c rest with
    | some (q, rest) => read? q rest
    | none => none
termination_by s.length
decreasing_by
  rename_i hs hn
  have hskip := p.flags.length_skip_le s
  have hstep := Progress.length_step?_le hn
  rw [hs, List.length_cons] at hskip
  omega

/-- Whether a pattern may end here: all of its groups and classes are closed, and it does not nest
too deep. -/
def Progress.isComplete (p : Progress) : Bool :=
  p.brackets.isEmpty && p.around.isEmpty && p.level.nesting ≤ nestingLimit

end Pattern

def isPattern (s : List Char) : Bool := (Pattern.read? {} s).any Pattern.Progress.isComplete

end Wordcode.Text
