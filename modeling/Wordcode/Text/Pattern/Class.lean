import Wordcode.Text.Pattern.Element

/-! The parts of a class, which is a set of characters between brackets: how it opens, the named
classes that it may hold, and its members, which are single elements and ranges. -/

namespace Wordcode.Text.Pattern

/-- Reads what follows an opening bracket: a circumflex asks for the complement, which a pattern
over bytes may not have. -/
def openClass? (flags : Flags) (s : List Char) : Option (List Char) :=
  match flags.skip s with
  | '^' :: rest => if flags.wide then some rest else none
  | rest => some rest

theorem length_openClass?_le {flags : Flags} {s rest : List Char}
    (h : openClass? flags s = some rest) : rest.length ≤ s.length := by
  have hs := flags.length_skip_le s
  unfold openClass? at h
  split at h
  · rename_i tail htail
    obtain ⟨-, rfl⟩ : _ ∧ tail = rest := by simpa using h
    rw [htail, List.length_cons] at hs
    omega
  · obtain rfl := Option.some.inj h
    exact hs

/-- The names of the named classes. -/
def classNames : List String :=
  ["alnum", "alpha", "ascii", "blank", "cntrl", "digit", "graph", "lower", "print", "punct",
    "space", "upper", "word", "xdigit"]

/-- Reads a named class behind its opening bracket, as in `:alpha:]` or `:^alpha:]`: whether it is a
complement, and what follows. -/
def namedClass? (s : List Char) : Option (Bool × List Char) :=
  match s with
  | ':' :: s =>
    let negated : Bool := s.head? = some '^'
    let s := if negated then s.tail else s
    let name := s.takeWhile (· ≠ ':')
    if String.ofList name ∈ classNames ∧ (s.drop name.length).take 2 = [':', ']'] then
      some (negated, s.drop (name.length + 2))
    else none
  | _ => none

theorem length_namedClass?_le {s rest : List Char} {negated : Bool}
    (h : namedClass? s = some (negated, rest)) : rest.length ≤ s.length := by
  unfold namedClass? at h
  split at h
  · simp only [Option.ite_none_right_eq_some, Option.some.injEq, Prod.mk.injEq] at h
    obtain ⟨-, -, rfl⟩ := h
    split <;> simp <;> omega
  · simp at h

/-- Whether a named class may stand in a pattern: it is a set of ASCII characters. -/
def Flags.admitsNamed (flags : Flags) (negated : Bool) : Bool :=
  flags.admitsChar && (flags.wide || !negated)

/-- Whether a hyphen in a class stands for itself, and not for a range: it does before a closing
bracket or another hyphen.  Where blanks are passed over, so is the sign of a comment here, but not
the comment. -/
def hyphenStands (flags : Flags) (s : List Char) : Bool :=
  let next? :=
    if flags.spaced then
      match s.dropWhile isBlank with
      | '#' :: rest => (rest.dropWhile isBlank).head?
      | rest => rest.head?
    else s.head?
  next? = some ']' || next? = some '-'

/-- Reads a member of a class whose first character is `c`: an element, or a range of
characters. -/
def member? (flags : Flags) (c : Char) (rest : List Char) : Option (List Char) :=
  match atom? flags c rest with
  | none => none
  | some (a, rest) =>
    if flags.admitsInClass a then
      match flags.skip rest with
      | '-' :: more =>
        if hyphenStands flags more then some ('-' :: more)
        else
          match flags.skip more with
          | [] => none
          | d :: more =>
            match a, atom? flags d more with
            | .char low, some (.char high, rest) =>
              if low ≤ high ∧ flags.admitsInClass (.char high) then some rest else none
            | _, _ => none
      | rest => some rest
    else none

theorem length_member?_le {flags : Flags} {c : Char} {s rest : List Char}
    (h : member? flags c s = some rest) : rest.length ≤ s.length := by
  unfold member? at h
  split at h
  · simp at h
  · rename_i a tail ha
    have htail := length_atom?_le ha
    have hskip := flags.length_skip_le tail
    split at h
    · split at h
      · rename_i more hmore
        rw [hmore, List.length_cons] at hskip
        split at h
        · obtain rfl := Option.some.inj h
          simp only [List.length_cons]
          omega
        · split at h
          · simp at h
          · rename_i d more' hmore'
            have hskip' := flags.length_skip_le more
            rw [hmore', List.length_cons] at hskip'
            split at h
            · rename_i rest' hhigh _
              have := length_atom?_le hhigh
              obtain ⟨-, rfl⟩ : _ ∧ rest' = rest := by simpa using h
              omega
            · simp at h
      · obtain rfl := Option.some.inj h
        omega
    · simp at h

end Wordcode.Text.Pattern
