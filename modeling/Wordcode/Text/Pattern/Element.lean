import Wordcode.Text.Blank

/-! The elements of a pattern: its characters, the escapes that begin with a backslash, and the
flags that decide what they stand for.

Letters, digits and blanks are told apart in ASCII only.  So a pattern over characters, which are
those of all scripts, has no classes of digits, blanks, words or categories, knows no bounds of
words, and cannot take capital and small letters for alike.  A pattern over bytes has classes,
bounds and cases of ASCII, but whatever it matches has to be text, so that no element of it may
match a byte above 127. -/

namespace Wordcode.Text.Pattern

/-- The flags that decide what may stand in a pattern. -/
structure Flags where
  /-- Whether the pattern is over characters; otherwise it is over bytes. -/
  wide : Bool := true
  /-- Whether capital and small letters are alike. -/
  folded : Bool := false
  /-- Whether blanks and comments are passed over. -/
  spaced : Bool := false

/-! ### Blanks and comments -/

/-- A text without the blanks and comments at its start; a comment goes from a number sign to the
end of the line. -/
def dropSpace (comment : Bool) : List Char → List Char
  | [] => []
  | c :: rest =>
    if comment then dropSpace (c ≠ '\n') rest
    else if isBlank c then dropSpace false rest
    else if c = '#' then dropSpace true rest
    else c :: rest

theorem length_dropSpace_le (comment : Bool) (s : List Char) :
    (dropSpace comment s).length ≤ s.length := by
  fun_induction dropSpace comment s with
  | case1 => exact Nat.le_refl _
  | case2 c rest ih => exact Nat.le_succ_of_le ih
  | case3 _ c rest _ _ ih => exact Nat.le_succ_of_le ih
  | case4 _ rest _ _ ih => exact Nat.le_succ_of_le ih
  | case5 => exact Nat.le_refl _

/-- A text without what the flags say to pass over at its start. -/
def Flags.skip (flags : Flags) (s : List Char) : List Char :=
  if flags.spaced then dropSpace false s else s

theorem Flags.length_skip_le (flags : Flags) (s : List Char) :
    (flags.skip s).length ≤ s.length := by
  unfold Flags.skip
  split
  · exact length_dropSpace_le false s
  · exact Nat.le_refl _

/-! ### Escapes -/

/-- What one element of a pattern stands for. -/
inductive Atom where
  /-- One character. -/
  | char (c : Char)
  /-- Any character of a set. -/
  | set
  /-- A place between characters. -/
  | place

/-- Whether a character may stand in a pattern. -/
def Flags.admitsChar (flags : Flags) : Bool := !(flags.wide && flags.folded)

/-- Whether an element may stand outside of classes. -/
def Flags.admits (flags : Flags) : Atom → Bool
  | .char _ => flags.admitsChar
  | .set | .place => true

/-- Whether an element may stand in a class. -/
def Flags.admitsInClass (flags : Flags) : Atom → Bool
  | .char c => flags.admitsChar && (flags.wide || c.toNat < 128)
  | .set => true
  | .place => false

/-- The value of a hexadecimal digit. -/
def hexDigit? (c : Char) : Option Nat :=
  if '0' ≤ c ∧ c ≤ '9' then some (c.toNat - '0'.toNat)
  else if 'a' ≤ c ∧ c ≤ 'f' then some (c.toNat - 'a'.toNat + 10)
  else if 'A' ≤ c ∧ c ≤ 'F' then some (c.toNat - 'A'.toNat + 10)
  else none

/-- Reads `size` hexadecimal digits, of which `n` is the value so far. -/
def hexNumber? (flags : Flags) (size n : Nat) (s : List Char) : Option (Nat × List Char) :=
  match size, s with
  | 0, s => some (n, s)
  | _ + 1, [] => none
  | size + 1, c :: rest =>
    match hexDigit? c with
    | some d => hexNumber? flags size (n * 16 + d) (flags.skip rest)
    | none => none

theorem length_hexNumber?_le {flags : Flags} {size n m : Nat} {s rest : List Char}
    (h : hexNumber? flags size n s = some (m, rest)) : rest.length ≤ s.length := by
  fun_induction hexNumber? flags size n s with
  | case1 => simp_all
  | case2 => simp at h
  | case3 n size c tail d hd ih =>
    have := ih h
    have := flags.length_skip_le tail
    simp only [List.length_cons]
    omega
  | case4 => simp at h

/-- Reads the character whose code point is written with `size` hexadecimal digits.  In a pattern
over bytes two digits write a byte, which is a character below 128 only. -/
def hexChar? (flags : Flags) (size : Nat) (s : List Char) : Option (Char × List Char) :=
  match hexNumber? flags size 0 (flags.skip s) with
  | some (n, rest) =>
    if n.isValidChar ∧ (flags.wide ∨ size ≠ 2 ∨ n < 128) then some (Char.ofNat n, rest) else none
  | none => none

theorem length_hexChar?_le {flags : Flags} {size : Nat} {c : Char} {s rest : List Char}
    (h : hexChar? flags size s = some (c, rest)) : rest.length ≤ s.length := by
  unfold hexChar? at h
  split at h
  · rename_i n tail hn
    have := length_hexNumber?_le hn
    have := flags.length_skip_le s
    split at h
    · obtain ⟨-, rfl⟩ : Char.ofNat n = c ∧ tail = rest := by simpa using h
      omega
    · simp at h
  · simp at h

/-- The number of hexadecimal digits that follow a letter behind a backslash. -/
def hexSize? : Char → Option Nat
  | 'x' => some 2
  | 'u' => some 4
  | 'U' => some 8
  | _ => none

/-- The control character that a letter behind a backslash stands for. -/
def control? : Char → Option Char
  | 'a' => some '\x07'
  | 't' => some '\t'
  | 'n' => some '\n'
  | 'v' => some '\x0b'
  | 'f' => some '\x0c'
  | 'r' => some '\r'
  | _ => none

/-- Whether a backslash before a character stands for the character itself: in front of every ASCII
character but letters, digits and angle brackets. -/
def isEscapable (c : Char) : Bool := c.toNat < 128 && !c.isAlphanum && c ≠ '<' && c ≠ '>'

/-- What a single character behind a backslash stands for. -/
def escaped? (flags : Flags) (c : Char) : Option Atom :=
  match control? c with
  | some c => some (.char c)
  | none =>
    if c ∈ ['A', 'z'] then some .place
    else if c ∈ ['b', 'B', '<', '>'] then (if flags.wide then none else some .place)
    else if c ∈ ['d', 's', 'w'] then (if flags.wide then none else some .set)
    else if isEscapable c then some (.char c)
    else none

/-- Reads what follows a backslash. -/
def escape? (flags : Flags) : List Char → Option (Atom × List Char)
  | [] => none
  | c :: rest =>
    match hexSize? c with
    | some size => (hexChar? flags size rest).map fun (c, rest) => (.char c, rest)
    | none => (escaped? flags c).map fun a => (a, rest)

theorem length_escape?_le {flags : Flags} {a : Atom} {s rest : List Char}
    (h : escape? flags s = some (a, rest)) : rest.length ≤ s.length := by
  unfold escape? at h
  split at h
  · simp at h
  · rename_i c tail
    simp only [List.length_cons]
    split at h
    · obtain ⟨⟨d, rest'⟩, hd, heq⟩ := Option.map_eq_some_iff.1 h
      have := length_hexChar?_le hd
      obtain ⟨-, rfl⟩ := Prod.mk.inj heq
      omega
    · obtain ⟨b, -, heq⟩ := Option.map_eq_some_iff.1 h
      obtain ⟨-, rfl⟩ := Prod.mk.inj heq
      omega

/-- Reads an element whose first character is `c`, where only a backslash has a meaning of its
own. -/
def atom? (flags : Flags) (c : Char) (rest : List Char) : Option (Atom × List Char) :=
  if c = '\\' then escape? flags rest else some (.char c, rest)

theorem length_atom?_le {flags : Flags} {c : Char} {a : Atom} {s rest : List Char}
    (h : atom? flags c s = some (a, rest)) : rest.length ≤ s.length := by
  unfold atom? at h
  split at h
  · exact length_escape?_le h
  · obtain ⟨-, rfl⟩ := Prod.mk.inj (Option.some.inj h)
    exact Nat.le_refl _

end Wordcode.Text.Pattern
