import Wordcode.Text.Alphanumeric
import Wordcode.Text.Pattern.Element

/-! What an opening parenthesis opens: a group, perhaps with a name or with flags of its own, or a
change of flags. -/

namespace Wordcode.Text.Pattern

/-- Changes flags by the letters between the question mark of a group and its colon or closing
parenthesis: those after a hyphen are taken away.  No letter may stand twice. -/
def Flags.change? (flags : Flags) (letters : List Char) : Option Flags :=
  let named := letters.filter (· ≠ '-')
  if named.all (· ∈ "imsUuRx".toList) && named.Nodup && letters.count '-' ≤ 1 &&
      letters.getLast? ≠ some '-' then
    let added := letters.takeWhile (· ≠ '-')
    let state (letter : Char) (before : Bool) : Bool :=
      if letter ∈ named then decide (letter ∈ added) else before
    some ⟨state 'u' flags.wide, state 'i' flags.folded, state 'x' flags.spaced⟩
  else none

/-- What stands at an opening parenthesis. -/
inductive Opening where
  /-- A group, perhaps with a name. -/
  | group (name? : Option (List Char))
  /-- Flags for the rest of the group around. -/
  | change

/-- Whether a text is the name of a group. -/
def isName : List Char → Bool
  | [] => false
  | c :: rest =>
    (c = '_' || isAlphabetic c) && rest.all fun d => d ∈ ['_', '.', '[', ']'] || isAlphanumeric d

/-- Reads the name of a group, up to the angle bracket behind it. -/
def name? (s : List Char) : Option (List Char × List Char) :=
  let name := s.takeWhile (· ≠ '>')
  if isName name && name.length < s.length then some (name, s.drop (name.length + 1)) else none

theorem length_name?_le {s name rest : List Char} (h : name? s = some (name, rest)) :
    rest.length ≤ s.length := by
  unfold name? at h
  simp only [Option.ite_none_right_eq_some, Option.some.injEq, Prod.mk.injEq] at h
  obtain ⟨-, -, rfl⟩ := h
  simp

/-- Reads the letters of flags, up to the colon or the parenthesis behind them. -/
def change? (flags : Flags) (s : List Char) : Option (Opening × Flags × List Char) :=
  let letters := s.takeWhile fun c => c ≠ ':' && c ≠ ')'
  match flags.change? letters, s.drop letters.length with
  | some changed, ':' :: rest => some (.group none, changed, rest)
  | some changed, ')' :: rest => if letters = [] then none else some (.change, changed, rest)
  | _, _ => none

theorem length_change?_le {flags changed : Flags} {o : Opening} {s rest : List Char}
    (h : change? flags s = some (o, changed, rest)) : rest.length ≤ s.length := by
  have hdrop (n : Nat) (c : Char) (r : List Char) (hr : s.drop n = c :: r) :
      r.length ≤ s.length := by
    have := congrArg List.length hr
    simp only [List.length_drop, List.length_cons] at this
    omega
  unfold change? at h
  dsimp only at h
  split at h
  · rename_i hr
    obtain ⟨-, -, rfl⟩ : _ ∧ _ ∧ _ := by simpa using h
    exact hdrop _ _ _ hr
  · rename_i hr
    obtain ⟨-, -, -, rfl⟩ : _ ∧ _ ∧ _ ∧ _ := by simpa using h
    exact hdrop _ _ _ hr
  · simp at h

/-- Reads what follows an opening parenthesis: what it opens, and the flags from there on. -/
def opening? (flags : Flags) (s : List Char) : Option (Opening × Flags × List Char) :=
  let named : List Char × List Char → Opening × Flags × List Char
    | (name, rest) => (.group (some name), flags, rest)
  match s with
  | '?' :: 'P' :: '<' :: rest => (name? rest).map named
  | '?' :: '<' :: rest => (name? rest).map named
  | '?' :: rest => change? flags rest
  | _ => some (.group none, flags, s)

theorem length_opening?_le {flags changed : Flags} {o : Opening} {s rest : List Char}
    (h : opening? flags s = some (o, changed, rest)) : rest.length ≤ s.length := by
  have hname (s : List Char)
      (h : ((name? s).map fun (name, rest) => (Opening.group (some name), flags, rest)) =
        some (o, changed, rest)) : rest.length ≤ s.length := by
    obtain ⟨⟨name, tail⟩, hn, heq⟩ := Option.map_eq_some_iff.1 h
    obtain ⟨-, -, rfl⟩ : _ ∧ _ ∧ tail = rest := by simpa using heq
    exact length_name?_le hn
  unfold opening? at h
  dsimp only at h
  split at h
  · have := hname _ h
    simp only [List.length_cons]
    omega
  · have := hname _ h
    simp only [List.length_cons]
    omega
  · exact Nat.le_succ_of_le (length_change?_le h)
  · obtain ⟨-, -, rfl⟩ : _ ∧ _ ∧ s = rest := by simpa using h
    exact Nat.le_refl _

end Wordcode.Text.Pattern
