import Mathlib.Data.List.Basic
import Mathlib.Data.List.Induction
import Wordcode.Text.Number

/-! Decimal forms of numbers.  A number has one decimal form, in which no zeros stand in front, and
a text is the decimal form of at most one number. -/

namespace Wordcode.Text

/-- The text is the decimal form of the number: digits that give it, of which the first is a zero
only if it stands alone. -/
def IsDecimal (s : String) (n : Nat) : Prop :=
  digits? s.toList = some n ∧ (s.toList.head? = some '0' → s.toList = ['0'])

theorem digits?_eq_some_iff {s : List Char} {n : Nat} :
    digits? s = some n ↔ s ≠ [] ∧ (∀ c ∈ s, c.isDigit) ∧ Nat.ofDigitChars 10 s 0 = n := by
  simp [digits?, Nat.ofDigitChars_eq_foldl, Nat.mul_comm, and_assoc]

theorem digitChar_toNat_sub {c : Char} (h : c.isDigit) :
    (c.toNat - '0'.toNat).digitChar = c := by
  have hbounds := Char.isDigit_iff_toNat.mp h
  simp only [Char.reduceToNat] at hbounds ⊢
  apply Char.toNat_inj.mp
  rw [Nat.toNat_digitChar_of_lt_ten (by omega)]
  omega

/-- The digits of a number begin with a zero only if there is no other digit. -/
theorem toDigits_eq_of_head? {n : Nat} (h : (Nat.toDigits 10 n).head? = some '0') :
    Nat.toDigits 10 n = ['0'] := by
  induction n using Nat.strongRecOn with
  | ind n ih =>
    by_cases hlt : n < 10
    · rw [Nat.toDigits_of_lt_base hlt] at h ⊢
      simpa using h
    · have hsplit := Nat.toDigits_of_base_le (b := 10) (n := n) (by omega) (by omega)
      rw [hsplit, List.head?_append_of_ne_nil _ Nat.toDigits_ne_nil] at h
      have hzero : n / 10 = 0 := by
        rw [← Nat.ofDigitChars_ten_toDigits (n := n / 10), ih (n / 10) (by omega) h]
        rfl
      omega

/-- Digits without zeros in front are those of the number that they give. -/
theorem toDigits_ofDigitChars {s : List Char} (hne : s ≠ []) (hdigits : ∀ c ∈ s, c.isDigit)
    (hhead : s.head? = some '0' → s = ['0']) :
    Nat.toDigits 10 (Nat.ofDigitChars 10 s 0) = s := by
  induction s using List.reverseRecOn with
  | nil => exact absurd rfl hne
  | append_singleton s c ih =>
    obtain ⟨hs, hc⟩ := List.forall_mem_append.mp hdigits
    have hc : c.isDigit := hc c (List.mem_singleton_self c)
    have hbounds := Char.isDigit_iff_toNat.mp hc
    have hone : Nat.toDigits 10 (c.toNat - '0'.toNat) = [c] := by
      rw [Nat.toDigits_of_lt_base (by simp at hbounds ⊢; omega), digitChar_toNat_sub hc]
    by_cases hnil : s = []
    · subst hnil
      simpa [Nat.ofDigitChars_cons] using hone
    · have hfirst : s.head? ≠ some '0' := by
        intro hzero
        rw [List.head?_append_of_ne_nil _ hnil] at hhead
        have hlength := congrArg List.length (hhead hzero)
        simp at hlength
        exact hnil hlength
      have hfront := ih hnil hs fun h => absurd h hfirst
      have hpos : 0 < Nat.ofDigitChars 10 s 0 := by
        apply Nat.pos_of_ne_zero
        intro hzero
        rw [hzero, Nat.toDigits_zero] at hfront
        simp [← hfront] at hfirst
      rw [Nat.ofDigitChars_append, Nat.ofDigitChars_cons, Nat.ofDigitChars_nil,
        ← Nat.toDigits_append_toDigits (by omega) hpos (by simp at hbounds ⊢; omega), hfront, hone]

/-- Each number has just one decimal form. -/
theorem isDecimal_iff {s : String} {n : Nat} : IsDecimal s n ↔ s = toString n := by
  rw [IsDecimal, digits?_eq_some_iff, Nat.toString_eq_ofList_toDigits]
  constructor
  · rintro ⟨⟨hne, hdigits, rfl⟩, hhead⟩
    rw [toDigits_ofDigitChars hne hdigits hhead, String.ofList_toList]
  · rintro rfl
    rw [String.toList_ofList]
    exact ⟨⟨Nat.toDigits_ne_nil, fun c hc => Nat.isDigit_of_mem_toDigits (by omega) (by omega) hc,
      Nat.ofDigitChars_ten_toDigits⟩, toDigits_eq_of_head?⟩

theorem isDecimal_toString (n : Nat) : IsDecimal (toString n) n := isDecimal_iff.mpr rfl

theorem IsDecimal.text_unique {s t : String} {n : Nat} (hs : IsDecimal s n) (ht : IsDecimal t n) :
    s = t := (isDecimal_iff.mp hs).trans (isDecimal_iff.mp ht).symm

theorem IsDecimal.number_unique {s : String} {m n : Nat} (hm : IsDecimal s m)
    (hn : IsDecimal s n) : m = n := Option.some.inj (hm.1.symm.trans hn.1)

/-- A format that writes decimal forms writes different numbers differently. -/
theorem injective_of_isDecimal {format : Nat → String} (h : ∀ i, IsDecimal (format i) i) :
    Function.Injective format := by
  intro i j heq
  exact (h i).number_unique (heq ▸ h j)

end Wordcode.Text
