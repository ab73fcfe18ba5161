import Wordcode.Store
import Wordcode.Text.Column

/-! Texts in lines, columns and words: how a text that was set in columns is read back.  Lines end
with line feeds, and words are parted by blanks, so a cell that holds one word gives it back however
wide it was set. -/

namespace Wordcode.Text

/-- The lines of a text in which each line ends with a line feed. -/
def lines (s : String) : List (List Char) := (s.toList.splitOn '\n').dropLast

/-- The words of a line, which blanks part. -/
def words (row : List Char) : List (List Char) := (row.splitOn ' ').filter (· ≠ [])

/-! ### Lines -/

theorem lines_of_toList {s : String} {ls : List (List Char)} (hls : ∀ l ∈ ls, '\n' ∉ l)
    (h : s.toList = ls.flatMap (· ++ ['\n'])) : lines s = ls := by
  rw [lines, h, List.splitOn_eq_splitOnP]
  clear h
  induction ls with
  | nil => rfl
  | cons l rest ih =>
    obtain ⟨hl, hrest⟩ := List.forall_mem_cons.mp hls
    have hline : ∀ c ∈ l, (c == '\n') = false := fun c hc =>
      beq_eq_false_iff_ne.mpr fun heq => hl (heq ▸ hc)
    rw [List.flatMap_cons, List.append_assoc, List.singleton_append,
      List.splitOnP_append_cons_of_forall_mem hline '\n' (beq_self_eq_true '\n'),
      List.dropLast_cons_of_ne_nil (List.splitOnP_ne_nil _ _), ih hrest]

/-! ### Words -/

/-- A text that is one word. -/
def IsWord (w : List Char) : Prop := w ≠ [] ∧ ' ' ∉ w

theorem words_append_blank (w rest : List Char) :
    words (w ++ ' ' :: rest) = words w ++ words rest := by
  have hsplit : List.splitOnP (· == ' ') (w ++ ' ' :: rest) =
      List.splitOnP (· == ' ') w ++ List.splitOnP (· == ' ') rest :=
    List.splitOnP_append_cons w rest (beq_self_eq_true ' ')
  simp only [words, List.splitOn_eq_splitOnP, hsplit, List.filter_append]

@[simp] theorem words_nil : words [] = [] := rfl

theorem words_blank_cons (rest : List Char) : words (' ' :: rest) = words rest :=
  words_append_blank [] rest

@[simp] theorem words_replicate_append (n : Nat) (rest : List Char) :
    words (List.replicate n ' ' ++ rest) = words rest := by
  induction n with
  | zero => rfl
  | succ n ih => rw [List.replicate_succ, List.cons_append, words_blank_cons, ih]

theorem IsWord.words {w : List Char} (h : IsWord w) : words w = [w] := by
  have hblank : ∀ c ∈ w, (c == ' ') = false := fun c hc =>
    beq_eq_false_iff_ne.mpr fun heq => h.2 (heq ▸ hc)
  rw [Text.words, List.splitOn_eq_splitOnP, List.splitOnP_eq_singleton hblank]
  simp [h.1]

/-- What follows a word does not reach into it: it is nothing, or begins with a blank. -/
def Apart (rest : List Char) : Prop := ∀ c ∈ rest.head?, c = ' '

theorem apart_nil : Apart [] := fun _ hc => by cases hc

theorem apart_blank_cons (rest : List Char) : Apart (' ' :: rest) :=
  fun _ hc => (Option.some.inj hc).symm

theorem Apart.replicate_append {rest : List Char} (h : Apart rest) (n : Nat) :
    Apart (List.replicate n ' ' ++ rest) := by
  cases n with
  | zero => exact h
  | succ n => exact apart_blank_cons _

theorem IsWord.words_append {w rest : List Char} (h : IsWord w) (hrest : Apart rest) :
    Text.words (w ++ rest) = w :: Text.words rest := by
  cases rest with
  | nil => rw [List.append_nil, h.words, words_nil]
  | cons c rest =>
    obtain rfl : c = ' ' := hrest c rfl
    rw [words_append_blank, h.words, words_blank_cons]
    rfl

theorem not_mem_toList_append {c : Char} {s t : String} :
    c ∉ (s ++ t).toList ↔ c ∉ s.toList ∧ c ∉ t.toList := by
  rw [String.toList_append, List.mem_append, not_or]

theorem toList_blank_append (s : String) : (" " ++ s).toList = ' ' :: s.toList :=
  String.toList_append

/-! ### Cells -/

theorem toList_blanks (n : Nat) : (blanks n).toList = List.replicate n ' ' := by
  induction n with
  | zero => rfl
  | succ n ih =>
    have hpush : blanks (n + 1) = (blanks n).push ' ' := rfl
    rw [hpush, String.toList_push, ih, List.replicate_succ']

theorem toList_alignRight (width : Nat) (s : String) :
    (alignRight width s).toList = List.replicate (width - s.length) ' ' ++ s.toList := by
  rw [alignRight, String.toList_append, toList_blanks]

theorem toList_alignLeft (width : Nat) (s : String) :
    (alignLeft width s).toList = s.toList ++ List.replicate (width - s.length) ' ' := by
  rw [alignLeft, String.toList_append, toList_blanks]

/-- A cell at the start of a row shows that it is filled within its width. -/
theorem not_all_blank_alignRight {width : Nat} {s : String} (hs : IsWord s.toList)
    (hwidth : 0 < width) (rest : List Char) :
    (((alignRight width s).toList ++ rest).take width).all (· == ' ') = false := by
  obtain ⟨hne, hblank⟩ := hs
  obtain ⟨c, w, hw⟩ := List.exists_cons_of_ne_nil hne
  have hc : c ≠ ' ' := fun heq => hblank (by rw [hw, heq]; exact List.mem_cons_self)
  have hlength : s.length = w.length + 1 := by rw [← String.length_toList, hw, List.length_cons]
  obtain ⟨n, hn⟩ : ∃ n, width - (width - s.length) = n + 1 := ⟨_, (Nat.succ_pred (by omega)).symm⟩
  rw [toList_alignRight, List.append_assoc, List.take_append, List.length_replicate, hn, hw,
    List.cons_append, List.take_succ_cons, List.all_append, List.all_cons,
    beq_eq_false_iff_ne.mpr hc, Bool.false_and, Bool.and_false]

/-! ### Numbers -/

theorem toList_toString (n : Nat) : (toString n).toList = Nat.toDigits 10 n := by
  rw [Nat.toString_eq_repr, Nat.toList_repr]

theorem toString_inj {m n : Nat} (h : (toString m).toList = (toString n).toList) : m = n := by
  rw [toList_toString, toList_toString] at h
  rw [← Nat.ofDigitChars_toDigits (b := 10) (n := m) (by decide) (by decide), h,
    Nat.ofDigitChars_toDigits (by decide) (by decide)]

theorem not_mem_toString {c : Char} (hc : c.isDigit = false) (n : Nat) :
    c ∉ (toString n).toList := by
  rw [toList_toString]
  intro hmem
  rw [Nat.isDigit_of_mem_toDigits (by decide) (by decide) hmem] at hc
  cases hc

theorem isWord_toString (n : Nat) : IsWord (toString n).toList := by
  refine ⟨?_, not_mem_toString (by decide) n⟩
  rw [toList_toString]
  exact Nat.toDigits_ne_nil

theorem not_mem_toString_int {c : Char} (hc : c.isDigit = false) (hminus : c ≠ '-') (n : Int) :
    c ∉ (toString n).toList := by
  cases n with
  | ofNat n => exact not_mem_toString hc n
  | negSucc n =>
    have htext : (toString (Int.negSucc n)).toList = '-' :: (toString (n + 1)).toList :=
      String.toList_append
    rw [htext, List.mem_cons, not_or]
    exact ⟨hminus, not_mem_toString hc _⟩

/-! ### Quoted text -/

theorem digitChar_ne_lineFeed : ∀ n < 16, n.digitChar ≠ '\n' := by decide

theorem lineFeed_not_mem_hex (n : Nat) : '\n' ∉ (hex n).toList := by
  rw [hex, String.toList_ofList]
  induction n using Nat.strongRecOn with
  | ind n ih =>
    rw [Nat.toDigits_eq_if (by decide)]
    split
    · rename_i hlt
      exact fun hmem => digitChar_ne_lineFeed n hlt (List.mem_singleton.mp hmem).symm
    · rename_i hge
      rw [List.mem_append, not_or]
      refine ⟨ih _ (by omega), fun hmem => ?_⟩
      exact digitChar_ne_lineFeed _ (Nat.mod_lt n (by decide)) (List.mem_singleton.mp hmem).symm

theorem lineFeed_not_mem_escape (c : Char) : '\n' ∉ (escape c).toList := by
  unfold escape
  split
  iterate 6 decide
  split
  · simp only [not_mem_toList_append]
    exact ⟨⟨by decide, lineFeed_not_mem_hex _⟩, by decide⟩
  · rename_i hfeed _ _ _ _
    have hlist : c.toString.toList = [c] := String.toList_singleton c
    rw [hlist]
    exact fun hmem => hfeed (List.mem_singleton.mp hmem).symm

theorem lineFeed_not_mem_quote (s : String) : '\n' ∉ (quote s).toList := by
  have hfold : ∀ (cs : List Char) (out : String), '\n' ∉ out.toList →
      '\n' ∉ (cs.foldl (fun out c => out ++ escape c) out).toList := by
    intro cs
    induction cs with
    | nil => exact fun out hout => hout
    | cons c rest ih =>
      intro out hout
      exact ih _ (not_mem_toList_append.mpr ⟨hout, lineFeed_not_mem_escape c⟩)
  rw [quote, not_mem_toList_append, String.foldl_eq_foldl_toList]
  exact ⟨hfold _ _ (by decide), by decide⟩

end Wordcode.Text
