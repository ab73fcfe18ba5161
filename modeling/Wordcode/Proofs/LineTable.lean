import Mathlib.Algebra.Order.BigOperators.Group.List
import Mathlib.Algebra.Order.Group.Nat
import Mathlib.Data.List.Chain
import Wordcode.Proofs.Decode

/-! The line table of built code.  It has an entry for each item whose line is not that of the item
before, at the first byte of the item, and so gives every byte of an item the line that was current
when the item was added.  Its entries are in order, so it can be searched by halves. -/

namespace Wordcode

/-! ### Lines of items -/

def Command.emits : Command → Bool
  | .param _ | .localSlot _ | .globalName _ | .constant _ | .line _ | .newLabel | .bind _ => false
  | _ => true

/-- The line that is current after a command. -/
def Command.lineAfter (line : UInt32) : Command → UInt32
  | .line l => l
  | _ => line

/-- For each command that adds an item, the line that is current then. -/
def emittedLines (line : UInt32) : List Command → List UInt32
  | [] => []
  | c :: rest => (if c.emits then [line] else []) ++ emittedLines (c.lineAfter line) rest

namespace Draft

theorem line_emission (d : Draft) (c : Command) :
    (d.emission c).toList.map Item.line = if c.emits then [d.line] else [] := by
  cases c <;> rfl

theorem line_perform (d : Draft) (c : Command) : (d.perform c).line = c.lineAfter d.line := by
  cases c with
  | param name =>
    simp only [perform, param, Command.lineAfter]
    split
    · rfl
    · split <;> rfl
  | bind id =>
    simp only [perform, bind, Command.lineAfter]
    split <;> rfl
  | emit op | emitArg op | emitJump op =>
    simp only [perform, emit, emitArg, emitJump, Command.lineAfter]
    split <;> rfl
  | _ => rfl

theorem lines_performAll (d : Draft) (commands : List Command) :
    (d.performAll commands).items.toList.map Item.line =
      d.items.toList.map Item.line ++ emittedLines d.line commands := by
  induction commands generalizing d with
  | nil => simp [performAll, emittedLines]
  | cons c rest ih =>
    rw [show d.performAll (c :: rest) = (d.perform c).performAll rest from rfl, ih, items_perform,
      List.map_append, line_emission, line_perform, emittedLines, List.append_assoc]

end Draft

/-! ### The table of a layout -/

/-- The byte at which the slot `k` of a layout begins: the first byte of its first prefix, if it
has any. -/
def offsetOf (slots : List Slot) (k : Nat) : Nat := 2 * ((slots.take k).map Slot.units).sum

@[simp] theorem offsetOf_zero (slots : List Slot) : offsetOf slots 0 = 0 := rfl

@[simp] theorem offsetOf_succ_cons (s : Slot) (rest : List Slot) (k : Nat) :
    offsetOf (s :: rest) (k + 1) = 2 * s.units + offsetOf rest k := by
  simp [offsetOf, Nat.mul_add]

theorem offsetOf_mono (slots : List Slot) {j k : Nat} (h : j ≤ k) :
    offsetOf slots j ≤ offsetOf slots k := by
  have hsub := (List.take_sublist_take_left (l := slots) h).map Slot.units
  exact Nat.mul_le_mul_left 2 (hsub.sum_le_sum fun _ _ => Nat.zero_le _)

/-- The line of the slot before slot `k`, where `last?` is the one before all. -/
def lineBefore (last? : Option UInt32) (slots : List Slot) : Nat → Option UInt32
  | 0 => last?
  | k + 1 => slots[k]?.map fun s => s.item.line

theorem lineBefore_succ_cons (last? : Option UInt32) (s : Slot) (rest : List Slot) (k : Nat) :
    lineBefore last? (s :: rest) (k + 1) = lineBefore (some s.item.line) rest k := by
  cases k <;> rfl

section Table

variable {last? : Option UInt32} {start : Nat} {slots : List Slot}

/-- A slot has an entry exactly if its line is not that of the slot before. -/
theorem mem_lineTable_iff {e : LineEntry} :
    e ∈ lineTable last? start slots ↔ ∃ k s, slots[k]? = some s ∧
      e = ⟨start + offsetOf slots k, s.item.line⟩ ∧
        lineBefore last? slots k ≠ some s.item.line := by
  induction slots generalizing last? start with
  | nil => simp [lineTable]
  | cons s rest ih =>
    have hlater : e ∈ lineTable (some s.item.line) (start + 2 * s.units) rest ↔
        ∃ k t, (s :: rest)[k + 1]? = some t ∧
          e = ⟨start + offsetOf (s :: rest) (k + 1), t.item.line⟩ ∧
            lineBefore last? (s :: rest) (k + 1) ≠ some t.item.line := by
      simp only [ih, lineBefore_succ_cons, offsetOf_succ_cons, List.getElem?_cons_succ,
        Nat.add_assoc]
    have hfirst : ∀ t, (s :: rest)[0]? = some t ↔ s = t := by simp
    rw [lineTable]
    constructor
    · intro he
      split at he
      · obtain ⟨k, t, h⟩ := hlater.mp he
        exact ⟨k + 1, t, h⟩
      · rename_i hchange
        rcases List.mem_cons.mp he with rfl | he
        · exact ⟨0, s, rfl, rfl, hchange⟩
        · obtain ⟨k, t, h⟩ := hlater.mp he
          exact ⟨k + 1, t, h⟩
    · rintro ⟨k, t, hk, he, hchange⟩
      cases k with
      | zero =>
        obtain rfl := (hfirst t).mp hk
        have hchange : last? ≠ some s.item.line := hchange
        rw [if_neg hchange, he]
        exact List.mem_cons_self
      | succ k =>
        have hmem := hlater.mpr ⟨k, t, hk, he, hchange⟩
        split
        · exact hmem
        · exact List.mem_cons_of_mem _ hmem

theorem le_start_of_mem_lineTable {e : LineEntry} (he : e ∈ lineTable last? start slots) :
    start ≤ e.start := by
  obtain ⟨k, s, -, rfl, -⟩ := mem_lineTable_iff.mp he
  exact Nat.le_add_right _ _

theorem pairwise_lineTable (h : ∀ s ∈ slots, 1 ≤ s.units) :
    (lineTable last? start slots).Pairwise fun e e' => e.start < e'.start := by
  induction slots generalizing last? start with
  | nil => exact .nil
  | cons s rest ih =>
    obtain ⟨hs, hrest⟩ := List.forall_mem_cons.mp h
    rw [lineTable]
    split
    · exact ih hrest
    · refine .cons ?_ (ih hrest)
      intro e he
      have hle := le_start_of_mem_lineTable he
      show start < e.start
      omega

/-- From entry to entry the line changes. -/
theorem isChain_lineTable (last? : Option UInt32) (start : Nat) (slots : List Slot) :
    (last? :: (lineTable last? start slots).map fun e => some e.line).IsChain (· ≠ ·) := by
  induction slots generalizing last? start with
  | nil => simp [lineTable]
  | cons s rest ih =>
    have hlater := ih (some s.item.line) (start + 2 * s.units)
    rw [lineTable]
    split
    · rename_i hsame
      rwa [hsame]
    · rename_i hchange
      rw [List.map_cons]
      exact .cons_cons hchange hlater

/-! ### Reading a table -/

/-- The line that the entries of a table give a byte, if there is one at or before it. -/
def lineIn (table : List LineEntry) (offset : Nat) : Option UInt32 :=
  ((table.filter fun e => e.start ≤ offset).getLast?).map LineEntry.line

theorem Code.lineAt_eq (code : Code) (offset : Nat) :
    code.lineAt offset = (lineIn code.lines offset).getD 0 := by
  unfold lineAt lineIn
  split
  · rename_i e he
    rw [he]
    rfl
  · rename_i hnone
    rw [hnone]
    rfl

theorem lineIn_of_lt {table : List LineEntry} {offset : Nat}
    (h : ∀ e ∈ table, offset < e.start) : lineIn table offset = none := by
  have hnil : table.filter (fun e => e.start ≤ offset) = [] := by
    refine List.filter_eq_nil_iff.mpr fun e he => ?_
    have := h e he
    simpa using this
  rw [lineIn, hnil]
  rfl

theorem lineIn_cons {e : LineEntry} {offset : Nat} (h : e.start ≤ offset)
    (table : List LineEntry) :
    lineIn (e :: table) offset = (lineIn table offset).or (some e.line) := by
  rw [lineIn, lineIn, List.filter_cons_of_pos (by simpa using h), List.getLast?_cons]
  cases (table.filter fun e => e.start ≤ offset).getLast? <;> rfl

/-- From the first byte of a slot to that of the next, or on behind the last slot, the table gives
the line of the slot. -/
theorem lineIn_lineTable {k offset : Nat} {s : Slot} (hk : slots[k]? = some s)
    (hlow : start + offsetOf slots k ≤ offset)
    (hhigh : offset < start + offsetOf slots (k + 1) ∨ slots.length = k + 1) :
    (lineIn (lineTable last? start slots) offset).or last? = some s.item.line := by
  induction slots generalizing last? start k with
  | nil => simp at hk
  | cons t rest ih =>
    -- What the entries behind the first slot give, if the line of that slot came before them.
    have hlater : (lineIn (lineTable (some t.item.line) (start + 2 * t.units) rest) offset).or
        (some t.item.line) = some s.item.line := by
      cases k with
      | zero =>
        obtain rfl : t = s := by simpa using hk
        rw [lineIn_of_lt, Option.none_or]
        intro e he
        rcases hhigh with hlt | hlast
        · have hle := le_start_of_mem_lineTable he
          simp only [offsetOf_succ_cons, offsetOf_zero] at hlt
          omega
        · obtain rfl : rest = [] := by simpa using hlast
          cases he
      | succ k =>
        rw [offsetOf_succ_cons, ← Nat.add_assoc] at hlow
        refine ih (by simpa using hk) hlow ?_
        rcases hhigh with hlt | hlast
        · rw [offsetOf_succ_cons, ← Nat.add_assoc] at hlt
          exact Or.inl hlt
        · exact Or.inr (by simpa using hlast)
    rw [lineTable]
    split
    · rename_i hsame
      rwa [hsame]
    · have hstart : start ≤ offset := Nat.le_trans (Nat.le_add_right _ _) hlow
      rw [lineIn_cons hstart, hlater, Option.some_or]

end Table

/-! ### Searching by halves -/

/-- Searches the numbers from `low` up to `high` by halves for one at which `place` says that it is
the one; elsewhere `place` says whether it is before or behind.  If there is none, the answer is
where it would have to be. -/
def bisect (place : Nat → Ordering) (low high : Nat) : Except Nat Nat :=
  if low < high then
    let middle := (low + high) / 2
    match place middle with
    | .eq => .ok middle
    | .lt => bisect place (middle + 1) high
    | .gt => bisect place low middle
  else .error low
termination_by high - low

/-- What is before comes before what is behind. -/
structure InOrder (place : Nat → Ordering) : Prop where
  lt : ∀ {i j}, i ≤ j → place j = .lt → place i = .lt
  gt : ∀ {i j}, i ≤ j → place i = .gt → place j = .gt

section Bisect

variable {place : Nat → Ordering} {low high i : Nat}

theorem eq_of_bisect_ok (h : bisect place low high = .ok i) : place i = .eq := by
  fun_induction bisect place low high with
  | case1 low high _ middle heq =>
    rw [← Except.ok.inj h]
    exact heq
  | case2 _ _ _ _ _ ih => exact ih h
  | case3 _ _ _ _ _ ih => exact ih h
  | case4 => cases h

/-- A search that finds nothing parts what is before from what is behind. -/
theorem bisect_error (horder : InOrder place) (h : bisect place low high = .error i) :
    i ≤ max low high ∧ (∀ j, low ≤ j → j < i → place j = .lt) ∧
      ∀ j, i ≤ j → j < high → place j = .gt := by
  fun_induction bisect place low high with
  | case1 => cases h
  | case2 low high hlt middle hmiddle ih =>
    obtain ⟨hle, hbefore, hbehind⟩ := ih h
    have hmiddle' : middle < high := by omega
    refine ⟨by omega, ?_, hbehind⟩
    intro j _ hj
    by_cases hjm : j ≤ middle
    · exact horder.lt hjm hmiddle
    · exact hbefore j (by omega) hj
  | case3 low high hlt middle hmiddle ih =>
    obtain ⟨hle, hbefore, hbehind⟩ := ih h
    have hmiddle' : low ≤ middle := by omega
    refine ⟨by omega, hbefore, ?_⟩
    intro j hj hjh
    by_cases hjm : middle ≤ j
    · exact horder.gt hjm hmiddle
    · exact hbehind j hj (by omega)
  | case4 low high hlt =>
    cases h
    exact ⟨Nat.le_max_left _ _, fun j _ _ => by omega, fun j _ _ => by omega⟩

end Bisect

/-- How the start of entry `i` of a table compares; behind the table everything is behind. -/
def entryPlace (table : List LineEntry) (compare : Nat → Ordering) (i : Nat) : Ordering :=
  (table[i]?).elim .gt fun e => compare e.start

namespace Code

/-- The line of a byte, by a search for where the entries at or before it end. -/
def searchLine (code : Code) (offset : Nat) : UInt32 :=
  match bisect (entryPlace code.lines fun start => if start ≤ offset then .lt else .gt) 0
    code.lines.length with
  | .error (i + 1) => (code.lines[i]?).elim 0 LineEntry.line
  | _ => 0

/-- Whether an entry starts at a byte, by a search for the entry. -/
def searchLineStart (code : Code) (offset : Nat) : Bool :=
  (bisect (entryPlace code.lines fun start => compare start offset) 0 code.lines.length).isOk

end Code

/-- The entries that meet a condition are the first ones, if it fails from entry `i` on. -/
theorem filter_eq_take {table : List LineEntry} {p : LineEntry → Bool} {i : Nat}
    (hbefore : ∀ j (hj : j < table.length), j < i → p table[j] = true)
    (hbehind : ∀ j (hj : j < table.length), i ≤ j → p table[j] = false) :
    table.filter p = table.take i := by
  have htake : (table.take i).filter p = table.take i := by
    refine List.filter_eq_self.mpr fun e he => ?_
    obtain ⟨j, hj, rfl⟩ := List.mem_take_iff_getElem.mp he
    exact hbefore j (by omega) (by omega)
  have hdrop : (table.drop i).filter p = [] := by
    refine List.filter_eq_nil_iff.mpr fun e he => ?_
    obtain ⟨j, hj, rfl⟩ := List.mem_drop_iff_getElem.mp he
    simp [hbehind (i + j) (by omega) (Nat.le_add_right i j)]
  have hsplit := List.filter_append (p := p) (table.take i) (table.drop i)
  rwa [List.take_append_drop, htake, hdrop, List.append_nil] at hsplit

section Search

variable {code : Code} (hsorted : code.lines.Pairwise fun e e' => e.start < e'.start)
include hsorted

theorem inOrder_entryPlace {compare : Nat → Ordering}
    (hlt : ∀ {a b}, a ≤ b → compare b = .lt → compare a = .lt)
    (hgt : ∀ {a b}, a ≤ b → compare a = .gt → compare b = .gt) :
    InOrder (entryPlace code.lines compare) := by
  have hearlier : ∀ {i j : Nat} {e' : LineEntry}, i ≤ j → code.lines[j]? = some e' →
      ∃ e, code.lines[i]? = some e ∧ e.start ≤ e'.start := by
    intro i j e' hij hej
    obtain ⟨hj, rfl⟩ := List.getElem?_eq_some_iff.mp hej
    have hi : i < code.lines.length := Nat.lt_of_le_of_lt hij hj
    refine ⟨code.lines[i], List.getElem?_eq_getElem hi, ?_⟩
    rcases Nat.lt_or_eq_of_le hij with hlt | rfl
    · exact Nat.le_of_lt (List.pairwise_iff_getElem.mp hsorted i j hi hj hlt)
    · exact Nat.le_refl _
  constructor
  · intro i j hij hj
    cases hej : code.lines[j]? with
    | none => simp [entryPlace, hej] at hj
    | some e' =>
      obtain ⟨e, hei, hle⟩ := hearlier hij hej
      simp only [entryPlace, hei, hej, Option.elim_some] at hj ⊢
      exact hlt hle hj
  · intro i j hij hi
    cases hej : code.lines[j]? with
    | none => simp [entryPlace, hej]
    | some e' =>
      obtain ⟨e, hei, hle⟩ := hearlier hij hej
      simp only [entryPlace, hei, hej, Option.elim_some] at hi ⊢
      exact hgt hle hi

theorem searchLine_eq (offset : Nat) : code.searchLine offset = code.lineAt offset := by
  have hplace : ∀ j (hj : j < code.lines.length),
      entryPlace code.lines (fun start => if start ≤ offset then .lt else .gt) j =
        if code.lines[j].start ≤ offset then .lt else .gt := by
    intro j hj
    simp [entryPlace, hj]
  have horder : InOrder (entryPlace code.lines fun start => if start ≤ offset then .lt else .gt) :=
    inOrder_entryPlace hsorted (by grind) (by grind)
  unfold Code.searchLine
  cases hsearch : bisect (entryPlace code.lines fun start => if start ≤ offset then .lt else .gt) 0
      code.lines.length with
  | ok i =>
    have heq := eq_of_bisect_ok hsearch
    cases hei : code.lines[i]? with
    | none => simp [entryPlace, hei] at heq
    | some e =>
      simp only [entryPlace, hei, Option.elim_some] at heq
      split at heq <;> cases heq
  | error i =>
    obtain ⟨hi, hbefore, hbehind⟩ := bisect_error horder hsearch
    have hfilter : code.lines.filter (fun e => e.start ≤ offset) = code.lines.take i := by
      apply filter_eq_take
      · intro j hj hji
        have hlt := hbefore j (Nat.zero_le j) hji
        rw [hplace j hj] at hlt
        grind
      · intro j hj hij
        have hgt := hbehind j hij hj
        rw [hplace j hj] at hgt
        grind
    rw [Code.lineAt, hfilter]
    cases i with
    | zero => rfl
    | succ i =>
      have hlast : i < code.lines.length := by omega
      simp [List.getLast?_take, hlast]

theorem searchLineStart_eq (offset : Nat) :
    code.searchLineStart offset = code.isLineStart offset := by
  have hplace : ∀ j (hj : j < code.lines.length),
      entryPlace code.lines (fun start => compare start offset) j =
        compare code.lines[j].start offset := by
    intro j hj
    simp [entryPlace, hj]
  have horder : InOrder (entryPlace code.lines fun start => compare start offset) := by
    refine inOrder_entryPlace hsorted ?_ ?_
    · intro a b hab hb
      rw [Nat.compare_eq_lt] at hb ⊢
      omega
    · intro a b hab ha
      rw [Nat.compare_eq_gt] at ha ⊢
      omega
  unfold Code.searchLineStart Code.isLineStart
  cases hsearch : bisect (entryPlace code.lines fun start => compare start offset) 0
      code.lines.length with
  | ok i =>
    have heq := eq_of_bisect_ok hsearch
    symm
    rw [Except.isOk, Except.toBool, List.any_eq_true]
    cases hei : code.lines[i]? with
    | none => simp [entryPlace, hei] at heq
    | some e =>
      simp only [entryPlace, hei, Option.elim_some, Nat.compare_eq_eq] at heq
      exact ⟨e, List.mem_of_getElem? hei, by simpa using heq⟩
  | error i =>
    obtain ⟨hi, hbefore, hbehind⟩ := bisect_error horder hsearch
    symm
    rw [Except.isOk, Except.toBool, List.any_eq_false]
    intro e he
    obtain ⟨j, hj, rfl⟩ := List.getElem_of_mem he
    rcases Nat.lt_or_ge j i with hji | hij
    · have hlt := hbefore j (Nat.zero_le j) hji
      rw [hplace j hj, Nat.compare_eq_lt] at hlt
      simpa using Nat.ne_of_lt hlt
    · have hgt := hbehind j hij hj
      rw [hplace j hj, Nat.compare_eq_gt] at hgt
      simpa using Nat.ne_of_gt hgt

end Search

/-! ### Built code -/

/-- The line table of a code object tells the lines of its items, of which item `k` begins at the
byte `offset k`. -/
structure Code.TellsLines (code : Code) (items : List Item) (offset : Nat → Nat) : Prop where
  increasing : code.lines.Pairwise fun e e' => e.start < e'.start
  head : items ≠ [] → code.lines.head?.map LineEntry.start = some 0
  /-- An entry starts with the first byte of an item. -/
  entry : ∀ e ∈ code.lines, ∃ k item, items[k]? = some item ∧ e = ⟨offset k, item.line⟩
  changes : code.lines.IsChain fun e e' => e.line ≠ e'.line
  /-- Every byte of an item has the line of the item. -/
  inside : ∀ k item, items[k]? = some item → ∀ o, offset k ≤ o → o < offset (k + 1) →
    code.lineAt o = item.line
  /-- Behind the code the last line goes on; without any item there is no line but 0. -/
  behind : ∀ o, offset items.length ≤ o → code.lineAt o = (items.getLast?.map Item.line).getD 0
  /-- A line starts with the first item, and with an item of another line than the one before. -/
  lineStart : ∀ o, code.isLineStart o = true ↔ ∃ k item, items[k]? = some item ∧ o = offset k ∧
    ∀ j before, k = j + 1 → items[j]? = some before → before.line ≠ item.line

theorem lineBefore_none_ne {slots : List Slot} {k : Nat} {line : UInt32} :
    lineBefore none slots k ≠ some line ↔
      ∀ j before, k = j + 1 → (slots.map Slot.item)[j]? = some before → before.line ≠ line := by
  cases k with
  | zero => simp [lineBefore]
  | succ k =>
    rw [lineBefore, ne_eq, Option.map_eq_some_iff]
    constructor
    · rintro hne j before hj hbefore rfl
      obtain rfl := Nat.succ.inj hj
      rw [List.getElem?_map, Option.map_eq_some_iff] at hbefore
      obtain ⟨s, hs, rfl⟩ := hbefore
      exact hne ⟨s, hs, rfl⟩
    · rintro hne ⟨s, hs, hline⟩
      exact hne k s.item rfl (by rw [List.getElem?_map, hs, Option.map_some]) hline

theorem tellsLines {code : Code} {slots : List Slot} (hlines : code.lines = lineTable none 0 slots)
    (hunits : ∀ s ∈ slots, 1 ≤ s.units) :
    code.TellsLines (slots.map Slot.item) (offsetOf slots) := by
  have hslot : ∀ {k : Nat} {item : Item}, (slots.map Slot.item)[k]? = some item ↔
      ∃ s, slots[k]? = some s ∧ s.item = item := by
    intro k item
    rw [List.getElem?_map, Option.map_eq_some_iff]
  -- No line comes before the first entry, so the table alone gives the line of a byte.
  have hread : ∀ {k o : Nat} {s : Slot}, slots[k]? = some s → offsetOf slots k ≤ o →
      (o < offsetOf slots (k + 1) ∨ slots.length = k + 1) → code.lineAt o = s.item.line := by
    intro k o s hk hlow hhigh
    have hin := @lineIn_lineTable none 0 slots k o s hk (by omega) (by omega)
    rw [Option.or_none] at hin
    rw [Code.lineAt_eq, hlines, hin, Option.getD_some]
  constructor
  · rw [hlines]
    exact pairwise_lineTable hunits
  · intro hne
    cases slots with
    | nil => exact absurd rfl hne
    | cons s rest =>
      have hchange : none ≠ some s.item.line := by simp
      rw [hlines, lineTable, if_neg hchange]
      rfl
  · intro e he
    rw [hlines, mem_lineTable_iff] at he
    obtain ⟨k, s, hk, rfl, -⟩ := he
    rw [Nat.zero_add]
    exact ⟨k, s.item, hslot.mpr ⟨s, hk, rfl⟩, rfl⟩
  · have hchain := isChain_lineTable none 0 slots
    rw [← hlines] at hchain
    have htail := hchain.tail
    rw [List.tail_cons, List.isChain_map] at htail
    exact htail.imp fun _ _ h hsame => h (congrArg some hsame)
  · intro k item hitem o hlow hhigh
    obtain ⟨s, hk, rfl⟩ := hslot.mp hitem
    exact hread hk hlow (Or.inl hhigh)
  · intro o ho
    rw [List.length_map] at ho
    cases hlast : slots.getLast? with
    | none =>
      obtain rfl : slots = [] := by simpa using hlast
      rw [Code.lineAt_eq, hlines]
      rfl
    | some s =>
      have hk : slots[slots.length - 1]? = some s := by rw [← List.getLast?_eq_getElem?, hlast]
      have hpos : slots.length - 1 < slots.length := (List.getElem?_eq_some_iff.mp hk).1
      have hle := offsetOf_mono slots (Nat.sub_le slots.length 1)
      rw [hread hk (by omega) (Or.inr (by omega)), List.getLast?_map, hlast]
      rfl
  · intro o
    rw [Code.isLineStart, List.any_eq_true, hlines]
    constructor
    · rintro ⟨e, he, ho⟩
      obtain ⟨k, s, hk, rfl, hchange⟩ := mem_lineTable_iff.mp he
      rw [Nat.zero_add, beq_iff_eq] at ho
      exact ⟨k, s.item, hslot.mpr ⟨s, hk, rfl⟩, ho.symm, lineBefore_none_ne.mp hchange⟩
    · rintro ⟨k, item, hitem, rfl, hchange⟩
      obtain ⟨s, hk, rfl⟩ := hslot.mp hitem
      refine ⟨_, mem_lineTable_iff.mpr ⟨k, s, hk, rfl, lineBefore_none_ne.mpr hchange⟩, ?_⟩
      simp

theorem Draft.Encodes.units_pos {d : Draft} {bound : Array Nat} {slots : List Slot} {code : Code}
    (h : d.Encodes bound slots code) : ∀ s ∈ slots, 1 ≤ s.units :=
  fun _ hs => Nat.le_trans (unitsFor_pos _) (unitsFor_le_of_widen_eq h.settled hs)

/-- The line table is exact.  Code that was built from commands is the encoding of a layout of their
items, of which each has the line that was current when it was added; its line table tells these
lines at all bytes, from the first prefix of an item on; and the table can be searched by halves. -/
theorem lines_of_assemble {name : String} {commands : List Command} {code : Code}
    (hbuild : assemble name commands = .ok code) :
    let d := Draft.performAll { name } commands
    d.items.toList.map Item.line = emittedLines 1 commands ∧
      ∃ bound slots, d.Encodes bound slots code ∧
        (∀ k (hk : k < slots.length),
          let arg := slots[k].item.operand.resolve bound (starts 0 slots).toArray
          ∃ rest, code.bytes.toList.drop (offsetOf slots k) =
            encode slots[k].item.op arg slots[k].units ++ rest) ∧
        code.bytes.size = offsetOf slots d.items.size ∧
        code.TellsLines d.items.toList (offsetOf slots) ∧
        ∀ offset, code.searchLine offset = code.lineAt offset ∧
          code.searchLineStart offset = code.isLineStart offset := by
  intro d
  obtain ⟨bound, slots, h⟩ := Draft.exists_encodes hbuild
  have hunits := h.units_pos
  have hlines : code.lines = lineTable none 0 slots := by
    rw [h.code_eq]
    rfl
  have htells : code.TellsLines d.items.toList (offsetOf slots) := by
    rw [← h.items]
    exact tellsLines hlines hunits
  refine ⟨?_, bound, slots, h, ?_, ?_, htells, ?_⟩
  · exact Draft.lines_performAll { name } commands
  · intro k hk
    rw [h.bytes_eq, offsetOf]
    exact ⟨_, drop_encodeAll _ _ hk hunits⟩
  · rw [← Array.length_toList, h.bytes_eq, length_encodeAll hunits, offsetOf, ← h.length_slots,
      List.take_length]
  · intro offset
    exact ⟨searchLine_eq htells.increasing offset, searchLineStart_eq htells.increasing offset⟩

/-- Three lines of which the last is before the first, an instruction with two prefixes, and a line
that is set again. -/
theorem lines_of_assemble_backwards :
    let commands := [.line 3, .emitArg .buildMap 70000, .line 3, .emit .popTop, .line 4,
      .emit .nop, .line 2, .emitArg .buildMap 0, .ret]
    ∃ code, assemble "lines" commands = .ok code ∧
      code.lines = [⟨0, 3⟩, ⟨8, 4⟩, ⟨10, 2⟩] ∧ code.lineAt 5 = 3 ∧
      ∃ bound slots, (Draft.performAll { name := "lines" } commands).Encodes bound slots code ∧
        code.TellsLines (Draft.performAll { name := "lines" } commands).items.toList
          (offsetOf slots) := by
  intro commands
  let d := Draft.performAll { name := "lines" } commands
  have hbuild : assemble "lines" commands = .ok (d.toCode #[] (layout #[] d.items.toList)) := rfl
  have hlayout : layout #[] d.items.toList =
      [⟨⟨.buildMap, .immediate 70000, 3⟩, 3⟩, ⟨⟨.popTop, .none, 3⟩, 1⟩, ⟨⟨.nop, .none, 4⟩, 1⟩,
        ⟨⟨.buildMap, .immediate 0, 2⟩, 1⟩, ⟨⟨.returnValue, .none, 2⟩, 1⟩] := by
    rw [layout_eq_widen rfl (by decide)]
    decide
  rw [hlayout] at hbuild
  obtain ⟨-, bound, slots, hencodes, -, -, htells, -⟩ := lines_of_assemble hbuild
  exact ⟨_, hbuild, by decide, by decide, bound, slots, hencodes, htells⟩

end Wordcode
