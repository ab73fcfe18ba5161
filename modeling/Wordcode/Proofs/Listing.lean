import Mathlib.Data.List.Sort
import Wordcode.Code.Listing
import Wordcode.Proofs.Columns
import Wordcode.Proofs.Folding
import Wordcode.Proofs.LineTable

/-! The listing read back.  It has one row for each instruction, from which the offset, the opcode,
the argument and the line can be read, with an empty row before each new line; so a listing
determines the bytes and the line table of the code object that it is of. -/

namespace Wordcode

/-! ### Line tables of built code -/

namespace Code

/-- What the line table of built code is like: its entries are in order, start with instructions,
the first with the first one, and the line changes from one to the next. -/
structure Lined (code : Code) : Prop where
  increasing : code.lines.Pairwise fun e e' => e.start < e'.start
  changes : code.lines.IsChain fun e e' => e.line ≠ e'.line
  head : 0 < code.bytes.size → code.lines.head?.map LineEntry.start = some 0
  even : ∀ e ∈ code.lines, e.start % 2 = 0
  inside : ∀ e ∈ code.lines, e.start < code.bytes.size

theorem Assembled.lined {code : Code} (h : code.Assembled) : code.Lined := by
  obtain ⟨name, commands, hbuild⟩ := h
  obtain ⟨bound, slots, henc⟩ := Draft.exists_encodes hbuild
  have hunits := henc.units_pos
  have hlines : code.lines = lineTable none 0 slots := by
    rw [henc.code_eq]
    rfl
  have hsize : code.bytes.size = offsetOf slots slots.length := by
    rw [← Array.length_toList, henc.bytes_eq, length_encodeAll hunits, offsetOf, List.take_length]
  have htells := tellsLines hlines hunits
  have hentry : ∀ e ∈ code.lines, ∃ k, k < slots.length ∧ e.start = offsetOf slots k := by
    intro e he
    rw [hlines, mem_lineTable_iff] at he
    obtain ⟨k, s, hk, rfl, -⟩ := he
    exact ⟨k, (List.getElem?_eq_some_iff.mp hk).1, Nat.zero_add _⟩
  refine ⟨htells.increasing, htells.changes, fun hpos => htells.head ?_, ?_, ?_⟩
  · rintro hnil
    rw [List.map_eq_nil_iff.mp hnil] at hsize
    rw [hsize] at hpos
    exact absurd hpos (Nat.lt_irrefl 0)
  · intro e he
    obtain ⟨k, -, hk⟩ := hentry e he
    rw [hk, offsetOf]
    exact Nat.mul_mod_right 2 _
  · intro e he
    obtain ⟨k, hlt, hk⟩ := hentry e he
    obtain ⟨s, hs⟩ : ∃ s, slots[k]? = some s := ⟨_, List.getElem?_eq_getElem hlt⟩
    have hnext : offsetOf slots (k + 1) = offsetOf slots k + 2 * s.units := by
      simp [offsetOf, List.take_add_one, hs, Nat.mul_add]
    have hpos := hunits s (List.mem_of_getElem? hs)
    have hle := offsetOf_mono slots (show k + 1 ≤ slots.length from hlt)
    omega

theorem filter_append_of_split {p : LineEntry → Bool} {l later : List LineEntry}
    (hl : ∀ e ∈ l, p e = true) (hlater : ∀ e ∈ later, p e = false) :
    (l ++ later).filter p = l := by
  rw [List.filter_append, List.filter_eq_self.mpr hl, List.filter_eq_nil_iff.mpr, List.append_nil]
  intro e he
  rw [hlater e he]
  exact Bool.false_ne_true

namespace Lined

variable {code : Code} (h : code.Lined)
include h

theorem of_split {before after : List LineEntry} {e : LineEntry}
    (hsplit : code.lines = before ++ e :: after) :
    (∀ e' ∈ before, e'.start < e.start) ∧ ∀ e' ∈ after, e.start < e'.start := by
  have hpairs := h.increasing
  rw [hsplit, List.pairwise_append] at hpairs
  obtain ⟨-, hafter, hbefore⟩ := hpairs
  exact ⟨fun e' he' => hbefore e' he' e List.mem_cons_self, (List.pairwise_cons.mp hafter).1⟩

theorem lineAt_start {e : LineEntry} (he : e ∈ code.lines) : code.lineAt e.start = e.line := by
  obtain ⟨before, after, hsplit⟩ := List.append_of_mem he
  obtain ⟨hbefore, hafter⟩ := h.of_split hsplit
  have hfilter : code.lines.filter (fun e' => e'.start ≤ e.start) = before ++ [e] := by
    rw [hsplit, ← List.singleton_append, ← List.append_assoc]
    refine filter_append_of_split (fun e' he' => ?_) fun e' he' => ?_
    · rcases List.mem_append.mp he' with he' | he'
      · exact decide_eq_true (Nat.le_of_lt (hbefore e' he'))
      · rw [List.mem_singleton.mp he']
        exact decide_eq_true (Nat.le_refl _)
    · exact decide_eq_false (Nat.not_le.mpr (hafter e' he'))
  rw [lineAt, hfilter, List.getLast?_concat]

/-- The first instruction starts a line. -/
theorem isLineStart_zero (hpos : 0 < code.bytes.size) : code.isLineStart 0 = true := by
  obtain ⟨e, he, hstart⟩ := Option.map_eq_some_iff.mp (h.head hpos)
  rw [isLineStart, List.any_eq_true]
  exact ⟨e, List.mem_of_mem_head? he, beq_iff_eq.mpr hstart⟩

/-- From an instruction to the next one the line changes exactly where a line starts. -/
theorem lineAt_eq_iff {o : Nat} (heven : o % 2 = 0) (hlt : o < code.bytes.size) :
    code.lineAt (o + 2) = code.lineAt o ↔ code.isLineStart (o + 2) = false := by
  rw [isLineStart]
  constructor
  · intro hsame
    by_contra hstart
    rw [Bool.not_eq_false, List.any_eq_true] at hstart
    obtain ⟨e, he, hstart⟩ := hstart
    have hstart : e.start = o + 2 := beq_iff_eq.mp hstart
    obtain ⟨before, after, hsplit⟩ := List.append_of_mem he
    obtain ⟨hbefore, hafter⟩ := h.of_split hsplit
    have hfilter : code.lines.filter (fun e' => e'.start ≤ o) = before := by
      rw [hsplit]
      refine filter_append_of_split (fun e' he' => ?_) fun e' he' => ?_
      · have hlt := hbefore e' he'
        have hparity := h.even e' (hsplit ▸ List.mem_append_left _ he')
        exact decide_eq_true (by omega)
      · have hle : e.start ≤ e'.start := by
          rcases List.mem_cons.mp he' with rfl | he'
          · exact Nat.le_refl _
          · exact Nat.le_of_lt (hafter e' he')
        exact decide_eq_false (by omega)
    -- The line before is that of the entry before, for the table does not begin with this one.
    cases hlast : before.getLast? with
    | none =>
      have hhead := h.head (Nat.zero_lt_of_lt hlt)
      rw [hsplit, List.getLast?_eq_none_iff.mp hlast] at hhead
      have hzero : e.start = 0 := Option.some.inj hhead
      omega
    | some b =>
      have hchain := h.changes
      rw [hsplit, List.isChain_append] at hchain
      have hne := hchain.2.2 b hlast e rfl
      rw [← hstart, h.lineAt_start he, lineAt, hfilter, hlast] at hsame
      exact hne hsame.symm
  · intro hstart
    have hcongr : ∀ e ∈ code.lines, decide (e.start ≤ o + 2) = decide (e.start ≤ o) := by
      intro e he
      have hne : e.start ≠ o + 2 := by
        simpa using List.any_eq_false.mp hstart e he
      have hparity := h.even e he
      exact decide_eq_decide.mpr (by omega)
    rw [lineAt, lineAt, List.filter_congr hcongr]

end Lined

end Code

/-! ### Rows -/

/-- What a row of a listing says, each part as it is written. -/
structure Row where
  line? : Option (List Char)
  offset : List Char
  name : List Char
  arg? : Option (List Char)
  deriving DecidableEq

/-- Reads a row.  Its line is there unless the first four characters are blank; then come the
offset, the opcode and perhaps an argument.  What follows the argument is not read. -/
def Row.read (text : List Char) : Option Row :=
  if (text.take 4).all (· == ' ') then
    match Text.words text with
    | offset :: name :: rest => some ⟨none, offset, name, rest.head?⟩
    | _ => none
  else
    match Text.words text with
    | line :: offset :: name :: rest => some ⟨some line, offset, name, rest.head?⟩
    | _ => none

theorem Opcode.isWord_name (op : Opcode) : Text.IsWord op.name.toList := by
  cases op <;> exact ⟨by decide, by decide⟩

namespace Code

/-- The row that an instruction has to have in a listing. -/
def shown (code : Code) (ins : Instruction) : Row where
  line? :=
    if code.isLineStart ins.offset then some (toString (code.lineAt ins.offset)).toList else none
  offset := (toString ins.offset).toList
  name := ins.opcode.name.toList
  arg? := if ins.opcode.hasArg then some (toString ins.arg).toList else none

variable (store : Store) (code : Code) (ins : Instruction)

/-- The row of an instruction behind its line column. -/
def cells : List Char :=
  (Text.alignRight 6 (toString ins.offset)).toList ++ ' ' ::
    ((Text.alignLeft 18 ins.opcode.name).toList ++ (code.argument store ins).toList)

/-- The line column at an offset, filled where a line starts. -/
def lineCell (offset : Nat) : List Char :=
  if code.isLineStart offset then (Text.alignRight 4 (toString (code.lineAt offset))).toList
  else List.replicate 4 ' '

/-- The row of an instruction. -/
def row : List Char := code.lineCell ins.offset ++ ' ' :: code.cells store ins

theorem exists_argument_eq (h : ins.opcode.hasArg = true) :
    ∃ more, code.argument store ins = " " ++ toString ins.arg ++ more ∧
      (more = "" ∨ ∃ note, code.note store ins = some note ∧ more = " (" ++ note ++ ")") := by
  rw [argument, if_pos h]
  cases code.note store ins with
  | none => exact ⟨"", rfl, Or.inl rfl⟩
  | some note => exact ⟨_, rfl, Or.inr ⟨note, rfl, rfl⟩⟩

theorem words_argument :
    Text.Apart (code.argument store ins).toList ∧
      (Text.words (code.argument store ins).toList).head? = (code.shown ins).arg? := by
  cases harg : ins.opcode.hasArg with
  | false =>
    rw [argument, shown, harg]
    exact ⟨Text.apart_nil, rfl⟩
  | true =>
    obtain ⟨more, hargument, hmore⟩ := code.exists_argument_eq store ins harg
    have happart : Text.Apart more.toList := by
      rcases hmore with rfl | ⟨note, -, rfl⟩
      · exact Text.apart_nil
      · rw [String.append_assoc, String.toList_append]
        exact Text.apart_blank_cons _
    have hword : Text.IsWord (toString ins.arg).toList := Text.isWord_toString ins.arg.toNat
    rw [hargument, String.append_assoc, Text.toList_blank_append, String.toList_append,
      Text.words_blank_cons, hword.words_append happart, shown, harg]
    exact ⟨Text.apart_blank_cons _, rfl⟩

theorem words_cells :
    ∃ rest, Text.words (code.cells store ins) =
        (code.shown ins).offset :: (code.shown ins).name :: rest ∧
      rest.head? = (code.shown ins).arg? := by
  obtain ⟨hapart, hhead⟩ := code.words_argument store ins
  refine ⟨_, ?_, hhead⟩
  have hname : Text.Apart (List.replicate (18 - ins.opcode.name.length) ' ' ++
      (code.argument store ins).toList) := hapart.replicate_append _
  rw [cells, Text.toList_alignRight, Text.toList_alignLeft, List.append_assoc, List.append_assoc,
    Text.words_replicate_append,
    (Text.isWord_toString ins.offset).words_append (Text.apart_blank_cons _),
    Text.words_blank_cons, ins.opcode.isWord_name.words_append hname,
    Text.words_replicate_append]
  rfl

/-- A row is read as what it has to say. -/
theorem read_row : Row.read (code.row store ins) = some (code.shown ins) := by
  obtain ⟨rest, hwords, hhead⟩ := code.words_cells store ins
  have hline : Text.IsWord (toString (code.lineAt ins.offset)).toList :=
    Text.isWord_toString (code.lineAt ins.offset).toNat
  cases hstart : code.isLineStart ins.offset with
  | true =>
    have hrow : code.row store ins =
        (Text.alignRight 4 (toString (code.lineAt ins.offset))).toList ++
          ' ' :: code.cells store ins := by
      rw [row, lineCell, if_pos hstart]
    rw [Row.read, hrow, Text.not_all_blank_alignRight hline (by decide), Text.toList_alignRight,
      List.append_assoc, Text.words_replicate_append,
      hline.words_append (Text.apart_blank_cons _), Text.words_blank_cons, hwords]
    simp only [Bool.false_eq_true, if_false, hhead, shown, hstart, if_true]
  | false =>
    have hrow : code.row store ins = List.replicate 4 ' ' ++ ' ' :: code.cells store ins := by
      rw [row, lineCell, hstart]
      rfl
    have hblank : ((List.replicate 4 ' ' ++ ' ' :: code.cells store ins).take 4).all (· == ' ') =
        true := rfl
    rw [Row.read, hrow, hblank, Text.words_replicate_append, Text.words_blank_cons, hwords]
    simp only [if_true, hhead, shown, hstart, Bool.false_eq_true, if_false]

/-! ### Lines -/

/-- No name that a listing shows contains a line feed. -/
structure PlainNames (store : Store) (code : Code) : Prop where
  varnames : ∀ x ∈ code.varnames, '\n' ∉ x.toList
  names : ∀ x ∈ code.names, '\n' ∉ x.toList
  functions : ∀ id, .function id ∈ code.consts → '\n' ∉ (store.code id).name.toList

end Code

theorem Store.lineFeed_not_mem_debug {store : Store} {v : Value}
    (h : ∀ id, v = .function id → '\n' ∉ (store.code id).name.toList) :
    '\n' ∉ (store.debug v).toList := by
  cases v with
  | none => exact (by decide : '\n' ∉ "none".toList)
  | bool b =>
    cases b with
    | false => exact (by decide : '\n' ∉ ("Bool(" ++ "false" ++ ")").toList)
    | true => exact (by decide : '\n' ∉ ("Bool(" ++ "true" ++ ")").toList)
  | int n =>
    simp only [debug, Text.not_mem_toList_append]
    exact ⟨⟨by decide, Text.not_mem_toString_int (by decide) (by decide) n.toInt⟩, by decide⟩
  | str t =>
    simp only [debug, Text.not_mem_toList_append]
    exact ⟨⟨by decide, Text.lineFeed_not_mem_quote t⟩, by decide⟩
  | function id =>
    simp only [debug, display, Text.not_mem_toList_append]
    exact ⟨⟨by decide, h id rfl⟩, by decide⟩
  | builtin b =>
    simp only [debug, display, Text.not_mem_toList_append]
    exact ⟨⟨by decide, by cases b <;> decide⟩, by decide⟩
  | range id => exact (by decide : '\n' ∉ "<range_iterator>".toList)
  | map id =>
    simp only [debug, display, Text.not_mem_toList_append]
    exact ⟨⟨by decide, Text.not_mem_toString (by decide) _⟩, by decide⟩

namespace Code

variable {store : Store} {code : Code}

theorem PlainNames.lineFeed_not_mem_note (h : code.PlainNames store) {ins : Instruction}
    {note : String} (hnote : code.note store ins = some note) : '\n' ∉ note.toList := by
  unfold Code.note at hnote
  split at hnote
  iterate 2
    obtain ⟨v, hv, rfl⟩ := Option.map_eq_some_iff.mp hnote
    exact Store.lineFeed_not_mem_debug fun id hid =>
      h.functions id (hid ▸ Array.mem_of_getElem? hv)
  iterate 2 exact h.varnames note (Array.mem_of_getElem? hnote)
  iterate 2 exact h.names note (Array.mem_of_getElem? hnote)
  · obtain ⟨op, -, rfl⟩ := Option.map_eq_some_iff.mp hnote
    cases op <;> decide
  · split at hnote
    · obtain rfl := Option.some.inj hnote
      exact Text.not_mem_toList_append.mpr ⟨by decide, Text.not_mem_toString (by decide) _⟩
    · cases hnote

theorem PlainNames.lineFeed_not_mem_argument (h : code.PlainNames store) (ins : Instruction) :
    '\n' ∉ (code.argument store ins).toList := by
  cases harg : ins.opcode.hasArg with
  | false =>
    rw [argument, harg]
    exact List.not_mem_nil
  | true =>
    obtain ⟨more, hargument, hmore⟩ := code.exists_argument_eq store ins harg
    rw [hargument, Text.not_mem_toList_append, Text.not_mem_toList_append]
    refine ⟨⟨by decide, Text.not_mem_toString (by decide) ins.arg.toNat⟩, ?_⟩
    rcases hmore with rfl | ⟨note, hnote, rfl⟩
    · exact List.not_mem_nil
    · rw [Text.not_mem_toList_append, Text.not_mem_toList_append]
      exact ⟨⟨by decide, h.lineFeed_not_mem_note hnote⟩, by decide⟩

theorem PlainNames.lineFeed_not_mem_row (h : code.PlainNames store) (ins : Instruction) :
    '\n' ∉ code.row store ins := by
  have hblanks : ∀ n, '\n' ∉ List.replicate n ' ' := fun n hmem =>
    absurd (List.eq_of_mem_replicate hmem) (by decide)
  have hcell : '\n' ∉ code.lineCell ins.offset := by
    rw [lineCell]
    split
    · rw [Text.toList_alignRight, List.mem_append, not_or]
      exact ⟨hblanks _, Text.not_mem_toString (by decide) (code.lineAt ins.offset).toNat⟩
    · exact hblanks 4
  have hname : '\n' ∉ ins.opcode.name.toList := by
    cases ins.opcode <;> decide
  simp only [row, cells, Text.toList_alignRight, Text.toList_alignLeft, List.mem_append,
    List.mem_cons, not_or]
  exact ⟨hcell, by decide, ⟨hblanks _, Text.not_mem_toString (by decide) _⟩, by decide,
    ⟨hname, hblanks _⟩, h.lineFeed_not_mem_argument ins⟩

theorem row_ne_nil (ins : Instruction) : code.row store ins ≠ [] :=
  List.append_ne_nil_of_right_ne_nil _ (List.cons_ne_nil _ _)

/-- A row with the empty line that is before it where its instruction starts a line, unless it is
the first instruction. -/
def spaced (code : Code) (ins : Instruction) (row : List Char) : List (List Char) :=
  if ins.offset ≠ 0 ∧ code.isLineStart ins.offset then [[], row] else [row]

theorem filter_spaced (ins : Instruction) {row : List Char} (hrow : row ≠ []) :
    (code.spaced ins row).filter (· ≠ []) = [row] := by
  rw [spaced]
  split <;> simp [hrow]

/-- The line of the instruction before an offset. -/
def lineBefore? (code : Code) (offset : Nat) : Option UInt32 :=
  if offset = 0 then none else some (code.lineAt (offset - 2))

/-- The line column is filled where a line starts, though what is written looks only at the line of
the row before. -/
theorem Lined.toList_lineColumn (h : code.Lined) {offset : Nat} (heven : offset % 2 = 0)
    (hlt : offset < code.bytes.size) :
    (lineColumn (code.lineBefore? offset) (code.lineAt offset)).toList =
      (if offset ≠ 0 ∧ code.isLineStart offset then ['\n'] else []) ++ code.lineCell offset := by
  rcases Nat.eq_zero_or_pos offset with rfl | hpos
  · have hcolumn : lineColumn (code.lineBefore? 0) (code.lineAt 0) =
        "" ++ Text.alignRight 4 (toString (code.lineAt 0)) := rfl
    rw [hcolumn, String.empty_append, if_neg fun hne => hne.1 rfl, lineCell,
      if_pos (h.isLineStart_zero hlt), List.nil_append]
  · obtain ⟨before, rfl⟩ : ∃ before, offset = before + 2 := ⟨offset - 2, by omega⟩
    have hbefore : code.lineBefore? (before + 2) = some (code.lineAt before) := rfl
    have hiff := h.lineAt_eq_iff (show before % 2 = 0 by omega) (by omega)
    rw [hbefore, lineColumn, lineCell]
    cases hstart : code.isLineStart (before + 2) with
    | false =>
      rw [hiff.mpr hstart, if_pos rfl, Text.toList_blanks]
      rfl
    | true =>
      have hne : some (code.lineAt before) ≠ some (code.lineAt (before + 2)) := fun heq => by
        rw [hiff.mp (Option.some.inj heq).symm] at hstart
        cases hstart
      have hlater : before + 2 ≠ 0 ∧ true = true := ⟨Nat.succ_ne_zero _, rfl⟩
      rw [if_neg hne, if_pos hlater, if_pos rfl, Option.isSome_some, if_pos rfl,
        String.toList_append]
      rfl

theorem Lined.toList_row (h : code.Lined) {ins : Instruction} (heven : ins.offset % 2 = 0)
    (hlt : ins.offset < code.bytes.size) :
    (lineColumn (code.lineBefore? ins.offset) (code.lineAt ins.offset) ++ " " ++
        Text.alignRight 6 (toString ins.offset) ++ " " ++ Text.alignLeft 18 ins.opcode.name ++
          code.argument store ins ++ "\n").toList =
      (code.spaced ins (code.row store ins)).flatMap (· ++ ['\n']) := by
  have hblank : " ".toList = [' '] := by decide
  have hfeed : "\n".toList = ['\n'] := by decide
  simp only [String.toList_append, h.toList_lineColumn heven hlt, hblank, hfeed, spaced, row, cells]
  split <;> simp

/-- The rows of instructions that stand one behind the other, by induction on the instructions: each
is written after the one at the offset before. -/
theorem Lined.toList_join_rows (h : code.Lined) {instructions : List Instruction} {offset : Nat}
    (hoffsets : instructions.map Instruction.offset =
      List.range' offset instructions.length 2) (heven : offset % 2 = 0)
    (hsize : offset + 2 * instructions.length ≤ code.bytes.size) :
    (String.join (code.rows store (code.lineBefore? offset) instructions)).toList =
      (instructions.flatMap fun ins => code.spaced ins (code.row store ins)).flatMap
        (· ++ ['\n']) := by
  induction instructions generalizing offset with
  | nil => rfl
  | cons ins rest ih =>
    rw [List.map_cons, List.length_cons, List.range'_succ, List.cons.injEq] at hoffsets
    obtain ⟨rfl, hrest⟩ := hoffsets
    rw [List.length_cons] at hsize
    have hnext : code.lineBefore? (ins.offset + 2) = some (code.lineAt ins.offset) := rfl
    have hlater := ih hrest (by omega) (by omega)
    rw [hnext] at hlater
    rw [rows, String.toList_join, List.flatMap_cons, ← String.toList_join, hlater,
      h.toList_row heven (by omega), List.flatMap_cons, List.flatMap_append]

/-- Decoded instructions stand one behind the other, within the bytes. -/
theorem offsets_decode (offset : Nat) (pending : UInt32) (bytes : List UInt8) :
    (decode offset pending bytes).map Instruction.offset =
        List.range' offset (decode offset pending bytes).length 2 ∧
      2 * (decode offset pending bytes).length ≤ bytes.length := by
  fun_induction decode offset pending bytes with
  | case1 => exact ⟨rfl, Nat.zero_le _⟩
  | case2 offset pending byte low rest op hop arg ih =>
    obtain ⟨hoffsets, hlength⟩ := ih
    rw [List.map_cons, hoffsets, List.length_cons, List.length_cons, List.length_cons]
    exact ⟨rfl, by omega⟩
  | case3 => exact ⟨rfl, Nat.zero_le _⟩

theorem Assembled.toList_disassemble (h : code.Assembled) :
    (code.disassemble store).toList =
      (code.instructions.flatMap fun ins => code.spaced ins (code.row store ins)).flatMap
        (· ++ ['\n']) := by
  obtain ⟨hoffsets, hlength⟩ := offsets_decode 0 0 code.bytes.toList
  refine h.lined.toList_join_rows hoffsets rfl ?_
  rw [← Array.length_toList, Nat.zero_add]
  exact hlength

theorem Assembled.lines_disassemble (h : code.Assembled) (hnames : code.PlainNames store) :
    Text.lines (code.disassemble store) =
      code.instructions.flatMap fun ins => code.spaced ins (code.row store ins) := by
  refine Text.lines_of_toList ?_ h.toList_disassemble
  intro line hline
  obtain ⟨ins, -, hline⟩ := List.mem_flatMap.mp hline
  have hrow := hnames.lineFeed_not_mem_row ins
  rw [spaced] at hline
  split at hline
  · rcases List.mem_pair.mp hline with rfl | rfl
    · exact List.not_mem_nil
    · exact hrow
  · rw [List.mem_singleton.mp hline]
    exact hrow

/-- The lines of a listing that are not empty are the rows of the instructions. -/
theorem Assembled.rows_disassemble (h : code.Assembled) (hnames : code.PlainNames store) :
    (Text.lines (code.disassemble store)).filter (· ≠ []) =
      code.instructions.map (code.row store) := by
  have hrows : ∀ ins ∈ code.instructions,
      (code.spaced ins (code.row store ins)).filter (· ≠ []) = [code.row store ins] :=
    fun ins _ => filter_spaced ins (row_ne_nil ins)
  rw [h.lines_disassemble hnames, List.filter_flatMap, List.flatMap_congr hrows,
    ← List.map_eq_flatMap]

theorem Assembled.read_disassemble (h : code.Assembled) (hnames : code.PlainNames store) :
    ((Text.lines (code.disassemble store)).filter (· ≠ [])).map Row.read =
      (code.instructions.map code.shown).map some := by
  rw [h.rows_disassemble hnames, List.map_map, List.map_map]
  exact List.map_congr_left fun ins _ => code.read_row store ins

/-! ### What a listing determines -/

variable {other : Code}

theorem of_shown_eq {ins ins' : Instruction} (h : code.shown ins = other.shown ins') :
    ins.offset = ins'.offset ∧ ins.opcode = ins'.opcode ∧
      (ins.opcode.hasArg = true → ins.arg = ins'.arg) := by
  have hopcode : ins.opcode = ins'.opcode :=
    Opcode.eq_of_name_eq (String.toList_inj.mp (congrArg Row.name h))
  refine ⟨Text.toString_inj (congrArg Row.offset h), hopcode, fun harg => ?_⟩
  have hshown : (if ins.opcode.hasArg then some (toString ins.arg).toList else none) =
      if ins'.opcode.hasArg then some (toString ins'.arg).toList else none :=
    congrArg Row.arg? h
  rw [← hopcode, if_pos harg, if_pos harg] at hshown
  exact UInt32.toNat_inj.mp (Text.toString_inj (Option.some.inj hshown))

theorem low_of_foldArg_eq {pending pending' : UInt32} {low low' : UInt8}
    (h : foldArg pending low = foldArg pending' low') : low = low' := by
  have hmod := congrArg UInt32.toNat h
  rw [toNat_foldArg_mod, toNat_foldArg_mod] at hmod
  have hlt := low.toNat_lt
  have hlt' := low'.toNat_lt
  exact UInt8.toNat_inj.mp (by omega)

/-- The byte of an instruction is the low byte of its argument, and 0 where none is shown. -/
theorem Assembled.bytes_eq_of_shown (h : code.Assembled) (hother : other.Assembled)
    (hshown : other.instructions.map other.shown = code.instructions.map code.shown) :
    other.bytes = code.bytes := by
  obtain ⟨words, hwords, hzero⟩ := h.exists_words
  obtain ⟨words', hwords', hzero'⟩ := hother.exists_words
  have hsame : words' = words := by
    refine List.ext_getElem? fun k => ?_
    have hk := congrArg (fun rows => rows[k]?) hshown
    simp only [List.getElem?_map, getElem?_instructions hwords, getElem?_instructions hwords',
      Option.map_map] at hk
    cases hw' : words'[k]? with
    | none =>
      rw [hw', Option.map_none, eq_comm, Option.map_eq_none_iff] at hk
      exact hk.symm
    | some w' =>
      rw [hw', Option.map_some, eq_comm, Option.map_eq_some_iff] at hk
      obtain ⟨w, hw, hk⟩ := hk
      obtain ⟨-, hopcode, harg⟩ := of_shown_eq hk
      have hopcode : w.1 = w'.1 := hopcode
      have hlow : w.2 = w'.2 := by
        cases hhas : w.1.hasArg with
        | true => exact low_of_foldArg_eq (harg hhas)
        | false =>
          rw [hzero w (List.mem_of_getElem? hw) hhas,
            hzero' w' (List.mem_of_getElem? hw') (hopcode ▸ hhas)]
      rw [hw, Prod.ext hopcode hlow]
  rw [← Array.toList_inj, hwords, hwords', hsame]

/-- Every even offset within the bytes is that of an instruction. -/
theorem Assembled.exists_instruction (h : code.Assembled) {offset : Nat} (heven : offset % 2 = 0)
    (hlt : offset < code.bytes.size) : ∃ ins ∈ code.instructions, ins.offset = offset := by
  obtain ⟨words, hwords, -⟩ := h.exists_words
  have hoffset : 2 * (offset / 2) = offset := by omega
  have hbyte := (getElem?_wordBytes words (offset / 2)).1
  rw [← hwords, hoffset, Array.getElem?_toList, Array.getElem?_eq_getElem hlt, eq_comm,
    Option.map_eq_some_iff] at hbyte
  obtain ⟨w, hw, -⟩ := hbyte
  have hins := getElem?_instructions hwords (offset / 2)
  rw [hw, Option.map_some, hoffset] at hins
  exact ⟨_, List.mem_of_getElem? hins, rfl⟩

theorem Assembled.mem_lines_of_shown (h : code.Assembled) (hother : other.Assembled)
    (hshown : other.instructions.map other.shown = code.instructions.map code.shown)
    {e : LineEntry} (he : e ∈ other.lines) : e ∈ code.lines := by
  obtain ⟨ins, hins, hoffset⟩ :=
    hother.exists_instruction (hother.lined.even e he) (hother.lined.inside e he)
  -- The row of that instruction is a row of both codes, and its line column is filled.
  obtain ⟨ins', -, hsame⟩ := List.mem_map.mp (hshown ▸ List.mem_map_of_mem hins)
  obtain ⟨hoffset', -⟩ := of_shown_eq hsame
  have hline : (if code.isLineStart ins'.offset then
        some (toString (code.lineAt ins'.offset)).toList else none) =
      if other.isLineStart ins.offset then
        some (toString (other.lineAt ins.offset)).toList else none := congrArg Row.line? hsame
  have hstart : other.isLineStart e.start = true :=
    List.any_eq_true.mpr ⟨e, he, beq_self_eq_true _⟩
  rw [hoffset', hoffset, if_pos hstart, hother.lined.lineAt_start he] at hline
  cases hcode : code.isLineStart e.start with
  | false =>
    rw [hcode] at hline
    cases hline
  | true =>
    obtain ⟨e', he', hsame⟩ := List.any_eq_true.mp hcode
    have hstart' : e'.start = e.start := beq_iff_eq.mp hsame
    rw [if_pos hcode, ← hstart', h.lined.lineAt_start he'] at hline
    have hline' : e'.line = e.line :=
      UInt32.toNat_inj.mp (Text.toString_inj (Option.some.inj hline))
    have heq : e' = e := LineEntry.mk.injEq .. ▸ ⟨hstart', hline'⟩
    exact heq ▸ he'

theorem Assembled.lines_eq_of_shown (h : code.Assembled) (hother : other.Assembled)
    (hshown : other.instructions.map other.shown = code.instructions.map code.shown) :
    other.lines = code.lines := by
  have hirrefl : Std.Irrefl fun e e' : LineEntry => e.start < e'.start :=
    ⟨fun _ => Nat.lt_irrefl _⟩
  have hantisymm : Std.Antisymm fun e e' : LineEntry => e.start < e'.start :=
    ⟨fun _ _ hlt hgt => absurd hgt (Nat.lt_asymm hlt)⟩
  exact hother.lined.increasing.eq_of_mem_iff h.lined.increasing fun e =>
    ⟨h.mem_lines_of_shown hother hshown, hother.mem_lines_of_shown h hshown.symm⟩

end Code

/-- A listing shows its code.  It is a sequence of lines, and those of them that are not empty are
one row for each instruction, in order: a row shows the offset, the opcode, and the folded argument
exactly if the opcode takes one; its line column is filled, with the line of the offset, exactly if
a line starts there, and there is an empty line before exactly these rows but the first.  So built
code objects with the same listing have the same bytes and the same line table. -/
theorem listing_shows_code (store : Store) (code : Code) (hcode : code.Assembled)
    (hnames : code.PlainNames store) :
    let lines := Text.lines (code.disassemble store)
    let rows := lines.filter (· ≠ [])
    (code.disassemble store).toList = lines.flatMap (· ++ ['\n']) ∧
    rows.map Row.read = (code.instructions.map code.shown).map some ∧
    lines = (List.zipWith code.spaced code.instructions rows).flatten ∧
    ∀ (store' : Store) (other : Code), other.Assembled → other.PlainNames store' →
      other.disassemble store' = code.disassemble store →
      other.bytes = code.bytes ∧ other.lines = code.lines := by
  intro lines rows
  have hlines : lines = _ := hcode.lines_disassemble hnames
  have hrows : rows = _ := hcode.rows_disassemble hnames
  refine ⟨?_, hcode.read_disassemble hnames, ?_, ?_⟩
  · rw [hlines]
    exact hcode.toList_disassemble
  · rw [hrows, hlines, List.zipWith_map_right, List.zipWith_self, List.flatMap]
  · intro store' other hother hnames' hsame
    have hread := hother.read_disassemble hnames'
    rw [hsame, hcode.read_disassemble hnames] at hread
    have hshown := List.map_injective_iff.mpr (Option.some_injective _) hread.symm
    exact ⟨hcode.bytes_eq_of_shown hother hshown, hcode.lines_eq_of_shown hother hshown⟩

/-- Code that keeps a text with a line feed, builds a map of 300 entries and calls itself. -/
def keepingCode (name : String) : Code where
  name := name
  argcount := 0
  varnames := #[]
  names := #["kept"]
  consts := #[.str "a\nb", .function ⟨0⟩]
  bytes := #[2, 0, 6, 0, 21, 1, 11, 44, 2, 1, 18, 0, 19, 0]
  lines := [⟨0, 7⟩, ⟨4, 12000⟩, ⟨8, 7⟩]

def keepingCommands : List Command :=
  [.line 7, .loadConst (.str "a\nb"), .storeGlobal "kept", .line 12000, .emitArg .buildMap 300,
    .line 7, .loadConst (.function ⟨0⟩), .call 0, .ret]

/-- The rows that the code has to have. -/
def keepingRows : List Row :=
  [⟨some "7".toList, "0".toList, "LOAD_CONST".toList, some "0".toList⟩,
    ⟨none, "2".toList, "STORE_GLOBAL".toList, some "0".toList⟩,
    ⟨some "12000".toList, "4".toList, "EXTENDED_ARG".toList, some "1".toList⟩,
    ⟨none, "6".toList, "BUILD_MAP".toList, some "300".toList⟩,
    ⟨some "7".toList, "8".toList, "LOAD_CONST".toList, some "1".toList⟩,
    ⟨none, "10".toList, "CALL_FUNCTION".toList, some "0".toList⟩,
    ⟨none, "12".toList, "RETURN_VALUE".toList, none⟩]

/-- The listing of this code is read as its rows, and determines all but its name. -/
theorem listing_shows_code_keeping :
    let store : Store := { functions := #[keepingCode "keep"] }
    let code := keepingCode "keep"
    let twin := keepingCode "twin"
    code.Assembled ∧ code.PlainNames store ∧
    ((Text.lines (code.disassemble store)).filter (· ≠ [])).map Row.read =
      keepingRows.map some ∧
    twin.Assembled ∧ twin.PlainNames store ∧ twin.disassemble store = code.disassemble store ∧
    twin.bytes = code.bytes ∧ twin.lines = code.lines := by
  intro store code twin
  have hcode : code.Assembled := ⟨"keep", keepingCommands, by with_unfolding_all rfl⟩
  have htwin : twin.Assembled := ⟨"twin", keepingCommands, by with_unfolding_all rfl⟩
  have hnames : code.PlainNames store := by
    refine ⟨by decide, by decide, fun id hid => ?_⟩
    have hself : id = ⟨0⟩ := by simpa [code, keepingCode] using hid
    rw [hself]
    decide
  have hnames' : twin.PlainNames store := ⟨hnames.varnames, hnames.names, hnames.functions⟩
  have hsame : twin.disassemble store = code.disassemble store := rfl
  have hrows : code.instructions.map code.shown = keepingRows := by decide +kernel
  obtain ⟨-, hread, -, hdetermines⟩ := listing_shows_code store code hcode hnames
  obtain ⟨hbytes, hlines⟩ := hdetermines store twin htwin hnames' hsame
  exact ⟨hcode, hnames, hrows ▸ hread, htwin, hnames', hsame, hbytes, hlines⟩

end Wordcode
