import Mathlib.Data.List.Induction
import Mathlib.Data.Nat.Find
import Wordcode.Proofs.Layout
import Wordcode.Proofs.Tables

/-! Which sequences of commands can be built.  The rules are those of the commands alone: each one
looks at the commands before it, and no draft is mentioned.  Building answers with the fault of the
first command that breaks its rule, then with the first label that is not bound, and it stops at a
jump to a label that was never created. -/

namespace Wordcode

/-! ### The rules -/

/-- The variable that a command asks for a slot of. -/
def Command.variableName? : Command → Option String
  | .param x | .localSlot x | .loadFast x | .storeFast x => some x
  | _ => none

def Command.isNewLabel : Command → Bool
  | .newLabel => true
  | _ => false

/-- The variables that commands ask for, parameters included. -/
def variableNames (commands : List Command) : List String :=
  commands.filterMap Command.variableName?

/-- The number of labels that commands create. -/
def labelCount (commands : List Command) : Nat := commands.countP Command.isNewLabel

/-- A command after the commands `before` breaks the rule that the fault `e` names. -/
inductive Breaks (before : List Command) : Command → AssemblyError → Prop where
  | duplicateParam (x : String) (hknown : x ∈ variableNames before) :
    Breaks before (.param x) (.duplicateParam x)
  | paramAfterLocal (x y : String) (hnew : x ∉ variableNames before) (hy : y ∈ variableNames before)
      (hlocal : .param y ∉ before) :
    Breaks before (.param x) (.paramAfterLocal x)
  | labelRebound (id : Nat) (hid : .bind id ∈ before ∨ labelCount before ≤ id) :
    Breaks before (.bind id) (.labelRebound id)
  | missingOperand (op : Opcode) (hop : op.hasArg = true) :
    Breaks before (.emit op) (.missingOperand op)
  | unexpectedOperand (op : Opcode) (arg : UInt32) (hop : op.hasArg = false) :
    Breaks before (.emitArg op arg) (.unexpectedOperand op)
  | notAJump (op : Opcode) (id : Nat) (hop : op.isJump = false) :
    Breaks before (.emitJump op id) (.notAJump op)

/-- Every command keeps its rule. -/
def WellFormed (commands : List Command) : Prop :=
  ∀ before c after, commands = before ++ c :: after → ∀ e, ¬Breaks before c e

/-- The first command that breaks its rule breaks that of `e`. -/
def FirstBroken (commands : List Command) (e : AssemblyError) : Prop :=
  ∃ before c after, commands = before ++ c :: after ∧ WellFormed before ∧ Breaks before c e

def Unbound (commands : List Command) (id : Nat) : Prop :=
  id < labelCount commands ∧ .bind id ∉ commands

/-- Among all jumps, the first one to a label that is never created is one to label `id`. -/
def FirstStray (commands : List Command) (id : Nat) : Prop :=
  ∃ before op after, commands = before ++ .emitJump op id :: after ∧ labelCount commands ≤ id ∧
    ∀ op' id', .emitJump op' id' ∈ before → id' < labelCount commands

theorem concat_eq_append_cons {α : Type} {l b a : List α} {x c : α} :
    l ++ [x] = b ++ c :: a ↔
      (l = b ∧ x = c ∧ a = []) ∨ ∃ a', l = b ++ c :: a' ∧ a = a' ++ [x] := by
  constructor
  · intro h
    rcases List.eq_nil_or_concat a with rfl | ⟨a', y, rfl⟩
    · obtain ⟨rfl, hx⟩ := List.append_inj' h rfl
      exact Or.inl ⟨rfl, List.singleton_inj.mp hx, rfl⟩
    · have h' : l ++ [x] = (b ++ c :: a') ++ [y] := by simpa using h
      obtain ⟨rfl, hx⟩ := List.append_inj' h' rfl
      exact Or.inr ⟨a', rfl, by rw [List.concat_eq_append, List.singleton_inj.mp hx]⟩
  · rintro (⟨rfl, rfl, rfl⟩ | ⟨a', rfl, rfl⟩)
    · rfl
    · simp

theorem wellFormed_nil : WellFormed [] := by
  intro before c after h
  simp at h

theorem wellFormed_concat {before : List Command} {c : Command} :
    WellFormed (before ++ [c]) ↔ WellFormed before ∧ ∀ e, ¬Breaks before c e := by
  constructor
  · intro h
    refine ⟨fun b c' a hsplit => ?_, h before c [] rfl⟩
    exact h b c' (a ++ [c]) (concat_eq_append_cons.mpr (Or.inr ⟨a, hsplit, rfl⟩))
  · rintro ⟨hbefore, hlast⟩ b c' a hsplit
    rcases concat_eq_append_cons.mp hsplit with ⟨rfl, rfl, rfl⟩ | ⟨a', hold, rfl⟩
    · exact hlast
    · exact hbefore b c' a' hold

theorem firstBroken_concat {before : List Command} {c : Command} {e : AssemblyError} :
    FirstBroken (before ++ [c]) e ↔
      FirstBroken before e ∨ WellFormed before ∧ Breaks before c e := by
  constructor
  · rintro ⟨b, c', a, hsplit, hwell, hbreaks⟩
    rcases concat_eq_append_cons.mp hsplit with ⟨rfl, rfl, rfl⟩ | ⟨a', hold, rfl⟩
    · exact Or.inr ⟨hwell, hbreaks⟩
    · exact Or.inl ⟨b, c', a', hold, hwell, hbreaks⟩
  · rintro (⟨b, c', a, hold, hwell, hbreaks⟩ | ⟨hwell, hbreaks⟩)
    · exact ⟨b, c', a ++ [c], concat_eq_append_cons.mpr (Or.inr ⟨a, hold, rfl⟩), hwell, hbreaks⟩
    · exact ⟨before, c, [], rfl, hwell, hbreaks⟩

theorem wellFormed_or_firstBroken (commands : List Command) :
    WellFormed commands ∨ ∃ e, FirstBroken commands e := by
  induction commands using List.reverseRecOn with
  | nil => exact Or.inl wellFormed_nil
  | append_singleton before c ih =>
    rcases ih with hwell | ⟨e, he⟩
    · by_cases hlast : ∀ e, ¬Breaks before c e
      · exact Or.inl (wellFormed_concat.mpr ⟨hwell, hlast⟩)
      · push Not at hlast
        obtain ⟨e, he⟩ := hlast
        exact Or.inr ⟨e, firstBroken_concat.mpr (Or.inr ⟨hwell, he⟩)⟩
    · exact Or.inr ⟨e, firstBroken_concat.mpr (Or.inl he)⟩

theorem Command.variableName?_eq (c : Command) :
    c.variableName? = match c.entry? with
      | some (.varname x) => some x
      | _ => c.param? := by
  cases c <;> rfl

theorem param_mem_variableNames {before : List Command} {x : String} (h : .param x ∈ before) :
    x ∈ variableNames before :=
  List.mem_filterMap.mpr ⟨.param x, h, rfl⟩

theorem mem_variableNames_concat {before : List Command} {c : Command} {x : String} :
    x ∈ variableNames (before ++ [c]) ↔ x ∈ variableNames before ∨ c.variableName? = some x := by
  simp [variableNames]

theorem labelCount_concat (before : List Command) (c : Command) :
    labelCount (before ++ [c]) = labelCount before + if c.isNewLabel then 1 else 0 := by
  rw [labelCount, List.countP_append, List.countP_singleton]
  rfl

/-! ### What drafts record of the commands before -/

namespace Draft

/-- What a command that breaks no rule does to the variables of a draft. -/
inductive Declares (d d' : Draft) : Command → Prop where
  | param (x : String) (hnew : x ∉ d.varnames) (hsize : d.varnames.size = d.argcount)
      (hvarnames : d'.varnames = d.varnames.push x) (hargcount : d'.argcount = d.argcount + 1) :
    Declares d d' (.param x)
  | slot (c : Command) (x : String) (hc : c.variableName? = some x) (hparam : ∀ y, c ≠ .param y)
      (hvarnames : d'.varnames = if x ∈ d.varnames then d.varnames else d.varnames.push x)
      (hargcount : d'.argcount = d.argcount) :
    Declares d d' c
  | other (c : Command) (hc : c.variableName? = none) (hvarnames : d'.varnames = d.varnames)
      (hargcount : d'.argcount = d.argcount) :
    Declares d d' c

theorem declares_perform {d : Draft} {c : Command} (hobject : d.objection c = none) :
    Declares d (d.perform c) c := by
  have hgrows := d.grows_perform c
  have hvarnames : (d.perform c).varnames = (d.perform c).tables.varnames := rfl
  have hargcount : (d.perform c).argcount = (d.perform c).tables.argcount := rfl
  generalize (d.perform c).tables = tables at hgrows hvarnames hargcount
  have hvariable := c.variableName?_eq
  cases hgrows with
  | declared hnew hsize => exact .param _ hnew hsize hvarnames hargcount
  | @asked c e he =>
    have hparam : c.param? = none := Command.param?_eq_none_of_entry? he
    rw [he, hparam] at hvariable
    cases e with
    | varname x =>
      refine .slot c x hvariable ?_ (hvarnames.trans (intern_snd _ _)) hargcount
      rintro y rfl
      cases hparam
    | name | const => exact .other c hvariable hvarnames hargcount
  | kept he hparam =>
    rw [he, hparam hobject] at hvariable
    exact .other c hvariable hvarnames hargcount

/-- A draft holds the variables of the commands before, and counts the parameters apart. -/
structure RecordsVariables (d : Draft) (before : List Command) : Prop where
  varnames : ∀ x, x ∈ d.varnames ↔ x ∈ variableNames before
  argcount_le : d.argcount ≤ d.varnames.size
  params : d.varnames.size = d.argcount ↔ ∀ x ∈ d.varnames, .param x ∈ before

/-- A draft holds the labels that the commands before created, and which ones they bound. -/
structure RecordsLabels (d : Draft) (before : List Command) : Prop where
  size_labels : d.labels.size = labelCount before
  bound_lt : ∀ id, .bind id ∈ before → id < labelCount before
  unbound : ∀ id, d.labels[id]? = some none ↔ Unbound before id

theorem RecordsVariables.perform {d : Draft} {before : List Command}
    (h : d.RecordsVariables before) {c : Command} (hobject : d.objection c = none) :
    (d.perform c).RecordsVariables (before ++ [c]) := by
  have hparams : ∀ {x}, (∀ y, c ≠ .param y) → (.param x ∈ before ++ [c] ↔ .param x ∈ before) := by
    intro x hc
    rw [List.mem_append, List.mem_singleton, or_iff_left (hc x).symm]
  cases declares_perform hobject with
  | param x hnew hsize hvarnames hargcount =>
    constructor
    · intro y
      rw [hvarnames, Array.mem_push, h.varnames, mem_variableNames_concat]
      simp [Command.variableName?, eq_comm]
    · exact Nat.le_of_eq (by rw [hvarnames, hargcount, Array.size_push, hsize])
    · rw [hvarnames, hargcount, Array.size_push, hsize]
      refine ⟨fun _ y hy => ?_, fun _ => rfl⟩
      rcases Array.mem_push.mp hy with hold | rfl
      · exact List.mem_append_left _ (h.params.mp hsize y hold)
      · exact List.mem_append_right _ List.mem_cons_self
  | slot c x hc hparam hvarnames hargcount =>
    constructor
    · intro y
      rw [hvarnames, mem_variableNames_concat, hc, ← h.varnames, Option.some.injEq]
      split
      · rename_i hknown
        exact ⟨Or.inl, fun hy => hy.elim id fun hyx => hyx ▸ hknown⟩
      · rw [Array.mem_push, eq_comm]
    · rw [hvarnames, hargcount]
      split
      · exact h.argcount_le
      · rw [Array.size_push]
        exact Nat.le_succ_of_le h.argcount_le
    · rw [hvarnames, hargcount]
      simp only [hparams hparam]
      split
      · exact h.params
      · rename_i hnew
        -- a new local: there are more variables than parameters, and this one is none
        have hlocal : .param x ∉ before := fun hx =>
          hnew ((h.varnames x).mpr (param_mem_variableNames hx))
        have hle := h.argcount_le
        rw [Array.size_push]
        constructor
        · intro hsize
          omega
        · intro hall
          exact absurd (hall x (Array.mem_push.mpr (Or.inr rfl))) hlocal
  | other c hc hvarnames hargcount =>
    have hparam : ∀ y, c ≠ .param y := by
      rintro y rfl
      cases hc
    constructor
    · intro y
      rw [hvarnames, mem_variableNames_concat, hc, h.varnames, or_iff_left (by simp)]
    · rw [hvarnames, hargcount]
      exact h.argcount_le
    · rw [hvarnames, hargcount]
      simp only [hparams hparam]
      exact h.params

theorem RecordsLabels.perform {d : Draft} {before : List Command}
    (h : d.RecordsLabels before) {c : Command} (hobject : d.objection c = none) :
    (d.perform c).RecordsLabels (before ++ [c]) := by
  have hbinds : ∀ id, .bind id ∈ before ++ [c] ↔ .bind id ∈ before ∨ c = .bind id := fun id => by
    simp [eq_comm]
  cases c with
  | newLabel =>
    have hcount : labelCount (before ++ [.newLabel]) = labelCount before + 1 :=
      labelCount_concat before .newLabel
    constructor
    · rw [labels_perform, labelsAfter, Array.size_push, h.size_labels, hcount]
    · intro id hid
      rcases (hbinds id).mp hid with hold | hnew
      · exact hcount ▸ Nat.lt_succ_of_lt (h.bound_lt id hold)
      · cases hnew
    · intro id
      rw [labels_perform, labelsAfter, Array.getElem?_push, Unbound, hbinds, hcount,
        or_iff_left Command.noConfusion, h.size_labels]
      split
      · rename_i hid
        have hnot : .bind id ∉ before := fun hmem => Nat.ne_of_lt (h.bound_lt id hmem) hid
        exact ⟨fun _ => ⟨by omega, hnot⟩, fun _ => rfl⟩
      · rename_i hid
        rw [h.unbound, Unbound]
        exact and_congr_left fun _ => by omega
  | bind target =>
    have htarget : d.labels[target]? = some none := by
      by_contra hnot
      simp [objection, hnot] at hobject
    have hlt : target < labelCount before := ((h.unbound target).mp htarget).1
    have hcount : labelCount (before ++ [.bind target]) = labelCount before :=
      labelCount_concat before (.bind target)
    constructor
    · rw [labels_perform, labelsAfter, if_pos htarget, Array.size_setIfInBounds, h.size_labels,
        hcount]
    · intro id hid
      rw [hcount]
      rcases (hbinds id).mp hid with hold | hnew
      · exact h.bound_lt id hold
      · cases hnew
        exact hlt
    · intro id
      rw [labels_perform, labelsAfter, if_pos htarget, Array.getElem?_setIfInBounds, Unbound,
        hbinds, hcount]
      split
      · rename_i heq
        subst heq
        simp [h.size_labels, hlt]
      · rename_i hne
        rw [h.unbound, Unbound, or_iff_left fun heq => hne (Command.bind.inj heq)]
  | _ =>
    have hcount := labelCount_concat before
    constructor
    · rw [labels_perform, hcount]
      exact h.size_labels
    · intro id hid
      rw [hcount]
      exact h.bound_lt id (((hbinds id).mp hid).resolve_right Command.noConfusion)
    · intro id
      rw [labels_perform, Unbound, hbinds, hcount, or_iff_left Command.noConfusion]
      exact h.unbound id

/-- A draft holds of the commands before what their rules look at. -/
structure Records (d : Draft) (before : List Command) : Prop
    extends d.RecordsVariables before, d.RecordsLabels before

theorem records_nil (name : String) : Records { name } [] where
  varnames x := by simp [variableNames]
  argcount_le := Nat.le_refl 0
  params := by simp
  size_labels := rfl
  bound_lt id h := by cases h
  unbound id := by simp [Unbound, labelCount]

namespace Records

variable {d : Draft} {before : List Command}

/-- A draft objects to a command for the rule that the command breaks. -/
theorem objection_eq_some_iff (h : d.Records before) {c : Command} {e : AssemblyError} :
    d.objection c = some e ↔ Breaks before c e := by
  constructor
  · intro hobject
    cases c with
    | param x =>
      rw [objection] at hobject
      split at hobject
      · rename_i hknown
        cases hobject
        exact .duplicateParam x ((h.varnames x).mp hknown)
      · rename_i hnew
        split at hobject
        · rename_i hsize
          cases hobject
          have hlocal := mt h.params.mpr hsize
          push Not at hlocal
          obtain ⟨y, hy, hlocal⟩ := hlocal
          exact .paramAfterLocal x y (mt (h.varnames x).mpr hnew) ((h.varnames y).mp hy) hlocal
        · cases hobject
    | bind id =>
      rw [objection] at hobject
      split at hobject
      · cases hobject
      · rename_i hlabel
        cases hobject
        refine .labelRebound id ?_
        by_contra hnot
        rw [not_or] at hnot
        exact hlabel ((h.unbound id).mpr ⟨Nat.not_le.mp hnot.2, hnot.1⟩)
    | emit op =>
      rw [objection] at hobject
      split at hobject
      · rename_i hop
        cases hobject
        exact .missingOperand op hop
      · cases hobject
    | emitArg op arg =>
      rw [objection] at hobject
      split at hobject
      · cases hobject
      · rename_i hop
        cases hobject
        exact .unexpectedOperand op arg (Bool.eq_false_iff.mpr hop)
    | emitJump op id =>
      rw [objection] at hobject
      split at hobject
      · cases hobject
      · rename_i hop
        cases hobject
        exact .notAJump op id (Bool.eq_false_iff.mpr hop)
    | _ => cases hobject
  · intro hbreaks
    cases hbreaks with
    | duplicateParam x hknown => exact if_pos ((h.varnames x).mpr hknown)
    | paramAfterLocal x y hnew hy hlocal =>
      rw [objection, if_neg (mt (h.varnames x).mp hnew), if_pos]
      intro hsize
      exact hlocal (h.params.mp hsize y ((h.varnames y).mpr hy))
    | labelRebound id hid =>
      refine if_neg fun hlabel => ?_
      obtain ⟨hlt, hnot⟩ := (h.unbound id).mp hlabel
      rcases hid with hmem | hle
      · exact hnot hmem
      · exact absurd hlt (Nat.not_lt.mpr hle)
    | missingOperand op hop => exact if_pos hop
    | unexpectedOperand op arg hop => exact if_neg (Bool.eq_false_iff.mp hop)
    | notAJump op id hop => exact if_neg (Bool.eq_false_iff.mp hop)

/-- A draft that records the commands before records one more that breaks no rule. -/
theorem perform (h : d.Records before) {c : Command} (hobject : d.objection c = none) :
    (d.perform c).Records (before ++ [c]) :=
  ⟨h.toRecordsVariables.perform hobject, h.toRecordsLabels.perform hobject⟩

end Records

/-! ### The first fault -/

theorem performAll_concat (d : Draft) (commands : List Command) (c : Command) :
    d.performAll (commands ++ [c]) = (d.performAll commands).perform c := by
  rw [performAll, List.foldl_append]
  rfl

theorem records_performAll (name : String) {commands : List Command} (h : WellFormed commands) :
    (performAll { name } commands).Records commands ∧
      (performAll { name } commands).fault = none := by
  induction commands using List.reverseRecOn with
  | nil => exact ⟨records_nil name, rfl⟩
  | append_singleton before c ih =>
    obtain ⟨hbefore, hlast⟩ := wellFormed_concat.mp h
    obtain ⟨hrecords, hfault⟩ := ih hbefore
    have hobject : (performAll { name } before).objection c = none :=
      Option.eq_none_iff_forall_ne_some.mpr fun e he =>
        hlast e (hrecords.objection_eq_some_iff.mp he)
    rw [performAll_concat]
    refine ⟨hrecords.perform hobject, ?_⟩
    rw [fault_perform, hfault, hobject]
    rfl

/-- A draft keeps the fault of the first command that breaks its rule. -/
theorem fault_performAll_eq_some_iff (name : String) {commands : List Command}
    {e : AssemblyError} :
    (performAll { name } commands).fault = some e ↔ FirstBroken commands e := by
  induction commands using List.reverseRecOn generalizing e with
  | nil =>
    refine iff_of_false (by simp [performAll]) ?_
    rintro ⟨before, c, after, hsplit, -⟩
    simp at hsplit
  | append_singleton before c ih =>
    rw [performAll_concat, fault_perform, Option.or_eq_some_iff, ih, firstBroken_concat]
    refine or_congr_right ?_
    constructor
    · rintro ⟨hfault, hobject⟩
      have hwell : WellFormed before := by
        refine (wellFormed_or_firstBroken before).resolve_right ?_
        rintro ⟨e', he'⟩
        have hsome := ih.mpr he'
        rw [hfault] at hsome
        cases hsome
      exact ⟨hwell, (records_performAll name hwell).1.objection_eq_some_iff.mp hobject⟩
    · rintro ⟨hwell, hbreaks⟩
      obtain ⟨hrecords, hfault⟩ := records_performAll name hwell
      exact ⟨hfault, hrecords.objection_eq_some_iff.mpr hbreaks⟩

theorem fault_performAll_eq_none_iff (name : String) {commands : List Command} :
    (performAll { name } commands).fault = none ↔ WellFormed commands := by
  refine ⟨fun hfault => ?_, fun hwell => (records_performAll name hwell).2⟩
  refine (wellFormed_or_firstBroken commands).resolve_right ?_
  rintro ⟨e, he⟩
  rw [(fault_performAll_eq_some_iff name).mpr he] at hfault
  cases hfault

end Draft

/-! ### Labels without a place -/

theorem boundItems_eq_error_iff {id : Nat} {labels : List (Option Nat)} {e : AssemblyError} :
    boundItems id labels = .error e ↔
      ∃ k, e = .unboundLabel (id + k) ∧ labels[k]? = some none ∧
        ∀ j < k, labels[j]? ≠ some none := by
  induction labels generalizing id with
  | nil => simp [boundItems]
  | cons label rest ih =>
    cases label with
    | none =>
      rw [boundItems]
      constructor
      · intro h
        cases h
        exact ⟨0, rfl, rfl, fun j hj => absurd hj (Nat.not_lt_zero j)⟩
      · rintro ⟨k, rfl, -, hbefore⟩
        cases k with
        | zero => rfl
        | succ k => exact absurd rfl (hbefore 0 (Nat.succ_pos k))
    | some item =>
      have hmap : boundItems id (some item :: rest) = .error e ↔
          boundItems (id + 1) rest = .error e := by
        rw [boundItems]
        cases boundItems (id + 1) rest <;> simp [Except.map]
      rw [hmap, ih]
      constructor
      · rintro ⟨k, rfl, hk, hbefore⟩
        refine ⟨k + 1, by rw [Nat.add_right_comm, Nat.add_assoc], hk, fun j hj => ?_⟩
        cases j with
        | zero => simp
        | succ j => exact hbefore j (Nat.lt_of_succ_lt_succ hj)
      · rintro ⟨k, rfl, hk, hbefore⟩
        cases k with
        | zero => simp at hk
        | succ k =>
          exact ⟨k, by rw [Nat.add_right_comm, Nat.add_assoc], hk,
            fun j hj => hbefore (j + 1) (Nat.succ_lt_succ hj)⟩

/-- The label that a command jumps to, if there are only `count` labels and it is none of them. -/
def Command.stray? (count : Nat) : Command → Option Nat
  | .emitJump _ id => if id < count then none else some id
  | _ => none

theorem Command.stray?_eq_some_iff {count id : Nat} {c : Command} :
    c.stray? count = some id ↔ ∃ op, c = .emitJump op id ∧ count ≤ id := by
  cases c with
  | emitJump op target =>
    rw [stray?]
    split
    · rename_i hlt
      refine iff_of_false (by simp) ?_
      rintro ⟨op', heq, hle⟩
      cases heq
      omega
    · rename_i hle
      rw [Option.some.injEq]
      refine ⟨fun heq => ?_, fun ⟨op', heq, _⟩ => (Command.emitJump.inj heq).2⟩
      cases heq
      exact ⟨op, rfl, Nat.not_lt.mp hle⟩
  | _ => simp [stray?]

theorem strayLabel?_emission (d : Draft) (c : Command) (count : Nat) :
    strayLabel? count (d.emission c).toList = c.stray? count := by
  cases c with
  | emitJump op id => simp [Draft.emission, strayLabel?, Command.stray?]
  | _ => rfl

/-- The stray label of a draft is that of the first command that jumps to one. -/
theorem strayLabel?_performAll (name : String) (commands : List Command) (count : Nat) :
    strayLabel? count (Draft.performAll { name } commands).items.toList =
      commands.findSome? (Command.stray? count) := by
  induction commands using List.reverseRecOn with
  | nil => rfl
  | append_singleton before c ih =>
    have hemitted := strayLabel?_emission (Draft.performAll { name } before) c count
    rw [strayLabel?] at ih hemitted
    rw [Draft.performAll_concat, Draft.items_perform, strayLabel?, List.findSome?_append, ih,
      hemitted, List.findSome?_append, List.findSome?_singleton]

theorem findSome?_stray?_eq_some_iff {commands : List Command} {id : Nat} :
    commands.findSome? (Command.stray? (labelCount commands)) = some id ↔
      FirstStray commands id := by
  rw [List.findSome?_eq_some_iff, FirstStray]
  constructor
  · rintro ⟨before, c, after, hsplit, hc, hbefore⟩
    obtain ⟨op, rfl, hle⟩ := Command.stray?_eq_some_iff.mp hc
    refine ⟨before, op, after, hsplit, hle, fun op' id' hmem => ?_⟩
    have hnone := hbefore _ hmem
    rw [Command.stray?] at hnone
    by_contra hlt
    simp [hlt] at hnone
  · rintro ⟨before, op, after, hsplit, hle, hbefore⟩
    refine ⟨before, _, after, hsplit, Command.stray?_eq_some_iff.mpr ⟨op, rfl, hle⟩, ?_⟩
    intro c hmem
    refine Option.eq_none_iff_forall_ne_some.mpr fun id' hid' => ?_
    obtain ⟨op', rfl, hle'⟩ := Command.stray?_eq_some_iff.mp hid'
    exact absurd (hbefore op' id' hmem) (Nat.not_lt.mpr hle')

/-! ### What building comes to -/

theorem length_boundItems {labels : Array (Option Nat)} {bound : List Nat}
    (h : boundItems 0 labels.toList = .ok bound) : bound.length = labels.size := by
  rw [← Array.length_toList, boundItems_eq_ok h, List.length_map]

namespace Draft

theorem build_eq_error_iff {d : Draft} {e : AssemblyError} :
    d.build = .error e ↔
      d.fault = some e ∨
      d.fault = none ∧ (boundItems 0 d.labels.toList = .error e ∨
        (∃ bound, boundItems 0 d.labels.toList = .ok bound) ∧
          ∃ id, e = .strayLabel id ∧ strayLabel? d.labels.size d.items.toList = some id) := by
  rw [build]
  cases hfault : d.fault with
  | some e' => simp
  | none =>
    cases hbound : boundItems 0 d.labels.toList with
    | error e' => simp
    | ok bound =>
      simp only [length_boundItems hbound]
      cases hstray : strayLabel? d.labels.size d.items.toList with
      | none => simp
      | some id => simp [eq_comm]

theorem exists_build_eq_ok_iff {d : Draft} :
    (∃ code, d.build = .ok code) ↔
      d.fault = none ∧ (∃ bound, boundItems 0 d.labels.toList = .ok bound) ∧
        strayLabel? d.labels.size d.items.toList = none := by
  rw [build]
  cases hfault : d.fault with
  | some e' => simp
  | none =>
    cases hbound : boundItems 0 d.labels.toList with
    | error e' => simp
    | ok bound =>
      simp only [length_boundItems hbound]
      cases hstray : strayLabel? d.labels.size d.items.toList with
      | none => simp
      | some id => simp

variable {d : Draft} {commands : List Command}

/-- The first label of a draft that is not bound is the smallest one that no command binds. -/
theorem RecordsLabels.boundItems_eq_error_iff (h : d.RecordsLabels commands) {e : AssemblyError} :
    boundItems 0 d.labels.toList = .error e ↔
      ∃ id, e = .unboundLabel id ∧ Unbound commands id ∧ ∀ id' < id, ¬Unbound commands id' := by
  simp only [Wordcode.boundItems_eq_error_iff, Array.getElem?_toList, h.unbound, Nat.zero_add,
    ne_eq]

theorem RecordsLabels.exists_boundItems_iff (h : d.RecordsLabels commands) :
    (∃ bound, boundItems 0 d.labels.toList = .ok bound) ↔ ∀ id, ¬Unbound commands id := by
  constructor
  · rintro ⟨bound, hbound⟩ id hid
    have hnone := (h.unbound id).mpr hid
    rw [← Array.getElem?_toList, boundItems_eq_ok hbound, List.getElem?_map] at hnone
    cases hget : bound[id]? <;> simp [hget] at hnone
  · intro hall
    cases hbound : boundItems 0 d.labels.toList with
    | ok bound => exact ⟨bound, rfl⟩
    | error e =>
      obtain ⟨id, -, hid, -⟩ := h.boundItems_eq_error_iff.mp hbound
      exact absurd hid (hall id)

end Draft

theorem exists_unbound_least {commands : List Command} {id : Nat} (h : Unbound commands id) :
    ∃ least, Unbound commands least ∧ ∀ id' < least, ¬Unbound commands id' := by
  classical
  exact ⟨Nat.find ⟨id, h⟩, Nat.find_spec ⟨id, h⟩, fun id' hid' => Nat.find_min ⟨id, h⟩ hid'⟩

theorem Breaks.ne_strayLabel {before : List Command} {c : Command} {e : AssemblyError}
    (h : Breaks before c e) (id : Nat) : e ≠ .strayLabel id := by
  cases h <;> exact AssemblyError.noConfusion

theorem findSome?_stray?_eq_none_iff {commands : List Command} :
    commands.findSome? (Command.stray? (labelCount commands)) = none ↔
      ∀ op id, .emitJump op id ∈ commands → id < labelCount commands := by
  rw [List.findSome?_eq_none_iff]
  constructor
  · intro h op id hmem
    have hnone := h _ hmem
    rw [Command.stray?] at hnone
    by_contra hlt
    simp [hlt] at hnone
  · intro h c hmem
    refine Option.eq_none_iff_forall_ne_some.mpr fun id hid => ?_
    obtain ⟨op, rfl, hle⟩ := Command.stray?_eq_some_iff.mp hid
    exact absurd (h op id hmem) (Nat.not_lt.mpr hle)

section Assemble

variable (name : String) (commands : List Command)

theorem assemble_eq_error_iff (e : AssemblyError) :
    assemble name commands = .error e ↔
      FirstBroken commands e ∨
      WellFormed commands ∧
        ((∃ id, e = .unboundLabel id ∧ Unbound commands id ∧ ∀ id' < id, ¬Unbound commands id') ∨
          (∀ id, ¬Unbound commands id) ∧ ∃ id, e = .strayLabel id ∧ FirstStray commands id) := by
  rw [assemble, Draft.build_eq_error_iff, Draft.fault_performAll_eq_some_iff,
    Draft.fault_performAll_eq_none_iff]
  refine or_congr_right (and_congr_right fun hwell => ?_)
  obtain ⟨hrecords, -⟩ := Draft.records_performAll name hwell
  rw [hrecords.boundItems_eq_error_iff, hrecords.exists_boundItems_iff, hrecords.size_labels,
    strayLabel?_performAll]
  simp only [findSome?_stray?_eq_some_iff]

theorem exists_assemble_eq_ok_iff :
    (∃ code, assemble name commands = .ok code) ↔
      WellFormed commands ∧ (∀ id, ¬Unbound commands id) ∧
        ∀ op id, .emitJump op id ∈ commands → id < labelCount commands := by
  simp only [assemble]
  rw [Draft.exists_build_eq_ok_iff, Draft.fault_performAll_eq_none_iff]
  refine and_congr_right fun hwell => ?_
  obtain ⟨hrecords, -⟩ := Draft.records_performAll name hwell
  rw [hrecords.exists_boundItems_iff, hrecords.size_labels, strayLabel?_performAll,
    findSome?_stray?_eq_none_iff]

theorem exists_fault_iff :
    (∃ e, (∀ id, e ≠ .strayLabel id) ∧ assemble name commands = .error e) ↔
      (∃ before c after e, commands = before ++ c :: after ∧ Breaks before c e) ∨
        ∃ id, Unbound commands id := by
  constructor
  · rintro ⟨e, hstray, herror⟩
    rcases (assemble_eq_error_iff name commands e).mp herror with
      ⟨before, c, after, hsplit, -, hbreaks⟩ | ⟨-, ⟨id, -, hid, -⟩ | ⟨-, id, he, -⟩⟩
    · exact Or.inl ⟨before, c, after, e, hsplit, hbreaks⟩
    · exact Or.inr ⟨id, hid⟩
    · exact absurd he (hstray id)
  · intro h
    rcases wellFormed_or_firstBroken commands with hwell | ⟨e, he⟩
    · rcases h with ⟨before, c, after, e, hsplit, hbreaks⟩ | ⟨id, hid⟩
      · exact absurd hbreaks (hwell before c after hsplit e)
      · obtain ⟨least, hleast, hbefore⟩ := exists_unbound_least hid
        exact ⟨.unboundLabel least, fun _ => AssemblyError.noConfusion,
          (assemble_eq_error_iff name commands _).mpr
            (Or.inr ⟨hwell, Or.inl ⟨least, rfl, hleast, hbefore⟩⟩)⟩
    · have ⟨before, c, after, hsplit, hwell, hbreaks⟩ := he
      exact ⟨e, hbreaks.ne_strayLabel, (assemble_eq_error_iff name commands e).mpr (Or.inl he)⟩

theorem exists_strayLabel_iff :
    (∃ id, assemble name commands = .error (.strayLabel id)) ↔
      WellFormed commands ∧ (∀ id, ¬Unbound commands id) ∧
        ∃ op id, .emitJump op id ∈ commands ∧ labelCount commands ≤ id := by
  constructor
  · rintro ⟨id, herror⟩
    rcases (assemble_eq_error_iff name commands _).mp herror with
      ⟨before, c, after, hsplit, -, hbreaks⟩ | ⟨hwell, ⟨id', he, -⟩ | ⟨hbound, id', he, hstray⟩⟩
    · exact absurd rfl (hbreaks.ne_strayLabel id)
    · cases he
    · obtain ⟨before, op, after, rfl, hle, -⟩ := hstray
      exact ⟨hwell, hbound, op, id', by simp, hle⟩
  · rintro ⟨hwell, hbound, op, id, hmem, hle⟩
    cases hfirst : commands.findSome? (Command.stray? (labelCount commands)) with
    | none => exact absurd (findSome?_stray?_eq_none_iff.mp hfirst op id hmem) (Nat.not_lt.mpr hle)
    | some first =>
      have hstray := findSome?_stray?_eq_some_iff.mp hfirst
      exact ⟨first, (assemble_eq_error_iff name commands _).mpr
        (Or.inr ⟨hwell, Or.inr ⟨hbound, first, rfl, hstray⟩⟩)⟩

/-- Building fails exactly if some command breaks its rule or some label is not bound.  It answers
with the fault of the first such command, whatever follows it; if there is none, with the smallest
unbound label, whether or not a jump uses it.  Otherwise there is a code object, unless a jump names
a label that was never created. -/
theorem assemble_reports_first_fault (name : String) (commands : List Command) :
    ((∃ e, (∀ id, e ≠ .strayLabel id) ∧ assemble name commands = .error e) ↔
      (∃ before c after e, commands = before ++ c :: after ∧ Breaks before c e) ∨
        ∃ id, Unbound commands id) ∧
    (∀ e, assemble name commands = .error e ↔
      FirstBroken commands e ∨
      WellFormed commands ∧
        ((∃ id, e = .unboundLabel id ∧ Unbound commands id ∧ ∀ id' < id, ¬Unbound commands id') ∨
          (∀ id, ¬Unbound commands id) ∧ ∃ id, e = .strayLabel id ∧ FirstStray commands id)) ∧
    ((∃ code, assemble name commands = .ok code) ↔
      WellFormed commands ∧ (∀ id, ¬Unbound commands id) ∧
        ∀ op id, .emitJump op id ∈ commands → id < labelCount commands) ∧
    ((∃ id, assemble name commands = .error (.strayLabel id)) ↔
      WellFormed commands ∧ (∀ id, ¬Unbound commands id) ∧
        ∃ op id, .emitJump op id ∈ commands ∧ labelCount commands ≤ id) :=
  ⟨exists_fault_iff name commands, assemble_eq_error_iff name commands,
    exists_assemble_eq_ok_iff name commands, exists_strayLabel_iff name commands⟩

end Assemble

end Wordcode
