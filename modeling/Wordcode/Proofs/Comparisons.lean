import Wordcode.Machine.Frame

/-! The comparisons of values agree.  Equality is defined for all values and the order only for two
integers and for two strings; where both are defined they are parts of one linear order, and the
keys of maps are equal just where the values are. -/

namespace Wordcode

/-! ### Linear orders -/

section LinearOrder

variable {α : Type} [LE α] [LT α] [DecidableLT α] [DecidableEq α] [Std.IsLinearOrder α]
  [Std.LawfulOrderLT α] (a b : α)

omit [Std.IsLinearOrder α] in
theorem compareOfLessAndEq_eq_iff : compareOfLessAndEq a b = .eq ↔ a = b := by
  unfold compareOfLessAndEq
  split
  · rename_i hlt
    simpa using Std.ne_of_lt hlt
  · split <;> simp_all

theorem swap_compareOfLessAndEq : (compareOfLessAndEq a b).swap = compareOfLessAndEq b a := by
  unfold compareOfLessAndEq
  rcases Std.lt_trichotomy a b with hlt | rfl | hgt
  · rw [if_pos hlt, if_neg (Std.not_gt_of_lt hlt), if_neg (Std.ne_of_lt hlt).symm]
    rfl
  · rw [if_neg Std.lt_irrefl, if_pos rfl]
    rfl
  · rw [if_pos hgt, if_neg (Std.not_gt_of_lt hgt), if_neg (Std.ne_of_lt hgt).symm]
    rfl

end LinearOrder

/-- Whether a comparison is one of order, not of equality. -/
def Comparison.isOrder : Comparison → Bool
  | .lt | .le | .gt | .ge => true
  | .eq | .ne => false

namespace Value

variable {a b c : Value}

/-- Both are integers, or both are strings. -/
def Comparable (a b : Value) : Prop :=
  a.kind = .int ∧ b.kind = .int ∨ a.kind = .str ∧ b.kind = .str

/-- The comparison succeeds, and it holds. -/
def Holds (op : Comparison) (a b : Value) : Prop := compare op a b = .ok true

/-! ### The order -/

theorem comparable_iff : Comparable a b ↔ ∃ o, ordering? a b = some o := by
  cases a <;> cases b <;> simp [Comparable, kind, ordering?]

theorem ordering?_eq_none (h : ¬Comparable a b) : ordering? a b = .none :=
  Option.eq_none_iff_forall_ne_some.mpr fun o ho => h (comparable_iff.mpr ⟨o, ho⟩)

theorem map_swap_ordering? (a b : Value) :
    (ordering? a b).map Ordering.swap = ordering? b a := by
  cases a with
  | int m =>
    cases b with
    | int n => exact congrArg some (swap_compareOfLessAndEq m n)
    | _ => rfl
  | str s =>
    cases b with
    | str t => exact congrArg some (swap_compareOfLessAndEq s t)
    | _ => rfl
  | _ => cases b <;> rfl

/-- Values that are ordered are equal as values just where neither comes before the other. -/
theorem eq_iff_of_ordering? {o : Ordering} (h : ordering? a b = some o) : a = b ↔ o = .eq := by
  cases a with
  | int m =>
    cases b with
    | int n =>
      obtain rfl : compareOfLessAndEq m n = o := Option.some.inj h
      rw [compareOfLessAndEq_eq_iff, int.injEq]
    | _ => cases h
  | str s =>
    cases b with
    | str t =>
      obtain rfl : compareOfLessAndEq s t = o := Option.some.inj h
      rw [compareOfLessAndEq_eq_iff, str.injEq]
    | _ => cases h
  | _ => cases b <;> cases h

theorem ordering?_trans (hab : ordering? a b = some .lt) (hbc : ordering? b c = some .lt) :
    ordering? a c = some .lt := by
  have hint : ∀ m n : Int64, ordering? (.int m) (.int n) = some .lt ↔ m < n := fun m n =>
    Option.some_inj.trans compareOfLessAndEq_eq_lt
  have hstr : ∀ s t : String, ordering? (.str s) (.str t) = some .lt ↔ s < t := fun s t =>
    Option.some_inj.trans compareOfLessAndEq_eq_lt
  cases b with
  | int n =>
    cases a with
    | int m =>
      cases c with
      | int k =>
        rw [hint] at hab hbc ⊢
        exact Std.lt_trans hab hbc
      | _ => cases hbc
    | _ => cases hab
  | str t =>
    cases a with
    | str s =>
      cases c with
      | str u =>
        rw [hstr] at hab hbc ⊢
        exact Std.lt_trans hab hbc
      | _ => cases hbc
    | _ => cases hab
  | _ => cases c <;> cases hbc

/-! ### Comparisons -/

/-- Where values are ordered, all comparisons go by their order, those of equality too. -/
theorem compare_of_ordering? {o : Ordering} (h : ordering? a b = some o) (op : Comparison) :
    compare op a b = .ok (op.holds o) := by
  have hbeq : (a == b) = (o == .eq) := by
    rw [Bool.eq_iff_iff, beq_iff_eq, beq_iff_eq]
    exact eq_iff_of_ordering? h
  cases op with
  | eq => exact congrArg Except.ok hbeq
  | ne => exact congrArg (fun e => Except.ok !e) hbeq
  | lt | le | gt | ge => simp only [compare, h]

theorem compare_of_not_comparable (h : ¬Comparable a b) {op : Comparison}
    (hop : op.isOrder = true) :
    compare op a b = .error (.unsupportedOperands op.symbol a.kind b.kind) := by
  cases op with
  | eq | ne => cases hop
  | lt | le | gt | ge => simp only [compare, ordering?_eq_none h]

theorem exists_compare_iff {op : Comparison} (hop : op.isOrder = true) :
    (∃ e, compare op a b = .ok e) ↔ Comparable a b := by
  by_cases h : Comparable a b
  · obtain ⟨o, ho⟩ := comparable_iff.mp h
    exact iff_of_true ⟨_, compare_of_ordering? ho op⟩ h
  · refine iff_of_false ?_ h
    rintro ⟨e, he⟩
    rw [compare_of_not_comparable h hop] at he
    cases he

theorem holds_iff {o : Ordering} (h : ordering? a b = some o) (op : Comparison) :
    Holds op a b ↔ op.holds o = true := by
  rw [Holds, compare_of_ordering? h]
  exact ⟨Except.ok.inj, congrArg Except.ok⟩

theorem holds_eq_iff : Holds .eq a b ↔ a = b := by
  rw [← beq_iff_eq]
  exact ⟨Except.ok.inj, congrArg Except.ok⟩

/-- A comparison of order holds only of values that are ordered. -/
theorem holds_order_iff {op : Comparison} (hop : op.isOrder = true) :
    Holds op a b ↔ ∃ o, ordering? a b = some o ∧ op.holds o = true := by
  constructor
  · intro h
    by_cases hab : Comparable a b
    · obtain ⟨o, ho⟩ := comparable_iff.mp hab
      exact ⟨o, ho, (holds_iff ho op).mp h⟩
    · rw [Holds, compare_of_not_comparable hab hop] at h
      cases h
  · rintro ⟨o, ho, h⟩
    exact (holds_iff ho op).mpr h

theorem equivalence_holds_eq : Equivalence (Holds .eq) where
  refl _ := holds_eq_iff.mpr rfl
  symm h := holds_eq_iff.mpr (holds_eq_iff.mp h).symm
  trans h h' := holds_eq_iff.mpr ((holds_eq_iff.mp h).trans (holds_eq_iff.mp h'))

theorem holds_lt_iff_holds_gt (a b : Value) : Holds .lt a b ↔ Holds .gt b a := by
  rw [holds_order_iff rfl, holds_order_iff rfl, ← map_swap_ordering? a b]
  constructor
  · rintro ⟨o, ho, h⟩
    rw [ho, eq_of_beq h]
    exact ⟨.gt, rfl, rfl⟩
  · rintro ⟨o, ho, h⟩
    obtain ⟨o', ho', rfl⟩ := Option.map_eq_some_iff.mp ho
    refine ⟨o', ho', ?_⟩
    cases o' <;> first
      | rfl
      | cases h

theorem holds_lt_trans (hab : Holds .lt a b) (hbc : Holds .lt b c) : Holds .lt a c := by
  rw [holds_order_iff rfl] at hab hbc ⊢
  obtain ⟨o, ho, h⟩ := hab
  obtain ⟨o', ho', h'⟩ := hbc
  rw [eq_of_beq h] at ho
  rw [eq_of_beq h'] at ho'
  exact ⟨.lt, ordering?_trans ho ho', rfl⟩

/-- Of values that can be ordered, exactly one of three comparisons holds, and the two others go by
these. -/
theorem trichotomy (h : Comparable a b) :
    (Holds .lt a b ∧ ¬Holds .eq a b ∧ ¬Holds .gt a b ∨
      ¬Holds .lt a b ∧ Holds .eq a b ∧ ¬Holds .gt a b ∨
      ¬Holds .lt a b ∧ ¬Holds .eq a b ∧ Holds .gt a b) ∧
    (Holds .le a b ↔ Holds .lt a b ∨ Holds .eq a b) ∧
    (Holds .ge a b ↔ Holds .gt a b ∨ Holds .eq a b) := by
  obtain ⟨o, ho⟩ := comparable_iff.mp h
  simp only [holds_iff ho]
  cases o <;> decide

/-! ### Keys -/

theorem exists_key?_iff : (∃ k, a.key? = some k) ↔ a.kind = .int ∨ a.kind = .str := by
  cases a <;> simp [key?, kind]

theorem eq_iff_of_key? {k l : MapKey} (ha : a.key? = some k) (hb : b.key? = some l) :
    a = b ↔ k = l := by
  constructor
  · rintro rfl
    exact Option.some.inj (ha.symm.trans hb)
  · rintro rfl
    rw [key?_eq_some.mp ha, key?_eq_some.mp hb]

/-- The comparison of two values is coherent.  The tests of equality never fail, are complementary
and form an equivalence.  The tests of order succeed exactly for two integers and for two strings,
of which they make a linear order together with equality; otherwise they raise a type error.  Values
that are keys are equal exactly when they are the same key. -/
theorem comparisons_coherent (a b c : Value) :
    (∀ op vm f rest, f.stack = b :: a :: rest →
      execute .compareOp op.code vm f = .give vm f rest ((compare op a b).map .bool)) ∧
    (∃ e : Bool, compare .eq a b = .ok e ∧ compare .ne a b = .ok !e) ∧
    Equivalence (Holds .eq) ∧
    (∀ op : Comparison, op.isOrder = true →
      ((∃ e, compare op a b = .ok e) ↔ Comparable a b) ∧
      (¬Comparable a b → ∃ e, compare op a b = .error e ∧ e.kind = .type)) ∧
    (Comparable a b →
      (Holds .lt a b ∧ ¬Holds .eq a b ∧ ¬Holds .gt a b ∨
        ¬Holds .lt a b ∧ Holds .eq a b ∧ ¬Holds .gt a b ∨
        ¬Holds .lt a b ∧ ¬Holds .eq a b ∧ Holds .gt a b) ∧
      (Holds .le a b ↔ Holds .lt a b ∨ Holds .eq a b) ∧
      (Holds .ge a b ↔ Holds .gt a b ∨ Holds .eq a b)) ∧
    (Holds .lt a b ↔ Holds .gt b a) ∧
    (Holds .lt a b → Holds .lt b c → Holds .lt a c) ∧
    ((∃ k, a.key? = some k) ↔ a.kind = .int ∨ a.kind = .str) ∧
    (∀ k l, a.key? = some k → b.key? = some l → (Holds .eq a b ↔ k = l)) := by
  refine ⟨?_, ⟨a == b, rfl, rfl⟩, equivalence_holds_eq, fun op hop => ⟨exists_compare_iff hop, ?_⟩,
    trichotomy, holds_lt_iff_holds_gt a b, holds_lt_trans, exists_key?_iff, ?_⟩
  · intro op vm f rest hstack
    simp only [execute, Comparison.ofCode?_code, hstack]
  · intro h
    exact ⟨_, compare_of_not_comparable h hop, rfl⟩
  · intro k l ha hb
    rw [holds_eq_iff, eq_iff_of_key? ha hb]

/-- Strings are ordered by code points, and a digit is no number. -/
theorem comparisons_coherent_strings :
    let upper := Value.str "Z"
    let lower := Value.str "a"
    let accented := Value.str "é"
    Holds .lt upper lower ∧ Holds .lt lower accented ∧ Holds .lt upper accented ∧
      ¬Holds .eq (.int 1) (.str "1") := by
  intro upper lower accented
  have hupper : Holds .lt upper lower := (holds_order_iff rfl).mpr ⟨.lt, by decide, rfl⟩
  have hlower : Holds .lt lower accented := (holds_order_iff rfl).mpr ⟨.lt, by decide, rfl⟩
  obtain ⟨-, -, -, -, -, -, htrans, -⟩ := comparisons_coherent upper lower accented
  refine ⟨hupper, hlower, htrans hupper hlower, ?_⟩
  rw [holds_eq_iff]
  exact Value.noConfusion

end Value

end Wordcode
