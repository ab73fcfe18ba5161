import Mathlib.Data.List.Dedup
import Wordcode.Proofs.Counting

/-! Histograms as multisets.  A histogram holds the number of times that each name was recorded,
and nothing of the order of the records.  Its listing is in an order in which no two entries are
tied, so there is just one arrangement of the entries that it can be, in whatever order a table
gives them. -/

namespace Wordcode.Trace.Histogram

/-! ### The order of the listing -/

/-- The first entry stands before the second one in a listing: its count is greater, or else its
name is lesser. -/
def Before (a b : String × Nat) : Prop := b.2 < a.2 ∨ a.2 = b.2 ∧ a.1 < b.1

theorem Before.trans {a b c : String × Nat} (hab : Before a b) (hbc : Before b c) :
    Before a c := by
  rcases hab with hab | ⟨hab, hname⟩
  · rcases hbc with hbc | ⟨hbc, -⟩
    · exact Or.inl (Nat.lt_trans hbc hab)
    · exact Or.inl (hbc ▸ hab)
  · rcases hbc with hbc | ⟨hbc, hname'⟩
    · exact Or.inl (hab ▸ hbc)
    · exact Or.inr ⟨hab.trans hbc, Std.lt_trans hname hname'⟩

theorem not_before_self (a : String × Nat) : ¬Before a a := by
  rintro (h | ⟨-, h⟩)
  · exact Nat.lt_irrefl _ h
  · exact Std.lt_irrefl h

theorem before_or_eq_or_before (a b : String × Nat) : Before a b ∨ a = b ∨ Before b a := by
  rcases Nat.lt_trichotomy a.2 b.2 with hlt | heq | hgt
  · exact Or.inr (Or.inr (Or.inl hlt))
  · rcases Std.lt_trichotomy a.1 b.1 with hlt | hname | hgt
    · exact Or.inl (Or.inr ⟨heq, hlt⟩)
    · exact Or.inr (Or.inl (Prod.ext hname heq))
    · exact Or.inr (Or.inr (Or.inr ⟨heq.symm, hgt⟩))
  · exact Or.inl (Or.inl hgt)

theorem precedes_iff {a b : String × Nat} : precedes a b = true ↔ Before a b ∨ a = b := by
  rw [precedes, Bool.or_eq_true, Bool.and_eq_true, decide_eq_true_eq, decide_eq_true_eq,
    beq_iff_eq, Std.le_iff_lt_or_eq, and_or_left, ← or_assoc, ← Before, and_comm, ← Prod.ext_iff]

/-! ### One arrangement -/

/-- Sorting puts the entries in strict order, if they are different. -/
theorem pairwise_mergeSort_precedes {entries : List (String × Nat)} (h : entries.Nodup) :
    (entries.mergeSort precedes).Pairwise Before := by
  have htrans : ∀ a b c, precedes a b = true → precedes b c = true → precedes a c = true := by
    intro a b c hab hbc
    rw [precedes_iff] at hab hbc ⊢
    rcases hab with hab | rfl
    · rcases hbc with hbc | rfl
      · exact Or.inl (hab.trans hbc)
      · exact Or.inl hab
    · exact hbc
  have htotal : ∀ a b, (precedes a b || precedes b a) = true := by
    intro a b
    rw [Bool.or_eq_true, precedes_iff, precedes_iff]
    rcases before_or_eq_or_before a b with h | h | h
    · exact Or.inl (Or.inl h)
    · exact Or.inl (Or.inr h)
    · exact Or.inr (Or.inl h)
  have hsorted := List.pairwise_mergeSort htrans htotal entries
  have hnodup := (entries.mergeSort_perm precedes).nodup_iff.mpr h
  refine (hsorted.and hnodup).imp fun ⟨hle, hne⟩ => ?_
  exact (precedes_iff.mp hle).resolve_right hne

/-- No two arrangements of the same entries are both in strict order. -/
theorem eq_of_pairwise_before {l l' : List (String × Nat)} (hl : l.Pairwise Before)
    (hl' : l'.Pairwise Before) (h : l.Perm l') : l = l' := by
  refine h.eq_of_pairwise (fun a b _ _ hab hba => ?_) hl hl'
  exact absurd (hab.trans hba) (not_before_self a)

theorem nodup_of_pairwise_before {l : List (String × Nat)} (h : l.Pairwise Before) : l.Nodup := by
  refine h.imp ?_
  rintro a _ hbefore rfl
  exact not_before_self a hbefore

theorem nodup_toList (h : Histogram) : h.counts.toList.Nodup := by
  refine h.counts.distinct_keys_toList.imp fun hkeys heq => ?_
  rw [heq] at hkeys
  simp at hkeys

theorem pairwise_sorted (h : Histogram) : h.sorted.Pairwise Before :=
  pairwise_mergeSort_precedes h.nodup_toList

/-- However the table is gone through, sorting comes to the same listing. -/
theorem mergeSort_eq_sorted {h : Histogram} {entries : List (String × Nat)}
    (hperm : entries.Perm h.counts.toList) : entries.mergeSort precedes = h.sorted := by
  have hnodup := hperm.nodup_iff.mpr h.nodup_toList
  refine eq_of_pairwise_before (pairwise_mergeSort_precedes hnodup) h.pairwise_sorted ?_
  exact (entries.mergeSort_perm precedes).trans
    (hperm.trans (h.counts.toList.mergeSort_perm precedes).symm)

/-! ### What is recorded -/

theorem getElem?_ofList (names : List String) (name : String) :
    (ofList names).counts[name]? = if name ∈ names then some (names.count name) else none := by
  have hmem := mem_ofList names name
  split
  · rename_i h
    exact (Std.HashMap.getElem?_eq_some_getD (hmem.mpr h)).trans
      (congrArg some (get_ofList names name))
  · rename_i h
    exact Std.HashMap.getElem?_eq_none fun h' => h (hmem.mp h')

theorem mem_sorted_ofList {names : List String} {name : String} {count : Nat} :
    (name, count) ∈ (ofList names).sorted ↔ name ∈ names ∧ count = names.count name := by
  rw [sorted, (List.mergeSort_perm _ precedes).mem_iff,
    Std.HashMap.mem_toList_iff_getElem?_eq_some, getElem?_ofList]
  split <;> simp_all [eq_comm]

theorem nodup_keys (h : Histogram) : h.counts.keys.Nodup :=
  h.counts.distinct_keys.imp fun hne => by simpa using hne

theorem nodup_sorted_names (h : Histogram) : (h.sorted.map Prod.fst).Nodup := by
  have hperm := (h.counts.toList.mergeSort_perm precedes).map Prod.fst
  rw [Std.HashMap.map_fst_toList_eq_keys] at hperm
  exact hperm.nodup_iff.mpr h.nodup_keys

theorem size_ofList (names : List String) : (ofList names).size = names.dedup.length := by
  have hperm : (ofList names).counts.keys.Perm names.dedup := by
    rw [List.perm_ext_iff_of_nodup (nodup_keys _) names.nodup_dedup]
    intro name
    rw [Std.HashMap.mem_keys, mem_ofList, List.mem_dedup]
  rw [size, ← Std.HashMap.length_keys, hperm.length_eq]

theorem toList_ofList_perm {names names' : List String} (h : names'.Perm names) :
    (ofList names').counts.toList.Perm (ofList names).counts.toList := by
  refine Std.HashMap.Equiv.toList_perm (.of_forall_getElem?_eq fun name => ?_)
  rw [getElem?_ofList, getElem?_ofList, h.count_eq]
  simp only [h.mem_iff]

/-- A histogram is the multiset of the names that were recorded, with one listing.  Each name is
listed once with its count, by descending counts and then by ascending names, with no ties; and
neither the order of the records nor that of the table has a part in what is shown. -/
theorem histogram_canonical (names : List String) :
    (∀ name, (ofList names).get name = names.count name) ∧
      (ofList names).total = names.length ∧ (ofList names).size = names.dedup.length ∧
      (∀ name count,
        (name, count) ∈ (ofList names).sorted ↔ name ∈ names ∧ count = names.count name) ∧
      ((ofList names).sorted.map Prod.fst).Nodup ∧ (ofList names).sorted.Pairwise Before ∧
      (∀ entries : List (String × Nat), entries.Perm (ofList names).counts.toList →
        (entries.map Prod.snd).sum = (ofList names).total ∧
          entries.mergeSort precedes = (ofList names).sorted ∧
          ∀ l : List (String × Nat), l.Perm entries → l.Pairwise Before →
            l = (ofList names).sorted) ∧
      ∀ names' : List String, names'.Perm names →
        (ofList names').total = (ofList names).total ∧
          (∀ name, (ofList names').get name = (ofList names).get name) ∧
          (ofList names').sorted = (ofList names).sorted ∧
          (ofList names').display = (ofList names).display := by
  refine ⟨get_ofList names, total_ofList names, size_ofList names,
    fun _ _ => mem_sorted_ofList, nodup_sorted_names _, pairwise_sorted _, ?_, ?_⟩
  · intro entries hperm
    have hsorted := mergeSort_eq_sorted hperm
    refine ⟨(hperm.map Prod.snd).sum_eq, hsorted, fun l hl hbefore => ?_⟩
    refine eq_of_pairwise_before hbefore (pairwise_sorted _) (hl.trans ?_)
    rw [← hsorted]
    exact (entries.mergeSort_perm precedes).symm
  · intro names' hperm
    have hsorted : (ofList names').sorted = (ofList names).sorted :=
      mergeSort_eq_sorted (toList_ofList_perm hperm)
    refine ⟨?_, fun name => ?_, hsorted, ?_⟩
    · rw [total_ofList, total_ofList, hperm.length_eq]
    · rw [get_ofList, get_ofList, hperm.count_eq]
    · rw [display, display, hsorted]

/-- Two names that were recorded equally often are listed by name, whichever came first. -/
theorem histogram_canonical_tie :
    (ofList ["NOP", "LOAD_FAST", "LOAD_FAST", "GET_ITER"]).sorted =
      [("LOAD_FAST", 2), ("GET_ITER", 1), ("NOP", 1)] := by
  let names := ["NOP", "LOAD_FAST", "LOAD_FAST", "GET_ITER"]
  let listed := [("LOAD_FAST", 2), ("GET_ITER", 1), ("NOP", 1)]
  obtain ⟨-, -, -, hmem, -, hsorted, harranged, -⟩ := histogram_canonical names
  have hbefore : listed.Pairwise Before := by
    unfold Before
    decide
  have hperm : listed.Perm (ofList names).sorted := by
    rw [List.perm_ext_iff_of_nodup (nodup_of_pairwise_before hbefore)
      (nodup_of_pairwise_before hsorted)]
    rintro ⟨name, count⟩
    rw [hmem]
    constructor
    · intro h
      simp only [listed, List.mem_cons, Prod.mk.injEq, List.not_mem_nil, or_false] at h
      obtain ⟨rfl, rfl⟩ | ⟨rfl, rfl⟩ | ⟨rfl, rfl⟩ := h <;> decide
    · rintro ⟨h, rfl⟩
      simp only [names, List.mem_cons, List.not_mem_nil, or_false] at h
      obtain rfl | rfl | rfl | rfl := h <;> decide
  have hlisted := (harranged _ (.refl _)).2.2 listed
    (hperm.trans ((ofList names).counts.toList.mergeSort_perm precedes)) hbefore
  exact hlisted.symm

end Wordcode.Trace.Histogram
