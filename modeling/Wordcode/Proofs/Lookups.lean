import Mathlib.Order.Lattice.Nat
import Mathlib.Order.Interval.Finset.SuccPred
import Mathlib.Order.Interval.Finset.Nat
import Wordcode.Workload.Lookup
import Wordcode.Proofs.Decimals

/-! Lookups over ranges of keys, in maps that were populated and then updated.  What a map holds is
told by the updates alone: the last one of a key decides.  A lookup of numbers tells of the least
key that is not mapped to itself, and a lookup of decimal forms counts those that are keys. -/

namespace Wordcode.Workload

/-! ### Ranges of keys -/

theorem Ico_add_sub (first last : Nat) :
    Finset.Ico first (first + (last - first)) = Finset.Ico first last := by
  ext i
  simp only [Finset.mem_Ico]
  omega

theorem card_filter_Ico_succ (p : Nat → Prop) [DecidablePred p] (n count : Nat) :
    ((Finset.Ico n (n + (count + 1))).filter p).card =
      (if p n then 1 else 0) + ((Finset.Ico (n + 1) (n + 1 + count)).filter p).card := by
  have hrange : insert n (Finset.Ico (n + 1) (n + 1 + count)) = Finset.Ico n (n + (count + 1)) := by
    ext i
    simp
    omega
  rw [← hrange, Finset.filter_insert]
  split
  · rw [Finset.card_insert_of_notMem (by simp), Nat.add_comm]
  · rw [Nat.zero_add]

/-! ### Populated maps -/

section Populate

variable {κ : Type} [BEq κ] [Hashable κ] {key : Nat → κ}

theorem populate_succ (key : Nat → κ) (n : Nat) :
    populate key (n + 1) = (populate key n).insert (key n) n := rfl

variable [LawfulBEq κ] [LawfulHashable κ]

theorem getElem?_populate (hkey : Function.Injective key) {n i : Nat} {k : κ} :
    (populate key n)[k]? = some i ↔ i < n ∧ k = key i := by
  induction n with
  | zero => simp [populate]
  | succ n ih =>
    rw [populate_succ, Std.HashMap.getElem?_insert]
    by_cases hk : key n = k
    · subst hk
      simp only [BEq.rfl, if_true, Option.some.injEq, hkey.eq_iff]
      omega
    · have hbeq : (key n == k) = false := by simpa using hk
      rw [hbeq, if_neg Bool.false_ne_true, ih]
      constructor
      · rintro ⟨hlt, rfl⟩
        exact ⟨by omega, rfl⟩
      · rintro ⟨hlt, rfl⟩
        have hne : n ≠ i := fun h => hk (congrArg key h)
        exact ⟨by omega, rfl⟩

theorem size_populate (hkey : Function.Injective key) (n : Nat) : (populate key n).size = n := by
  induction n with
  | zero => rfl
  | succ n ih =>
    have hnew : key n ∉ populate key n := by
      rw [Std.HashMap.mem_iff_isSome_getElem?, Option.isSome_iff_exists]
      rintro ⟨i, hi⟩
      obtain ⟨hlt, heq⟩ := (getElem?_populate hkey).mp hi
      exact absurd (hkey heq) (by omega)
    rw [populate_succ, Std.HashMap.size_insert, if_neg hnew, ih]

end Populate

/-- What the map of each number below `n` to itself holds. -/
def selfBelow (n key : Nat) : Option Nat := if key < n then some key else none

theorem selfBelow_eq_some_iff {n key i : Nat} : selfBelow n key = some i ↔ i < n ∧ key = i := by
  unfold selfBelow
  split
  · simp
    omega
  · simp
    omega

theorem getElem?_populateInt (n key : Nat) : (populateInt n)[key]? = selfBelow n key := by
  apply Option.ext
  intro i
  rw [selfBelow_eq_some_iff]
  exact getElem?_populate Function.injective_id

/-! ### Histories of updates -/

/-- A change of what a map holds under one key. -/
inductive Update (κ : Type) where
  | insert (key : κ) (value : Nat)
  | remove (key : κ)

namespace Update

variable {κ : Type}

def key : Update κ → κ
  | insert key _ => key
  | remove key => key

/-- What an update leaves under its key. -/
def value? : Update κ → Option Nat
  | insert _ value => some value
  | remove _ => none

def apply [BEq κ] [Hashable κ] (map : Std.HashMap κ Nat) : Update κ → Std.HashMap κ Nat
  | insert key value => map.insert key value
  | remove key => map.erase key

end Update

section Updates

variable {κ : Type} [BEq κ]

/-- What is held under a key after updates: what the last update of the key leaves, or else what was
held before. -/
def heldAfter (before : κ → Option Nat) (updates : List (Update κ)) (k : κ) : Option Nat :=
  match updates.reverse.find? (·.key == k) with
  | some update => update.value?
  | none => before k

theorem heldAfter_concat (before : κ → Option Nat) (updates : List (Update κ)) (update : Update κ)
    (k : κ) : heldAfter before (updates ++ [update]) k =
      if update.key == k then update.value? else heldAfter before updates k := by
  simp only [heldAfter, List.reverse_append, List.reverse_singleton, List.singleton_append,
    List.find?_cons]
  cases update.key == k <;> rfl

variable [Hashable κ]

/-- The map after updates, of which the first in the list comes first. -/
def updated (map : Std.HashMap κ Nat) (updates : List (Update κ)) : Std.HashMap κ Nat :=
  updates.foldl Update.apply map

variable [LawfulBEq κ] [LawfulHashable κ]

theorem Update.getElem?_apply (map : Std.HashMap κ Nat) (update : Update κ) (k : κ) :
    (update.apply map)[k]? = if update.key == k then update.value? else map[k]? := by
  cases update with
  | insert key value => exact Std.HashMap.getElem?_insert
  | remove key => exact Std.HashMap.getElem?_erase

theorem getElem?_updated (map : Std.HashMap κ Nat) (updates : List (Update κ)) (k : κ) :
    (updated map updates)[k]? = heldAfter (map[·]?) updates k := by
  induction updates using List.reverseRecOn with
  | nil => rfl
  | append_singleton updates update ih =>
    rw [heldAfter_concat, updated, List.foldl_concat, Update.getElem?_apply, ← updated, ih]

end Updates

/-! ### The first defect -/

/-- The keys from `first` up to `last` that are not mapped to themselves. -/
def defects (held : Nat → Option Nat) (first last : Nat) : Set Nat :=
  {key | key ∈ Finset.Ico first last ∧ held key ≠ some key}

/-- The error tells what is wrong with the least of the keys that are not mapped to themselves. -/
inductive FirstDefect (held : Nat → Option Nat) (first last : Nat) : LookupError → Prop
  | missing {key : Nat} (hleast : IsLeast (defects held first last) key)
      (habsent : held key = none) : FirstDefect held first last (.missing key)
  | mismatch {key found : Nat} (hleast : IsLeast (defects held first last) key)
      (hfound : held key = some found) : FirstDefect held first last (.mismatch key found)

section Defects

variable {held : Nat → Option Nat} {first last : Nat}

theorem mem_defects_iff {key : Nat} :
    key ∈ defects held first last ↔ (first ≤ key ∧ key < last) ∧ held key ≠ some key := by
  rw [← Finset.mem_Ico]
  rfl

theorem defects_eq_empty_iff :
    defects held first last = ∅ ↔ ∀ key ∈ Finset.Ico first last, held key = some key := by
  simp [mem_defects_iff, Set.eq_empty_iff_forall_notMem]

/-- A key that is mapped to itself plays no part in the defects. -/
theorem defects_succ (h : held first = some first) :
    defects held first last = defects held (first + 1) last := by
  ext key
  rw [mem_defects_iff, mem_defects_iff]
  constructor
  · rintro ⟨hmem, hne⟩
    have : first ≠ key := fun heq => hne (heq ▸ h)
    exact ⟨by omega, hne⟩
  · rintro ⟨hmem, hne⟩
    exact ⟨by omega, hne⟩

theorem defects_add_sub :
    defects held first (first + (last - first)) = defects held first last := by
  rw [defects, Ico_add_sub, defects]

theorem FirstDefect.exists_isLeast {e : LookupError} (h : FirstDefect held first last e) :
    ∃ key, IsLeast (defects held first last) key := by
  cases h with
  | missing hleast _ => exact ⟨_, hleast⟩
  | mismatch hleast _ => exact ⟨_, hleast⟩

theorem FirstDefect.of_defects_eq {first' last' : Nat} {e : LookupError}
    (h : FirstDefect held first last e)
    (heq : defects held first last = defects held first' last') :
    FirstDefect held first' last' e := by
  cases h with
  | missing hleast habsent => exact .missing (heq ▸ hleast) habsent
  | mismatch hleast hfound => exact .mismatch (heq ▸ hleast) hfound

theorem defects_eq_empty_or_firstDefect (held : Nat → Option Nat) (first last : Nat) :
    defects held first last = ∅ ∨ ∃ e, FirstDefect held first last e := by
  rcases (defects held first last).eq_empty_or_nonempty with hempty | hnonempty
  · exact Or.inl hempty
  · have hleast := isLeast_csInf hnonempty
    cases hheld : held (sInf (defects held first last)) with
    | none => exact Or.inr ⟨_, .missing hleast hheld⟩
    | some found => exact Or.inr ⟨_, .mismatch hleast hheld⟩

end Defects

theorem checkKeys_of_defects_eq_empty {map : IntMap} {key checked count : Nat}
    (h : defects (map[·]?) key (key + count) = ∅) :
    checkKeys map key checked count = .ok (checked + count) := by
  induction count generalizing key checked with
  | zero => rfl
  | succ count ih =>
    have hkey : map[key]? = some key := defects_eq_empty_iff.mp h key (by simp)
    rw [defects_succ hkey, ← Nat.add_assoc, Nat.add_right_comm] at h
    simp only [checkKeys, hkey, if_true]
    rw [ih h, Nat.add_right_comm, Nat.add_assoc]

theorem checkKeys_of_firstDefect {map : IntMap} {key checked count : Nat} {e : LookupError}
    (h : FirstDefect (map[·]?) key (key + count) e) :
    checkKeys map key checked count = .error e := by
  induction count generalizing key checked with
  | zero =>
    obtain ⟨_, hmem, -⟩ := h.exists_isLeast
    have := (mem_defects_iff.mp hmem).1
    omega
  | succ count ih =>
    by_cases hkey : map[key]? = some key
    · have hrest := h.of_defects_eq (defects_succ hkey)
      rw [← Nat.add_assoc, Nat.add_right_comm] at hrest
      simp only [checkKeys, hkey, if_true]
      exact ih hrest
    · have hself : IsLeast (defects (map[·]?) key (key + (count + 1))) key :=
        ⟨mem_defects_iff.mpr ⟨by omega, hkey⟩, fun _ hk => (mem_defects_iff.mp hk).1.1⟩
      cases h with
      | missing hleast habsent =>
        obtain rfl := hself.unique hleast
        simp only [checkKeys, habsent]
      | @mismatch _ found hleast hfound =>
        obtain rfl := hself.unique hleast
        have hne : found ≠ key := fun heq => hkey (heq ▸ hfound)
        simp only [checkKeys, hfound, hne, if_false]

section LookupInt

variable {map : IntMap} {first last : Nat}

theorem lookupInt_of_defects_eq_empty (h : defects (map[·]?) first last = ∅) :
    lookupInt map first last = .ok (last - first) := by
  rw [← defects_add_sub] at h
  rw [lookupInt, checkKeys_of_defects_eq_empty h, Nat.zero_add]

theorem lookupInt_of_firstDefect {e : LookupError} (h : FirstDefect (map[·]?) first last e) :
    lookupInt map first last = .error e :=
  checkKeys_of_firstDefect (h.of_defects_eq defects_add_sub.symm)

theorem lookupInt_eq_ok_iff {checked : Nat} :
    lookupInt map first last = .ok checked ↔
      defects (map[·]?) first last = ∅ ∧ checked = last - first := by
  constructor
  · intro hok
    rcases defects_eq_empty_or_firstDefect (map[·]?) first last with hempty | ⟨e, he⟩
    · rw [lookupInt_of_defects_eq_empty hempty] at hok
      exact ⟨hempty, (Except.ok.inj hok).symm⟩
    · rw [lookupInt_of_firstDefect he] at hok
      cases hok
  · rintro ⟨hempty, rfl⟩
    exact lookupInt_of_defects_eq_empty hempty

theorem lookupInt_eq_error_iff {e : LookupError} :
    lookupInt map first last = .error e ↔ FirstDefect (map[·]?) first last e := by
  constructor
  · intro herror
    rcases defects_eq_empty_or_firstDefect (map[·]?) first last with hempty | ⟨e', he'⟩
    · rw [lookupInt_of_defects_eq_empty hempty] at herror
      cases herror
    · rw [lookupInt_of_firstDefect he'] at herror
      cases herror
      exact he'
  · exact lookupInt_of_firstDefect

example : lookupInt ((populateInt 5).insert 3 7) 1 9 = .error (.mismatch 3 7) := by cbv

/-- Without updates the first key that was not populated is missing. -/
theorem firstDefect_selfBelow {n : Nat} (hlast : first < last ∧ n < last) :
    FirstDefect (selfBelow n) first last (.missing (max first n)) := by
  have habsent : selfBelow n (max first n) = none := if_neg (by omega)
  refine .missing ⟨mem_defects_iff.mpr ⟨by omega, ?_⟩, fun key hkey => ?_⟩ habsent
  · rw [habsent]
    exact (Option.some_ne_none _).symm
  · obtain ⟨hmem, hne⟩ := mem_defects_iff.mp hkey
    by_contra hlt
    exact hne (if_pos (by omega))

theorem lookupInt_populateInt (n first last : Nat) :
    lookupInt (populateInt n) first last =
      if last ≤ first ∨ last ≤ n then .ok (last - first) else .error (.missing (max first n)) := by
  have hcontents : ((populateInt n)[·]?) = selfBelow n := funext (getElem?_populateInt n)
  split
  · apply lookupInt_of_defects_eq_empty
    rw [hcontents, defects_eq_empty_iff]
    intro key hkey
    rw [Finset.mem_Ico] at hkey
    exact if_pos (by omega)
  · apply lookupInt_of_firstDefect
    rw [hcontents]
    exact firstDefect_selfBelow (by omega)

end LookupInt

/-- A checked lookup tells of the first defect.  Whatever updates a populated map went through, the
lookup answers with the number of keys if each of them is mapped to itself, and otherwise with what
is wrong with the least of those that are not.  Without updates the least one is the first that was
not populated. -/
theorem lookupInt_tells_first_defect (n first last : Nat) (updates : List (Update Nat)) :
    let map := updated (populateInt n) updates
    let held := heldAfter (selfBelow n) updates
    (∀ key, map[key]? = held key) ∧
      (∀ checked, lookupInt map first last = .ok checked ↔
        (∀ key ∈ Finset.Ico first last, held key = some key) ∧
          checked = (Finset.Ico first last).card) ∧
      (∀ e, lookupInt map first last = .error e ↔ FirstDefect held first last e) ∧
      lookupInt (populateInt n) first last =
        if last ≤ first ∨ last ≤ n then .ok (last - first)
        else .error (.missing (max first n)) := by
  intro map held
  have hheld : ∀ key, map[key]? = held key := by
    intro key
    have hpopulated : ((populateInt n)[·]?) = selfBelow n := funext (getElem?_populateInt n)
    rw [getElem?_updated, hpopulated]
  have hcontents : (map[·]?) = held := funext hheld
  refine ⟨hheld, fun checked => ?_, fun e => ?_, lookupInt_populateInt n first last⟩
  · rw [lookupInt_eq_ok_iff, hcontents, defects_eq_empty_iff, Nat.card_Ico]
  · rw [lookupInt_eq_error_iff, hcontents]

/-! ### Hits and misses -/

section LookupStr

variable {format : Nat → String}

section Format

variable (hformat : ∀ i, Text.IsDecimal (format i) i)
include hformat

theorem getElem?_populateStr {n i : Nat} {key : String} :
    (populateStr n format)[key]? = some i ↔ i < n ∧ Text.IsDecimal key i := by
  rw [populateStr, getElem?_populate (Text.injective_of_isDecimal hformat)]
  constructor
  · rintro ⟨hlt, rfl⟩
    exact ⟨hlt, hformat i⟩
  · rintro ⟨hlt, hkey⟩
    exact ⟨hlt, hkey.text_unique (hformat i)⟩

theorem mem_populateStr {n i : Nat} : format i ∈ populateStr n format ↔ i ∈ Finset.range n := by
  rw [Std.HashMap.mem_iff_isSome_getElem?, Option.isSome_iff_exists, Finset.mem_range]
  constructor
  · rintro ⟨j, hj⟩
    obtain ⟨hlt, hkey⟩ := (getElem?_populateStr hformat).mp hj
    rwa [(hformat i).number_unique hkey]
  · intro hlt
    exact ⟨i, (getElem?_populateStr hformat).mpr ⟨hlt, hformat i⟩⟩

end Format

/-- The summary of the lookups of these numbers. -/
def summaryOf (format : Nat → String) (map : StrMap) (numbers : Finset Nat) : LookupSummary where
  hits := (numbers.filter (format · ∈ map)).card
  misses := (numbers.filter (format · ∉ map)).card

theorem hits_add_misses (map : StrMap) (numbers : Finset Nat) :
    (summaryOf format map numbers).hits + (summaryOf format map numbers).misses = numbers.card :=
  Finset.card_filter_add_card_filter_not (format · ∈ map)

theorem countKeys_eq (map : StrMap) (n count : Nat) (summary : LookupSummary) :
    countKeys format map n summary count =
      { hits := summary.hits + (summaryOf format map (Finset.Ico n (n + count))).hits
        misses := summary.misses + (summaryOf format map (Finset.Ico n (n + count))).misses } := by
  induction count generalizing n summary with
  | zero => simp [countKeys, summaryOf]
  | succ count ih =>
    rw [countKeys, ih]
    by_cases hmem : format n ∈ map
    · simp only [summaryOf, card_filter_Ico_succ, Std.HashMap.contains_iff_mem, hmem, if_true,
        not_true, if_false, Nat.zero_add, Nat.add_assoc]
    · simp only [summaryOf, card_filter_Ico_succ, Std.HashMap.contains_iff_mem, hmem, if_false,
        not_false_eq_true, if_true, Nat.zero_add, Nat.add_assoc]

theorem lookupStr_eq (map : StrMap) (first last : Nat) :
    lookupStr map first last format = summaryOf format map (Finset.Ico first last) := by
  rw [lookupStr, countKeys_eq, Ico_add_sub]
  simp [summaryOf]

end LookupStr

/-- A lookup of decimal forms counts them exactly.  A populated map has one entry for each number
below `n`, under its decimal form.  Whatever updates the map went through, the hits are the numbers
whose decimal form is a key and the misses the others.  Without updates the hits are the numbers
that were populated. -/
theorem lookupStr_counts_decimal_keys {format : Nat → String}
    (hformat : ∀ i, Text.IsDecimal (format i) i) (n : Nat) :
    (populateStr n format).size = n ∧
      (∀ key i, (populateStr n format)[key]? = some i ↔ i < n ∧ Text.IsDecimal key i) ∧
      (∀ (updates : List (Update String)) (first last : Nat),
        let map := updated (populateStr n format) updates
        let held := heldAfter ((populateStr n format)[·]?) updates
        let summary := lookupStr map first last format
        (∀ key, map[key]? = held key) ∧
          summary.hits =
            ((Finset.Ico first last).filter fun i => (held (format i)).isSome).card ∧
          summary.misses =
            ((Finset.Ico first last).filter fun i => ¬(held (format i)).isSome).card ∧
          summary.hits + summary.misses = (Finset.Ico first last).card) ∧
      ∀ first last, (lookupStr (populateStr n format) first last format).hits =
        (Finset.Ico first last ∩ Finset.range n).card := by
  refine ⟨size_populate (Text.injective_of_isDecimal hformat) n,
    fun _ _ => getElem?_populateStr hformat, fun updates first last => ?_, fun first last => ?_⟩
  · intro map held summary
    have hheld : ∀ key, map[key]? = held key := getElem?_updated _ updates
    have hkey : ∀ i, (held (format i)).isSome ↔ format i ∈ map := by
      intro i
      rw [← hheld, Std.HashMap.mem_iff_isSome_getElem?]
    have hsummary : summary = summaryOf format map (Finset.Ico first last) :=
      lookupStr_eq map first last
    rw [hsummary]
    refine ⟨hheld, ?_, ?_, hits_add_misses map _⟩
    · simp only [summaryOf, hkey]
    · simp only [summaryOf, hkey]
  · rw [lookupStr_eq]
    simp only [summaryOf, mem_populateStr hformat, Finset.filter_mem_eq_inter]

/-- A key that only looks like a decimal form is not among those of a populated map. -/
theorem lookupStr_counts_decimal_keys_five :
    (∀ i, Text.IsDecimal (toString i) i) ∧ (populateStr 5).size = 5 ∧
      (populateStr 5)["07"]? = none ∧ (lookupStr (populateStr 5) 2 9).hits = 3 ∧
      let summary := lookupStr (updated (populateStr 5) [.insert "07" 7, .remove "4"]) 2 9
      summary.hits + summary.misses = 7 := by
  obtain ⟨hsize, hentry, hlookup, hfresh⟩ :=
    lookupStr_counts_decimal_keys Text.isDecimal_toString 5
  have hlookalike : ∀ i, ¬Text.IsDecimal "07" i := fun _ h => absurd (h.2 rfl) (by decide)
  refine ⟨Text.isDecimal_toString, hsize, ?_, hfresh 2 9, (hlookup _ 2 9).2.2.2⟩
  exact Option.eq_none_iff_forall_ne_some.mpr fun i hi => hlookalike i ((hentry _ i).mp hi).2

end Wordcode.Workload
