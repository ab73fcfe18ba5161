import Wordcode.Proofs.Loading
import Wordcode.Proofs.Loops

/-! The program with the map.  Its first loop fills the map with the integers below its first
argument, each under itself, and its second loop looks up those below the second, so what it comes
to is decided by the first integer that is missing. -/

namespace Wordcode

open Machine

/-! ### The code -/

def getterCode : Code where
  name := "getter"
  argcount := 2
  varnames := #["n", "probe", "a", "i", "b"]
  names := #["range", "len"]
  consts := #[.str "Value mismatch"]
  bytes := #[11, 0, 4, 2, 5, 0, 3, 0, 18, 1, 16, 0, 17, 13, 4, 3, 3, 3, 3, 2, 3, 3, 10, 0, 15, 6,
    5, 0, 3, 1, 18, 1, 16, 0, 17, 28, 4, 3, 3, 2, 3, 3, 9, 0, 4, 4, 3, 4, 3, 3, 12, 3, 13, 17,
    20, 0, 5, 1, 3, 2, 18, 1, 19, 0]
  lines := [⟨0, 2⟩, ⟨4, 3⟩, ⟨16, 4⟩, ⟨26, 5⟩, ⟨38, 6⟩, ⟨46, 7⟩, ⟨54, 8⟩, ⟨56, 9⟩]

set_option maxRecDepth 4000 in
theorem code_hashmapGetter : Program.hashmapGetter.code = .ok getterCode := by
  have hassemble : assemble "getter" Program.hashmapGetterCommands =
      .ok (Draft.toCode _ #[6, 13, 17, 28] _) :=
    assemble_of_small rfl (by with_unfolding_all rfl) (by with_unfolding_all rfl)
      (by with_unfolding_all rfl) (by decide +kernel)
  exact hassemble.trans (by with_unfolding_all rfl)

namespace Getter

/-! ### The map -/

/-- The map after `i` rounds of the first loop. -/
def filled : Nat → Dict
  | 0 => ∅
  | i + 1 => (filled i).insert (.int (Int64.ofNat i)) (.int (Int64.ofNat i))

theorem key_beq {i j : Nat} (hi : i < 2 ^ 63) (hj : j < 2 ^ 63) :
    (MapKey.int (Int64.ofNat i) == MapKey.int (Int64.ofNat j)) = decide (i = j) := by
  have hto : (Int64.ofNat i).toInt = i := Int64.toInt_ofNat_of_lt hi
  have hto' : (Int64.ofNat j).toInt = j := Int64.toInt_ofNat_of_lt hj
  have hiff : Int64.ofNat i = Int64.ofNat j ↔ i = j := by
    rw [← Int64.toInt_inj, hto, hto', Int.natCast_inj]
  rw [Bool.eq_iff_iff]
  simp [hiff]

theorem getElem?_filled {i j : Nat} (hi : i ≤ 2 ^ 63) (hj : j < 2 ^ 63) :
    (filled i)[MapKey.int (Int64.ofNat j)]? =
      if j < i then some (.int (Int64.ofNat j)) else none := by
  induction i with
  | zero => exact Std.HashMap.getElem?_empty
  | succ i ih =>
    rw [filled, Std.HashMap.getElem?_insert, key_beq hi hj, ih (Nat.le_of_lt hi)]
    by_cases h : i = j
    · subst h
      simp
    · rw [decide_eq_false h, if_neg Bool.false_ne_true]
      exact if_congr (by omega) rfl rfl

theorem size_filled {i : Nat} (hi : i ≤ 2 ^ 63) : (filled i).size = i := by
  induction i with
  | zero => exact Std.HashMap.size_empty
  | succ i ih =>
    have hnew : MapKey.int (Int64.ofNat i) ∉ filled i := by
      rw [Std.HashMap.mem_iff_isSome_getElem?, getElem?_filled (Nat.le_of_lt hi) hi,
        if_neg (Nat.lt_irrefl i)]
      exact Bool.false_ne_true
    rw [filled, Std.HashMap.size_insert, if_neg hnew, ih (Nat.le_of_lt hi)]

/-! ### The route -/

/-- A frame of the function, by its arguments and its other locals. -/
def frame (n probe : Int64) (a i b : Option Value) (pc : Nat) (stack : List Value)
    (lasti : Nat) : Frame :=
  getterCode.frame pc #[some (.int n), some (.int probe), a, i, b] stack lasti

section Route

variable {vm : Vm} {ranges : Array Range} {maps : Array Dict} {n probe : Int64} {i : Nat}
  {callers : List Frame}

theorem lookup_range (hrange : vm.global? "range" = none) :
    (vm.holding ranges maps).lookup "range" = .ok (.builtin .range) := by
  have hglobal : (vm.holding ranges maps).global? "range" = none := hrange
  rw [Vm.lookup, hglobal]
  rfl

/-- The map is made, and the iterator of the first loop. -/
theorem leads_filling (hrange : vm.global? "range" = none) :
    Leads ⟨vm.holding ranges maps, (), .running (frame n probe none none none 0 [] 0) callers⟩
      ⟨vm.holding (ranges.push ⟨Int64.ofNat 0, n⟩) (maps.push (filled 0)), (),
        .running (frame n probe (some (.map ⟨maps.size⟩)) none none 12 [.range ⟨ranges.size⟩] 10)
          callers⟩ := by
  have hstore : getterCode.Has 2 .storeFast 2 := ⟨rfl, rfl⟩
  have hmap : Leads
      ⟨vm.holding ranges maps, (), .running (frame n probe none none none 0 [] 0) callers⟩
      ⟨vm.holding ranges (maps.push (filled 0)), (),
        .running (frame n probe (some (.map ⟨maps.size⟩)) none none 4 [] 2) callers⟩ :=
    ((goes_buildMap ⟨rfl, rfl⟩).trans (goes_storeFast hstore (by simp))).leads
  refine hmap.trans (((goes_loadGlobal ⟨rfl, rfl⟩ rfl (lookup_range hrange)).trans
    ((goes_loadFast ⟨rfl, rfl⟩ rfl).trans ((goes_callRange ⟨rfl, rfl⟩).trans
      (goes_getIter ⟨rfl, rfl⟩)))).leads)

/-- A round of the first loop. -/
theorem goes_fill (hi : i < n.toInt.toNat)
    (x : Option Value × Nat) :
    ∃ y : Option Value × Nat,
      Goes ⟨vm.holding (ranges.push ⟨Int64.ofNat i, n⟩) (maps.push (filled i)), (),
        .running (frame n probe (some (.map ⟨maps.size⟩)) x.1 none 12 [.range ⟨ranges.size⟩] x.2)
          callers⟩
      [.forIter, .storeFast, .loadFast, .loadFast, .loadFast, .storeSubscr, .jumpAbsolute]
      ⟨vm.holding (ranges.push ⟨Int64.ofNat (i + 1), n⟩) (maps.push (filled (i + 1))), (),
        .running (frame n probe (some (.map ⟨maps.size⟩)) y.1 none 12 [.range ⟨ranges.size⟩] y.2)
          callers⟩ := by
  have hstore : getterCode.Has 14 .storeFast 3 := ⟨rfl, rfl⟩
  have hback : getterCode.Has 24 .jumpAbsolute 6 := ⟨rfl, rfl⟩
  have hgoes : Goes ⟨vm.holding (ranges.push ⟨Int64.ofNat i, n⟩) (maps.push (filled i)), (),
      .running (frame n probe (some (.map ⟨maps.size⟩)) x.1 none 12 [.range ⟨ranges.size⟩] x.2)
        callers⟩ _ _ :=
    (goes_round ⟨rfl, rfl⟩ hi).trans ((goes_storeFast hstore (by simp)).trans
      ((goes_loadFast ⟨rfl, rfl⟩ rfl).trans ((goes_loadFast ⟨rfl, rfl⟩ rfl).trans
        ((goes_loadFast ⟨rfl, rfl⟩ rfl).trans ((goes_storeSubscr ⟨rfl, rfl⟩ rfl).trans
          (goes_jumpAbsolute hback))))))
  refine ⟨(some (.int (Int64.ofNat i)), 24), ?_⟩
  simp only [Vm.insert, Vm.holding, Store.insert_last] at hgoes
  exact hgoes

/-- The first loop is left, and the iterator of the second is made. -/
theorem leads_probing (hrange : vm.global? "range" = none) {a x : Option Value} {lasti : Nat} :
    Leads ⟨vm.holding (ranges.push ⟨Int64.ofNat n.toInt.toNat, n⟩) maps, (),
        .running (frame n probe a x none 12 [.range ⟨ranges.size⟩] lasti) callers⟩
      ⟨vm.holding ((ranges.push ⟨Int64.ofNat n.toInt.toNat, n⟩).push ⟨Int64.ofNat 0, probe⟩)
          maps, (),
        .running (frame n probe a x none 34
          [.range ⟨(ranges.push ⟨Int64.ofNat n.toInt.toNat, n⟩).size⟩] 32) callers⟩ := by
  have hhead : getterCode.Has 12 .forIter 13 := ⟨rfl, rfl⟩
  exact ((goes_exit hhead).trans ((goes_loadGlobal ⟨rfl, rfl⟩ rfl (lookup_range hrange)).trans
    ((goes_loadFast ⟨rfl, rfl⟩ rfl).trans ((goes_callRange ⟨rfl, rfl⟩).trans
      (goes_getIter ⟨rfl, rfl⟩))))).leads

/-- A round of the second loop, for an integer that is in the map. -/
theorem goes_probe {d : Dict}
    (hd : d[MapKey.int (Int64.ofNat i)]? = some (.int (Int64.ofNat i)))
    (hi : i < probe.toInt.toNat) (x : Option Value × Option Value × Nat) :
    ∃ y : Option Value × Option Value × Nat,
      Goes ⟨vm.holding (ranges.push ⟨Int64.ofNat i, probe⟩) (maps.push d), (),
        .running (frame n probe (some (.map ⟨maps.size⟩)) x.1 x.2.1 34 [.range ⟨ranges.size⟩] x.2.2)
          callers⟩
      [.forIter, .storeFast, .loadFast, .loadFast, .binarySubscr, .storeFast, .loadFast, .loadFast,
        .compareOp, .popJumpIfFalse]
      ⟨vm.holding (ranges.push ⟨Int64.ofNat (i + 1), probe⟩) (maps.push d), (),
        .running (frame n probe (some (.map ⟨maps.size⟩)) y.1 y.2.1 34 [.range ⟨ranges.size⟩] y.2.2)
          callers⟩ := by
  have hstore : getterCode.Has 36 .storeFast 3 := ⟨rfl, rfl⟩
  have hstore' : getterCode.Has 44 .storeFast 4 := ⟨rfl, rfl⟩
  have hback : getterCode.Has 52 .popJumpIfFalse 17 := ⟨rfl, rfl⟩
  have hsubscript : Value.subscript
      (vm.holding (ranges.push ⟨Int64.ofNat (i + 1), probe⟩) (maps.push d)).store
      (.map ⟨maps.size⟩) (.int (Int64.ofNat i)) = .ok (.int (Int64.ofNat i)) := by
    simp only [Value.subscript, Value.entry, Value.key?, Vm.holding, Store.map_last, hd]
  have hcompare : Value.compare .ne (.int (Int64.ofNat i)) (.int (Int64.ofNat i)) =
      .ok false := by
    simp [Value.compare]
  refine ⟨(some (.int (Int64.ofNat i)), some (.int (Int64.ofNat i)), 52), ?_⟩
  exact (goes_round ⟨rfl, rfl⟩ hi).trans ((goes_storeFast hstore (by simp)).trans
    ((goes_loadFast ⟨rfl, rfl⟩ rfl).trans ((goes_loadFast ⟨rfl, rfl⟩ rfl).trans
      ((goes_binarySubscr ⟨rfl, rfl⟩ hsubscript).trans ((goes_storeFast hstore' (by simp)).trans
        ((goes_loadFast ⟨rfl, rfl⟩ rfl).trans ((goes_loadFast ⟨rfl, rfl⟩ rfl).trans
          ((goes_compareOp ⟨rfl, rfl⟩ rfl hcompare).trans (goes_popJumpIfFalse hback)))))))))

/-- The second loop is left, and the length of the map is returned. -/
theorem leads_length {d : Dict} (hlen : vm.global? "len" = none) {x b : Option Value}
    {lasti : Nat} :
    Leads ⟨vm.holding (ranges.push ⟨Int64.ofNat probe.toInt.toNat, probe⟩) (maps.push d), (),
        .running (frame n probe (some (.map ⟨maps.size⟩)) x b 34 [.range ⟨ranges.size⟩] lasti)
          callers⟩
      ⟨(vm.holding (ranges.push ⟨Int64.ofNat probe.toInt.toNat, probe⟩) (maps.push d)).popFrame,
        (), .giving (.ok (.int (Int64.ofNat d.size))) callers⟩ := by
  have hhead : getterCode.Has 34 .forIter 28 := ⟨rfl, rfl⟩
  have hlookup : ∀ ranges maps, (vm.holding ranges maps).lookup "len" = .ok (.builtin .len) := by
    intro ranges maps
    have hglobal : (vm.holding ranges maps).global? "len" = none := hlen
    rw [Vm.lookup, hglobal]
    rfl
  have hcall : getterCode.Has 60 .callFunction 1 := ⟨rfl, rfl⟩
  have hgoes : Goes ⟨vm.holding (ranges.push ⟨Int64.ofNat probe.toInt.toNat, probe⟩)
        (maps.push d), (),
      .running (frame n probe (some (.map ⟨maps.size⟩)) x b 34 [.range ⟨ranges.size⟩] lasti)
        callers⟩ _ _ :=
    (goes_exit hhead).trans ((goes_loadGlobal ⟨rfl, rfl⟩ rfl (hlookup _ _)).trans
      ((goes_loadFast ⟨rfl, rfl⟩ rfl).trans ((goes_callFunction hcall rfl).trans
        (goes_given.trans (goes_returnValue ⟨rfl, rfl⟩)))))
  simp only [Vm.holding, Store.map_last] at hgoes
  exact hgoes.leads

/-- The round of the second loop that finds an integer missing. -/
theorem leads_missing {d : Dict} (hd : d[MapKey.int (Int64.ofNat i)]? = none)
    (hi : i < probe.toInt.toNat) {x b : Option Value} {lasti : Nat} :
    Leads ⟨vm.holding (ranges.push ⟨Int64.ofNat i, probe⟩) (maps.push d), (),
        .running (frame n probe (some (.map ⟨maps.size⟩)) x b 34 [.range ⟨ranges.size⟩] lasti)
          callers⟩
      ⟨(vm.holding (ranges.push ⟨Int64.ofNat (i + 1), probe⟩) (maps.push d)).popFrame, (),
        .giving (.error (.missingKey (.int (Int64.ofNat i)))) callers⟩ := by
  have hstore : getterCode.Has 36 .storeFast 3 := ⟨rfl, rfl⟩
  have hsubscript : Value.subscript
      (vm.holding (ranges.push ⟨Int64.ofNat (i + 1), probe⟩) (maps.push d)).store
      (.map ⟨maps.size⟩) (.int (Int64.ofNat i)) =
        .error (.missingKey (.int (Int64.ofNat i))) := by
    simp only [Value.subscript, Value.entry, Value.key?, Vm.holding, Store.map_last, hd]
  exact ((goes_round ⟨rfl, rfl⟩ hi).trans ((goes_storeFast hstore (by simp)).trans
    ((goes_loadFast ⟨rfl, rfl⟩ rfl).trans ((goes_loadFast ⟨rfl, rfl⟩ rfl).trans
      (goes_binarySubscr ⟨rfl, rfl⟩ hsubscript))))).leads

/-- What the function is to come to: the length of the map if no integer is missing in it, and else
the fault of the first one that is. -/
structure Expected (n probe : Int64) (result : Except Fault Value) : Prop where
  value : max probe.toInt 0 ≤ max n.toInt 0 →
    ∃ v : Int64, result = .ok (.int v) ∧ v.toInt = max n.toInt 0
  missing : max n.toInt 0 < max probe.toInt 0 →
    ∃ e : Fault, result = .error e ∧ e.kind = .key ∧ e.message = toString (max n.toInt 0)

theorem leads_result (vm : Vm) (callers : List Frame) (hrange : vm.global? "range" = none)
    (hlen : vm.global? "len" = none) (n probe : Int64) :
    ∃ ranges maps result,
      Leads ⟨vm, (), .running (frame n probe none none none 0 [] 0) callers⟩
        ⟨(vm.holding ranges maps).popFrame, (), .giving result callers⟩ ∧
      Expected n probe result := by
  have hmax := n.toInt_lt
  have hm : (max n.toInt 0) = n.toInt.toNat := by omega
  have hp : (max probe.toInt 0) = probe.toInt.toNat := by omega
  have hlast : (Int64.ofNat n.toInt.toNat).toInt = n.toInt.toNat :=
    Int64.toInt_ofNat_of_lt (by omega)
  have hstart : Leads ⟨vm.holding vm.store.ranges vm.store.maps, (),
      .running (frame n probe none none none 0 [] 0) callers⟩ _ := leads_filling hrange
  obtain ⟨x, hfill⟩ := Goes.rounds (fun i hi x => goes_fill hi x) (none, 10)
  have hprobing := hstart.trans (hfill.leads.trans (leads_probing hrange))
  have hfound : ∀ i < n.toInt.toNat, (filled n.toInt.toNat)[MapKey.int (Int64.ofNat i)]? =
      some (.int (Int64.ofNat i)) := by
    intro i hi
    rw [getElem?_filled (by omega) (by omega), if_pos hi]
  rcases Nat.lt_or_ge n.toInt.toNat probe.toInt.toNat with hlt | hge
  · have hnone : (filled n.toInt.toNat)[MapKey.int (Int64.ofNat n.toInt.toNat)]? = none := by
      rw [getElem?_filled (by omega) (by omega), if_neg (Nat.lt_irrefl _)]
    obtain ⟨y, hprobe⟩ := Goes.rounds
      (fun i hi y => goes_probe (hfound i hi) (Nat.lt_trans hi hlt) y) (x.1, none, 32)
    refine ⟨_, _, _, hprobing.trans (hprobe.leads.trans (leads_missing hnone hlt)), ?_, ?_⟩
    · omega
    · intro _
      refine ⟨_, rfl, rfl, ?_⟩
      rw [hm, ← hlast]
      rfl
  · obtain ⟨y, hprobe⟩ := Goes.rounds
      (fun i hi y => goes_probe (hfound i (Nat.lt_of_lt_of_le hi hge)) hi y) (x.1, none, 32)
    refine ⟨_, _, _, hprobing.trans (hprobe.leads.trans (leads_length hlen)), ?_, ?_⟩
    · intro _
      exact ⟨_, rfl, by rw [size_filled (by omega), hlast, hm]⟩
    · omega

end Route
end Getter

open Getter

/-- The program with the map is right for every pair of sizes.  Loaded on a machine at rest and
called, it ends, with the length of the map or with the fault that names the first integer that is
not in it, and it changes no global and prints nothing. -/
theorem getter_finds_first_missing (vm : Vm) (hdepth : vm.depth = 0) (hlimit : 1 ≤ vm.limit)
    (hrange : vm.global? "range" = none) (hlen : vm.global? "len" = none) (n probe : Int64) :
    ∃ fuel getter vm', vm.loadProgram .hashmapGetter fuel = some (.ok getter, vm') ∧
      ∀ request ∈ [Request.call getter [.int n, .int probe],
          .callGlobal "getter" [.int n, .int probe]],
        ∃ fuel r result, vm'.execute request fuel = some r ∧ r.ending = .finished result ∧
          Expected n probe result ∧ r.vm.globals = vm'.globals ∧ r.vm.console = vm'.console := by
  obtain ⟨fuel, id, vm', hload, hloaded⟩ := vm.exists_loadProgram code_hashmapGetter (by omega)
  have hroom : vm'.depth < vm'.limit := by
    rw [hloaded.depth, hloaded.limit]
    omega
  have hrange' : vm'.global? "range" = none := by
    rw [hloaded.global?_of_ne (by decide), hrange]
  have hlen' : vm'.global? "len" = none := by
    rw [hloaded.global?_of_ne (by decide), hlen]
  obtain ⟨ranges, maps, result, ⟨ops, hgoes⟩, hexpected⟩ :=
    leads_result (vm'.pushFrame "getter") [] hrange' hlen' n probe
  refine ⟨fuel, .function id, vm', hload, fun request hrequest => ?_⟩
  have hstart : vm'.start none () request =
      ⟨vm'.pushFrame "getter", (), .running (frame n probe none none none 0 [] 0) []⟩ := by
    rw [hloaded.start_eq [.int n, .int probe] request hrequest]
    exact enter_eq_running rfl hroom
  rw [← hstart] at hgoes
  obtain ⟨fuel, r, hr, hending, hvm, -⟩ := Vm.execute_of_goes hgoes
  exact ⟨fuel, r, result, hr, hending, hexpected, (congrArg Vm.globals hvm :),
    (congrArg Vm.console hvm :)⟩

/-- One lookup past the end of a map of three entries, on a machine with room for one frame. -/
theorem getter_finds_first_missing_three :
    ∃ fuel getter vm' r e,
      ({ limit := 1 } : Vm).loadProgram .hashmapGetter fuel = some (.ok getter, vm') ∧
      vm'.execute (.call getter [.int 3, .int 4]) fuel = some r ∧
      r.ending = .finished (.error e) ∧ e.kind = .key ∧ e.message = "3" := by
  obtain ⟨n, getter, vm', hload, hcalls⟩ :=
    getter_finds_first_missing { limit := 1 } rfl (by decide) Std.HashMap.getElem?_empty
      Std.HashMap.getElem?_empty 3 4
  obtain ⟨k, r, result, hr, hending, hexpected, -⟩ := hcalls _ (List.mem_cons_self ..)
  obtain ⟨e, rfl, hkind, hmessage⟩ := hexpected.missing (by decide)
  exact ⟨max n k, getter, vm', r, e, Vm.loadProgram_of_le hload (Nat.le_max_left n k),
    Vm.execute_of_le hr (Nat.le_max_right n k), hending, hkind, hmessage⟩

end Wordcode
