import Wordcode.Proofs.Provenance
import Wordcode.Proofs.Reachable

/-! Maps as shared dictionaries.  A machine never refers to a map that is not in its store, so a map
that is made is a new one; and only a store to a map changes it, in the one entry that it writes.
So an entry of a map is what was written to it last, through whatever reference to the map. -/

namespace Wordcode

open Trace

/-! ### Instructions -/

/-- The entry that an instruction writes, with the value that it writes. -/
def writes? (op : Opcode) (f : Frame) : Option ((MapId × MapKey) × Value) :=
  match op, f.stack with
  | .storeSubscr, key :: .map id :: v :: _ => key.key?.map fun k => ((id, k), v)
  | _, _ => none

theorem store_execute_of_writes? {op : Opcode} {f : Frame} {id : MapId} {k : MapKey} {v : Value}
    (h : writes? op f = some ((id, k), v)) (arg : UInt32) (vm : Vm) :
    (execute op arg vm f).vm.store = vm.store.insert id k v := by
  unfold writes? at h
  split at h
  · rename_i key id' w rest hstack
    obtain ⟨k', hk, heq⟩ := Option.map_eq_some_iff.mp h
    cases heq
    simp only [execute, hstack, Value.entry, hk]
    rfl
  · cases h

/-- An instruction that makes no map and writes no entry leaves all maps alone. -/
theorem maps_execute_of_none {op : Opcode} {f : Frame} (hbuild : op ≠ .buildMap)
    (hwrites : writes? op f = none) (arg : UInt32) (vm : Vm) :
    (execute op arg vm f).vm.store.maps = vm.store.maps := by
  have hexecution := execution_execute op arg vm f
  generalize execute op arg vm f = e at hexecution ⊢
  cases hexecution with
  | inserted hop hstack hkey =>
    subst hop
    simp [writes?, hstack, hkey] at hwrites
  | added hop => exact absurd hop hbuild
  | _ => rfl

/-! ### References -/

/-- The frames that still execute something. -/
def Phase.live : Phase → List Frame
  | running f callers => f :: callers
  | giving _ frames => frames
  | unwinding _ => []

/-- The value is a global, an entry of a map, or a constant of a function. -/
inductive Vm.Mentions (vm : Vm) : Value → Prop
  | global {name : String} {v : Value} : vm.globals[name]? = some v → Mentions vm v
  | entry {id : MapId} {k : MapKey} {v : Value} : (vm.store.map id)[k]? = some v → Mentions vm v
  | const {id : FunctionId} {v : Value} : v ∈ (vm.store.code id).consts → Mentions vm v

/-- The value stands somewhere in the machine: in its virtual machine, among the operands, the
locals or the constants of a frame, or as the result that a frame is given. -/
inductive Machine.Mentions {σ : Type} (m : Machine σ) : Value → Prop
  | vm {v : Value} : m.vm.Mentions v → Mentions m v
  | operand {f : Frame} {v : Value} : f ∈ m.phase.live → v ∈ f.stack → Mentions m v
  | slot {f : Frame} {v : Value} : f ∈ m.phase.live → some v ∈ f.locals → Mentions m v
  | const {f : Frame} {v : Value} : f ∈ m.phase.live → v ∈ f.code.consts → Mentions m v
  | result {v : Value} {frames : List Frame} : m.phase = .giving (.ok v) frames → Mentions m v

/-- All references to maps are to maps of the store. -/
def Vm.Sound (vm : Vm) : Prop := ∀ id, vm.Mentions (.map id) → id.index < vm.store.maps.size

def Machine.Sound {σ : Type} (m : Machine σ) : Prop :=
  ∀ id, m.Mentions (.map id) → id.index < m.vm.store.maps.size

/-- The value is no reference to a map but one to one of the first `n` maps. -/
def Value.Below (n : Nat) (v : Value) : Prop := ∀ id, v = .map id → id.index < n

/-- The values below `n`, and the code whose constants are below `n`. -/
def Realm.below (n : Nat) : Realm where
  values := Value.Below n
  codes code := ∀ v ∈ code.consts, v.Below n
  plain := by
    rintro _ hplain id rfl
    exact hplain.elim
  consts _ h := h

section Sound

variable {σ : Type} {hook : Option (Tracer σ)} {n : Nat}

theorem Vm.Sound.keepsTo {vm : Vm} (h : vm.Sound) (hle : vm.store.maps.size ≤ n) :
    vm.KeepsTo (.below n) := by
  have hbelow : ∀ {v : Value}, vm.Mentions v → v.Below n := by
    rintro v hv id rfl
    exact Nat.lt_of_lt_of_le (h id hv) hle
  exact ⟨⟨fun _ _ hv => hbelow (.global hv), fun _ _ _ _ hv => hbelow (.entry hv)⟩,
    fun _ _ _ hv => hbelow (.const hv)⟩

theorem Vm.KeepsTo.sound {vm : Vm} (h : vm.KeepsTo (.below vm.store.maps.size)) : vm.Sound := by
  intro id hid
  cases hid with
  | global hv => exact h.holdsOnly.globals _ _ hv id rfl
  | @entry other k _ hv =>
    have hother : other.index < vm.store.maps.size := by
      by_contra hge
      rw [Store.map_of_size_le (Nat.le_of_not_lt hge), Std.HashMap.getElem?_empty] at hv
      cases hv
    refine h.holdsOnly.entries other ?_ k _ hv id rfl
    rintro _ ⟨⟩
    exact hother
  | @const function _ hv =>
    refine h.functions function ?_ _ hv id rfl
    rintro _ ⟨⟩

theorem Phase.keepsTo_iff {R : Realm} {phase : Phase} :
    phase.KeepsTo R ↔ (∀ f ∈ phase.live, f.KeepsTo R) ∧
      ∀ v frames, phase = .giving (.ok v) frames → R.values v := by
  cases phase with
  | running f callers => exact ⟨fun h => ⟨h, fun _ _ h => by cases h⟩, And.left⟩
  | giving result frames =>
    constructor
    · rintro ⟨hframes, hresult⟩
      refine ⟨hframes, ?_⟩
      rintro v _ ⟨⟩
      exact hresult v rfl
    · rintro ⟨hframes, hresult⟩
      refine ⟨hframes, ?_⟩
      rintro v rfl
      exact hresult v frames rfl
  | unwinding frames => exact ⟨fun _ => ⟨List.forall_mem_nil _, fun _ _ h => by cases h⟩,
      fun _ => trivial⟩

theorem Machine.Sound.keepsTo {m : Machine σ} (h : m.Sound) (hle : m.vm.store.maps.size ≤ n) :
    m.KeepsTo (.below n) := by
  have hbelow : ∀ {v : Value}, m.Mentions v → v.Below n := by
    rintro v hv id rfl
    exact Nat.lt_of_lt_of_le (h id hv) hle
  refine ⟨Vm.Sound.keepsTo (fun id hid => h id (.vm hid)) hle, Phase.keepsTo_iff.mpr ⟨?_, ?_⟩⟩
  · exact fun f hf => ⟨fun _ hv => hbelow (.const hf hv), fun _ hv => hbelow (.operand hf hv),
      fun _ hv => hbelow (.slot hf hv)⟩
  · exact fun _ _ hresult => hbelow (.result hresult)

theorem Machine.KeepsTo.sound {m : Machine σ} (h : m.KeepsTo (.below m.vm.store.maps.size)) :
    m.Sound := by
  obtain ⟨hframes, hresult⟩ := Phase.keepsTo_iff.mp h.phase
  intro id hid
  cases hid with
  | vm hv => exact h.vm.sound id hv
  | operand hf hv => exact (hframes _ hf).stack _ hv id rfl
  | slot hf hv => exact (hframes _ hf).locals _ hv id rfl
  | const hf hv => exact (hframes _ hf).code _ hv id rfl
  | result hphase => exact hresult _ _ hphase id rfl

end Sound

/-! ### Steps -/

section Steps

variable {σ : Type} {hook : Option (Tracer σ)} {m : Machine σ}

theorem Machine.maps_step_of_none (h : m.performing? hook = none) :
    (m.step hook).vm.store.maps = m.vm.store.maps :=
  congrArg (fun data : Vm.Data => data.store.maps) (idle_step h).1

theorem Machine.maps_step {op : Opcode} {arg : UInt32} {f : Frame}
    (h : m.performing? hook = some (op, arg, f)) :
    (m.step hook).vm.store.maps = (execute op arg m.vm.count f).vm.store.maps :=
  store_step_of_some (P := fun store => store.maps = (execute op arg m.vm.count f).vm.store.maps)
    (fun b args vm hmaps => (b.maps_call args vm).trans hmaps) (effect?_of_performing? h) rfl

/-- The entry that the next step writes, with the value that it writes. -/
def Machine.written? (hook : Option (Tracer σ)) (m : Machine σ) :
    Option ((MapId × MapKey) × Value) :=
  (m.performing? hook).bind fun (op, _, f) => writes? op f

/-- A step makes a map, writes an entry, or leaves all maps alone. -/
theorem Machine.maps_step_cases (hook : Option (Tracer σ)) (m : Machine σ) :
    (∃ arg f, m.performing? hook = some (.buildMap, arg, f) ∧ m.written? hook = none ∧
      (m.step hook).vm.store.maps = (m.vm.store.addMap ∅).2.maps) ∨
    (∃ id k v, m.written? hook = some ((id, k), v) ∧
      (m.step hook).vm.store.maps = (m.vm.store.insert id k v).maps) ∨
    m.written? hook = none ∧ (m.step hook).vm.store.maps = m.vm.store.maps := by
  cases hperforming : m.performing? hook with
  | none =>
    refine Or.inr (Or.inr ⟨?_, maps_step_of_none hperforming⟩)
    rw [written?, hperforming]
    rfl
  | some performing =>
    obtain ⟨op, arg, f⟩ := performing
    have hwritten : m.written? hook = writes? op f := by
      rw [written?, hperforming]
      rfl
    have hmaps := maps_step hperforming
    rw [hwritten]
    by_cases hbuild : op = .buildMap
    · subst hbuild
      exact Or.inl ⟨arg, f, rfl, rfl, hmaps⟩
    · cases hwrites : writes? op f with
      | none =>
        exact Or.inr (Or.inr ⟨rfl, hmaps.trans (maps_execute_of_none hbuild hwrites arg _)⟩)
      | some write =>
        obtain ⟨⟨id, k⟩, v⟩ := write
        rw [store_execute_of_writes? hwrites] at hmaps
        exact Or.inr (Or.inl ⟨id, k, v, rfl, hmaps⟩)

/-- No step makes a reference to a map that is not in the store. -/
theorem Machine.Sound.step (h : m.Sound) : (m.step hook).Sound := by
  refine KeepsTo.sound ((h.keepsTo (m.size_maps_le_step hook)).step ?_)
  rintro arg f hperforming id ⟨⟩
  rw [maps_step hperforming]
  show m.vm.store.maps.size < (m.vm.store.maps.push ∅).size
  rw [Array.size_push]
  exact Nat.lt_succ_self _

/-- What the next step writes, it writes into a map of the store. -/
theorem Machine.Sound.lt_of_written? (h : m.Sound) {id : MapId} {k : MapKey} {v : Value}
    (hwritten : m.written? hook = some ((id, k), v)) : id.index < m.vm.store.maps.size := by
  obtain ⟨⟨op, arg, f⟩, hperforming, hwrites⟩ := Option.bind_eq_some_iff.mp hwritten
  obtain ⟨g, callers, low, s', hphase, -, -, hg, -⟩ := step_of_performing? hperforming
  obtain ⟨-, -, -, hstack, -⟩ := Frame.of_untraced_eq hg
  have hmem : .map id ∈ f.stack := by
    dsimp only [writes?] at hwrites
    split at hwrites
    · rename_i hf
      obtain ⟨k', -, heq⟩ := Option.map_eq_some_iff.mp hwrites
      cases heq
      rw [hf]
      simp
    · cases hwrites
  refine h id (.operand (f := g) ?_ (hstack ▸ hmem))
  rw [hphase]
  exact List.mem_cons_self

/-- A step changes no entry but the one that it writes. -/
theorem Machine.Sound.entry_step (h : m.Sound) (id : MapId) (k : MapKey) :
    ((m.step hook).vm.store.map id)[k]? =
      ((m.written? hook).toList.lookup (id, k)).or (m.vm.store.map id)[k]? := by
  obtain ⟨arg, f, -, hnone, hmaps⟩ | ⟨other, k', v, hwritten, hmaps⟩ | ⟨hnone, hmaps⟩ :=
    m.maps_step_cases hook
  · rw [Store.map_eq_of_maps hmaps, Store.map_addMap, hnone]
    rfl
  · rw [Store.map_eq_of_maps hmaps, hwritten]
    have hother : (id, k) ≠ (other, k') → [((other, k'), v)].lookup (id, k) = none := by
      intro hne
      simp [List.lookup_cons, beq_eq_false_iff_ne.mpr hne]
    by_cases hid : id = other
    · subst hid
      rw [Store.map_insert_self _ (h.lt_of_written? hwritten), Std.HashMap.getElem?_insert]
      by_cases hk : k' = k
      · simp [hk]
      · simp [hk, hother fun heq => hk (Prod.mk.inj heq).2.symm]
    · rw [Store.map_insert_of_ne _ hid]
      simp [hother fun heq => hid (Prod.mk.inj heq).1]
  · rw [Store.map_eq_of_maps hmaps, hnone]
    rfl

end Steps

/-! ### Runs -/

namespace Vm

variable {σ : Type} (hook : Option (Tracer σ)) (vm : Vm) (s : σ) (request : Request)

/-- The entries that the first `n` steps of an operation write, with the values that they write, the
last one first. -/
def written : Nat → List ((MapId × MapKey) × Value)
  | 0 => []
  | n + 1 => ((vm.stepped hook s request n).written? hook).toList ++ written n

/-- What an entry of a map is after `n` steps of an operation: the value that was written to it
last, or else the one that it had when the operation began. -/
def lastWritten (n : Nat) (id : MapId) (k : MapKey) : Option Value :=
  ((vm.written hook s request n).lookup (id, k)).or (vm.store.map id)[k]?

variable {hook vm s request}

theorem maps_stepped_zero : (vm.stepped hook s request 0).vm.store.maps = vm.store.maps := by
  rw [stepped, Function.iterate_zero_apply, maps_start]
  exact congrArg (fun data : Data => data.store.maps) data_setUp

section Sound

variable (hvm : vm.Sound)
  (hrequest : ∀ id, .map id ∈ request.values → id.index < vm.store.maps.size)
include hvm hrequest

theorem sound_stepped (n : Nat) : (vm.stepped hook s request n).Sound := by
  induction n with
  | zero =>
    refine Machine.KeepsTo.sound ?_
    rw [maps_stepped_zero, stepped, Function.iterate_zero_apply]
    have hkeeps := hvm.keepsTo (Nat.le_refl _)
    have hvalues : ∀ v ∈ request.values, v.Below vm.store.maps.size := by
      rintro v hv id rfl
      exact hrequest id hv
    refine keepsTo_start (hkeeps.of_data data_setUp) s fun callee args hcall => ?_
    rw [call?_setUp] at hcall
    exact hkeeps.holdsOnly.of_call? (Realm.below _).plain hvalues hcall
  | succ n ih =>
    rw [stepped_succ]
    exact ih.step

/-- At every moment of an operation the entries of all maps are what was written to them last; by
induction on the steps, of which the last may write one. -/
theorem entry_stepped (n : Nat) (id : MapId) (k : MapKey) :
    ((vm.stepped hook s request n).vm.store.map id)[k]? =
      vm.lastWritten hook s request n id k := by
  induction n with
  | zero =>
    rw [Store.map_eq_of_maps maps_stepped_zero]
    rfl
  | succ n ih =>
    rw [stepped_succ, (sound_stepped hvm hrequest n).entry_step, ih, lastWritten, lastWritten,
      written, List.lookup_append, Option.or_assoc]

end Sound

end Vm

/-! ### Dictionaries -/

namespace Machine

variable {σ : Type} (hook : Option (Tracer σ)) (m : Machine σ)

/-- The next step executes the instruction `op`, whatever its argument, in the frame `f`. -/
def Executes (op : Opcode) (f : Frame) : Prop := ∃ arg, m.performing? hook = some (op, arg, f)

/-- The instruction of the next step leaves the operands `stack`. -/
def Leaves (stack : List Value) : Prop :=
  ∃ vm f, m.effect? hook = some (.next vm f) ∧ f.stack = stack

/-- The instruction of the next step fails with the fault `e`, which is of the given kind. -/
def Raises (kind : ErrorKind) (e : Fault) : Prop :=
  e.kind = kind ∧ ∃ vm f, m.effect? hook = some (.leave vm f (.error e))

/-- The next step leaves all maps alone. -/
def KeepsMaps : Prop := (m.step hook).vm.store.maps = m.vm.store.maps

/-- What `container[key]` comes to with the operands `rest` below, where the maps have the given
contents. -/
def ReadOutcome (contents : MapId → MapKey → Option Value) (container key : Value)
    (rest : List Value) : Prop :=
  match container, key.key? with
  | .map id, some k =>
    match contents id k with
    | some v => m.Leaves hook (v :: rest)
    | none => m.Raises hook .key (.missingKey k)
  | .map _, none => m.Raises hook .type (.unhashable key.kind)
  | other, _ => m.Raises hook .type (.notSubscriptable other.kind)

/-- What `container[key] = v` comes to with the operands `rest` below, where the maps have the given
contents. -/
def WriteOutcome (contents : MapId → MapKey → Option Value) (container key v : Value)
    (rest : List Value) : Prop :=
  match container, key.key? with
  | .map id, some k =>
    m.Leaves hook rest ∧
      ((m.step hook).vm.store.map id)[k]? = some v ∧
      (∀ k' : MapKey, k' ≠ k →
        ((m.step hook).vm.store.map id)[k']? = (m.vm.store.map id)[k']?) ∧
      (∀ other, other ≠ id → (m.step hook).vm.store.map other = m.vm.store.map other) ∧
      ((m.step hook).vm.store.map id).size =
        (m.vm.store.map id).size + if (contents id k).isSome then 0 else 1
  | .map _, none => m.Raises hook .type (.unhashable key.kind) ∧ m.KeepsMaps hook
  | other, _ => m.Raises hook .type (.noItemAssignment other.kind) ∧ m.KeepsMaps hook

/-- The maps of a machine behave as dictionaries with the given contents.  A map that is made is
empty, and a new one; reading gives the contents and changes nothing; writing changes one entry; and
where the key or the container is of the wrong kind nothing changes. -/
structure Dictionaries (contents : MapId → MapKey → Option Value) : Prop where
  sound : m.Sound
  entries : ∀ id (k : MapKey), (m.vm.store.map id)[k]? = contents id k
  build : ∀ f, m.Executes hook .buildMap f →
    ∃ id : MapId, m.Leaves hook (.map id :: f.stack) ∧ ¬m.Mentions (.map id) ∧
      id.index = m.vm.store.maps.size ∧ (m.step hook).vm.store.map id = ∅ ∧
      ∀ other, (m.step hook).vm.store.map other = m.vm.store.map other
  read : ∀ f key container rest, m.Executes hook .binarySubscr f →
    f.stack = key :: container :: rest →
    m.KeepsMaps hook ∧ m.ReadOutcome hook contents container key rest
  write : ∀ f key container v rest, m.Executes hook .storeSubscr f →
    f.stack = key :: container :: v :: rest → m.WriteOutcome hook contents container key v rest

variable {hook m}

theorem Executes.maps_step {op : Opcode} {f : Frame} (h : m.Executes hook op f)
    (hbuild : op ≠ .buildMap) (hwrites : writes? op f = none) : m.KeepsMaps hook := by
  obtain ⟨arg, hperforming⟩ := h
  exact (Machine.maps_step hperforming).trans (maps_execute_of_none hbuild hwrites arg _)

theorem Executes.effect?_eq {op : Opcode} {f : Frame} {e : Effect} (h : m.Executes hook op f)
    (he : ∀ arg, execute op arg m.vm.count f = e) : m.effect? hook = some e := by
  obtain ⟨arg, hperforming⟩ := h
  rw [effect?_of_performing? hperforming, he]

theorem Sound.build (h : m.Sound) {f : Frame} (hf : m.Executes hook .buildMap f) :
    ∃ id : MapId, m.Leaves hook (.map id :: f.stack) ∧ ¬m.Mentions (.map id) ∧
      id.index = m.vm.store.maps.size ∧ (m.step hook).vm.store.map id = ∅ ∧
      ∀ other, (m.step hook).vm.store.map other = m.vm.store.map other := by
  obtain ⟨arg, hperforming⟩ := hf
  have hsame : ∀ other, (m.step hook).vm.store.map other = m.vm.store.map other := by
    intro other
    rw [Store.map_eq_of_maps (Machine.maps_step hperforming)]
    exact Store.map_addMap _ other
  refine ⟨⟨m.vm.store.maps.size⟩, ⟨_, _, effect?_of_performing? hperforming, rfl⟩, ?_, rfl, ?_,
    hsame⟩
  · intro hmentions
    exact Nat.lt_irrefl _ (h _ hmentions)
  · rw [hsame]
    exact Store.map_of_size_le (Nat.le_refl _)

section Subscripts

variable {contents : MapId → MapKey → Option Value}
  (hentries : ∀ id (k : MapKey), (m.vm.store.map id)[k]? = contents id k)
  {f : Frame} {key container v : Value} {rest : List Value}
include hentries

theorem read_of_entries (hf : m.Executes hook .binarySubscr f)
    (hstack : f.stack = key :: container :: rest) :
    m.ReadOutcome hook contents container key rest := by
  have heffect := hf.effect?_eq (e := .give m.vm.count f rest (container.subscript m.vm.store key))
    fun arg => by
      simp only [execute, hstack]
      rfl
  unfold ReadOutcome
  cases container with
  | map id =>
    cases hk : key.key? with
    | none =>
      simp only [Value.subscript, Value.entry, hk] at heffect
      exact ⟨rfl, _, _, heffect⟩
    | some k =>
      simp only [Value.subscript, Value.entry, hk, hentries] at heffect
      dsimp only
      cases hentry : contents id k with
      | none =>
        rw [hentry] at heffect
        exact ⟨rfl, _, _, heffect⟩
      | some v =>
        rw [hentry] at heffect
        exact ⟨_, _, heffect, rfl⟩
  | _ => exact ⟨rfl, _, _, heffect⟩

theorem write_of_entries (hsound : m.Sound) (hf : m.Executes hook .storeSubscr f)
    (hstack : f.stack = key :: container :: v :: rest) :
    m.WriteOutcome hook contents container key v rest := by
  have hrefused : ∀ e, container.entry key .noItemAssignment = .error e →
      m.effect? hook = some (.fault m.vm.count f e) := by
    intro e he
    refine hf.effect?_eq fun arg => ?_
    simp only [execute, hstack, he]
  unfold WriteOutcome
  cases container with
  | map id =>
    cases hk : key.key? with
    | none =>
      have he : (Value.map id).entry key .noItemAssignment = .error (.unhashable key.kind) := by
        simp only [Value.entry, hk]
      refine ⟨⟨rfl, _, _, hrefused _ he⟩, hf.maps_step Opcode.noConfusion ?_⟩
      simp only [writes?, hstack, hk, Option.map_none]
    | some k =>
      have heffect := hf.effect?_eq (e := .next (m.vm.count.insert id k v) { f with stack := rest })
        fun arg => by simp only [execute, hstack, Value.entry, hk]
      have hwrites : writes? .storeSubscr f = some ((id, k), v) := by
        simp only [writes?, hstack, hk, Option.map_some]
      obtain ⟨arg, hperforming⟩ := hf
      have hwritten : m.written? hook = some ((id, k), v) := by
        rw [written?, hperforming]
        exact hwrites
      have hmaps := Machine.maps_step hperforming
      rw [store_execute_of_writes? hwrites] at hmaps
      have hself : (m.step hook).vm.store.map id = (m.vm.store.map id).insert k v := by
        rw [Store.map_eq_of_maps hmaps]
        exact Store.map_insert_self _ (hsound.lt_of_written? hwritten) k v
      refine ⟨⟨_, _, heffect, rfl⟩, ?_, ?_, ?_, ?_⟩
      · rw [hself, Std.HashMap.getElem?_insert_self]
      · intro k' hne
        rw [hself, Std.HashMap.getElem?_insert, if_neg (by simpa using hne.symm)]
      · intro other hne
        rw [Store.map_eq_of_maps hmaps]
        exact Store.map_insert_of_ne _ hne k v
      · rw [hself, Std.HashMap.size_insert, ← hentries, Std.HashMap.isSome_getElem?_eq_contains]
        by_cases hmem : k ∈ m.vm.store.map id
        · simp [hmem]
        · simp [hmem]
  | _ => exact ⟨⟨rfl, _, _, hrefused _ rfl⟩,
      hf.maps_step Opcode.noConfusion (by simp [writes?, hstack])⟩

end Subscripts

end Machine

/-- Maps behave as shared mutable dictionaries.  If an operation begins with no reference to a map
that is not there, then at every moment the maps are dictionaries that hold under each key the value
that was written last, through whatever reference to the map. -/
theorem maps_are_dictionaries {σ : Type} (hook : Option (Tracer σ)) {vm : Vm} {request : Request}
    (hvm : vm.Sound) (hrequest : ∀ id, .map id ∈ request.values → id.index < vm.store.maps.size)
    (s : σ) (n : Nat) :
    (vm.stepped hook s request n).Dictionaries hook (vm.lastWritten hook s request n) := by
  have hsound : (vm.stepped hook s request n).Sound := Vm.sound_stepped hvm hrequest n
  have hentries : ∀ id k, ((vm.stepped hook s request n).vm.store.map id)[k]? =
      vm.lastWritten hook s request n id k := Vm.entry_stepped hvm hrequest n
  exact
    { sound := hsound
      entries := hentries
      build := fun _ hf => hsound.build hf
      read := fun _ _ _ _ hf hstack => ⟨hf.maps_step Opcode.noConfusion rfl,
        Machine.read_of_entries hentries hf hstack⟩
      write := fun _ _ _ _ _ hf hstack => Machine.write_of_entries hentries hsound hf hstack }

/-- A machine with one map, which is also a constant of a function.  The function writes an integer
to the map that it is called with, puts that map into the constant one, and reads the integer from
the constant one. -/
def aliasingVm : Vm where
  store.functions :=
    #[⟨"alias", 1, #["a"], #[], #[.map ⟨0⟩, .int 5, .int 1, .str "self"],
      #[2, 1, 3, 0, 2, 2, 10, 0, 3, 0, 2, 0, 2, 3, 10, 0, 2, 0, 2, 2, 9, 0, 19, 0], [⟨0, 1⟩]⟩]
  store.maps := #[∅]

theorem sound_aliasingVm : aliasingVm.Sound := by
  intro id hid
  have hconsts : ∀ function, .map id ∈ (aliasingVm.store.code function).consts →
      id.index < aliasingVm.store.maps.size := by
    rintro ⟨_ | index⟩ hmem
    · have hconst : .map id ∈ #[Value.map ⟨0⟩, .int 5, .int 1, .str "self"] := hmem
      simp only [List.mem_toArray, List.mem_cons, Value.map.injEq, reduceCtorEq, List.not_mem_nil,
        or_self, or_false] at hconst
      rw [hconst]
      decide
    · cases hmem with
      | mk hmem => cases hmem
  cases hid with
  | global hv => simp [aliasingVm] at hv
  | @entry other k _ hv =>
    have hempty : aliasingVm.store.map other = ∅ := by
      rcases other with ⟨_ | index⟩ <;> rfl
    simp [hempty] at hv
  | const hv => exact hconsts _ hv

/-- The map contains itself, and the integer that was written through the argument is read through
the constant. -/
theorem maps_are_dictionaries_aliasing :
    let request := Request.call (.function ⟨0⟩) [.map ⟨0⟩]
    aliasingVm.Sound ∧
      (∀ id, .map id ∈ request.values → id.index < aliasingVm.store.maps.size) ∧
      aliasingVm.written none () request 10 =
        [((⟨0⟩, .str "self"), .map ⟨0⟩), ((⟨0⟩, .int 1), .int 5)] ∧
      ((aliasingVm.stepped none () request 10).vm.store.map ⟨0⟩)[MapKey.str "self"]? =
        some (.map ⟨0⟩) ∧
      (aliasingVm.stepped none () request 10).Leaves none [.int 5] := by
  intro request
  have hrequest : ∀ id, .map id ∈ request.values → id.index < aliasingVm.store.maps.size := by
    intro id hid
    have hmem : .map id ∈ [Value.function ⟨0⟩, .map ⟨0⟩] := hid
    simp only [List.mem_cons, reduceCtorEq, Value.map.injEq, List.not_mem_nil, or_false,
      false_or] at hmem
    rw [hmem]
    decide
  have hwritten : aliasingVm.written none () request 10 =
      [((⟨0⟩, .str "self"), .map ⟨0⟩), ((⟨0⟩, .int 1), .int 5)] := by decide +kernel
  have hreading : ((aliasingVm.stepped none () request 10).performing? none).map
      (fun x => (x.1, x.2.2.stack)) = some (.binarySubscr, [.int 1, .map ⟨0⟩]) := by decide +kernel
  obtain ⟨⟨op, arg, f⟩, hperforming, heq⟩ := Option.map_eq_some_iff.mp hreading
  obtain ⟨rfl, hstack⟩ := Prod.mk.inj heq
  have hmaps := maps_are_dictionaries none sound_aliasingVm hrequest () 10
  have hread := (hmaps.read f (.int 1) (.map ⟨0⟩) [] ⟨arg, hperforming⟩ hstack).2
  have hself := hmaps.entries ⟨0⟩ (.str "self")
  simp only [Machine.ReadOutcome, Value.key?, Vm.lastWritten, hwritten] at hread hself
  exact ⟨sound_aliasingVm, hrequest, hwritten, hself, hread⟩

end Wordcode
