import Wordcode.Trace.Counter
import Wordcode.Proofs.Activations
import Wordcode.Proofs.Protocol

/-! Line events.  A frame that sends its line events sends one before an instruction exactly if it
is the frame's first, or starts an entry of the line table, or is of another line than the
instruction that the frame executed before.  The frame keeps only the line of its last line event;
this is always the line of its last instruction, whatever jumps there were and whatever other frames
did. -/

namespace Wordcode

open Trace

/-! ### What is said of a run -/

/-- The hook always wants more events. -/
def Trace.Tracer.Patient {σ : Type} (hook : Tracer σ) : Prop :=
  ∀ s view e, (hook.onEvent s view e).verdict = .proceed

/-- The line of a line event. -/
def Trace.Event.line? : Trace.Event → Option UInt32
  | line l => some l
  | _ => none

/-- A line event is due before the instruction at `offset`, if `last` is the instruction that the
frame executed before, or none. -/
def Code.LineDue (code : Code) (last : Option Nat) (offset : Nat) : Prop :=
  last = none ∨ code.isLineStart offset = true ∨
    ∃ prev, last = some prev ∧ code.lineAt prev ≠ code.lineAt offset

/-- The offset of the instruction that the next step executes, if one is executed in the frame at
the given depth. -/
def Machine.offset? {σ : Type} (m : Machine σ) (depth : Nat) : Option Nat :=
  match m.phase with
  | .running f callers =>
    if callers.length + 1 = depth then f.fetch.toOption.map fun _ => f.pc else none
  | _ => none

namespace Vm

variable {σ : Type} (hook : Option (Tracer σ)) (vm : Vm) (s : σ) (request : Request)

/-- What the hook of an operation is shown in the last of `n` steps; the start is no step. -/
def shownAt : Nat → List Showing
  | 0 => vm.shown hook s request 0
  | n + 1 => (vm.shown hook s request (n + 1)).drop (vm.shown hook s request n).length

/-- The offsets of the instructions that are executed in the frame at the given depth in the `k`
steps after the first `a`. -/
def offsetsSince (depth a k : Nat) : List Nat :=
  (List.range k).filterMap fun i => (vm.stepped hook s request (a + i)).offset? depth

theorem getLast?_offsetsSince_succ (depth a k : Nat) :
    (vm.offsetsSince hook s request depth a (k + 1)).getLast? =
      ((vm.stepped hook s request (a + k)).offset? depth).or
        (vm.offsetsSince hook s request depth a k).getLast? := by
  rw [offsetsSince, List.range_succ, List.filterMap_append, List.getLast?_append]
  cases hoffset : (vm.stepped hook s request (a + k)).offset? depth <;>
    simp [offsetsSince, hoffset]

end Vm

/-! ### What a step does -/

namespace Machine

variable {σ : Type} {m : Machine σ}

theorem executing?_eq_some {moment : Moment} (h : m.executing? = some moment) :
    ∃ f callers op low, m.phase = .running f callers ∧ f.fetch = .ok (op, low) ∧
      moment = ⟨m.vm.store, .executed f.pc op⟩ := by
  unfold executing? at h
  split at h
  · rename_i f callers hphase
    cases hfetch : f.fetch with
    | ok fetched =>
      rw [hfetch] at h
      cases h
      exact ⟨f, callers, _, _, hphase, hfetch, rfl⟩
    | error e =>
      rw [hfetch] at h
      cases h
  · cases h

theorem offset?_of_executing?_eq_none (h : m.executing? = none) (depth : Nat) :
    m.offset? depth = none := by
  unfold executing? at h
  unfold offset?
  split
  · rename_i f callers hphase
    rw [hphase] at h
    split
    · exact Option.map_eq_none_iff.mpr (Option.map_eq_none_iff.mp h)
    · rfl
  · rfl

theorem executing?_of_running {f : Frame} {callers : List Frame} {op : Opcode} {low : UInt8}
    (hphase : m.phase = .running f callers) (hfetch : f.fetch = .ok (op, low)) :
    m.executing? = some ⟨m.vm.store, .executed f.pc op⟩ := by
  obtain ⟨vm, s, phase⟩ := m
  obtain rfl : phase = .running f callers := hphase
  exact executing?_of_ok hfetch

theorem offset?_of_running {f : Frame} {callers : List Frame} {op : Opcode} {low : UInt8}
    (hphase : m.phase = .running f callers) (hfetch : f.fetch = .ok (op, low)) (depth : Nat) :
    m.offset? depth = if callers.length + 1 = depth then some f.pc else none := by
  unfold offset?
  rw [hphase]
  dsimp only
  rw [hfetch]
  rfl

theorem act_of_turn? {active : Nat} {moment : Moment} (h : m.turn? active = some moment)
    (offset : Nat) (op : Opcode) : moment.act ≠ .executed offset op := by
  unfold turn? at h
  split at h
  · split at h <;> cases h
    exact Act.noConfusion
  · split at h <;> cases h
    exact Act.noConfusion
  · cases h

end Machine

/-! ### Instructions -/

/-- What the instruction that a machine is at, if it is at one, shows a hook, and the watched frames
after it. -/
inductive Machine.Executing {σ : Type} (m : Machine σ) : List Showing → List Watch → Prop
  | idle (hnone : m.executing? = none) : Executing m [] m.phase.watches
  | instruction {f : Frame} {callers : List Frame} {op : Wordcode.Opcode} {low : UInt8}
      {w w' : Watch} {xs ys : List Showing} (hphase : m.phase = .running f callers)
      (hfetch : f.fetch = .ok (op, low))
      (hline : { f.watch with lasti := f.pc }.Line m.vm.store (callers.length + 1) xs w)
      (hopcode : w.Opcode m.vm.store (callers.length + 1) ys w') :
      Executing m (xs ++ ys) (w' :: callers.map Frame.watch)

theorem Machine.executing {σ : Type} {m : Machine σ} {watches : List Watch} {xs : List Showing}
    (h : Protocol m.phase.watches m.executing?.toList xs watches) : m.Executing xs watches := by
  cases hexecuting : m.executing? with
  | none =>
    rw [hexecuting] at h
    cases h
    exact .idle hexecuting
  | some moment =>
    obtain ⟨f, callers, op, low, hphase, hfetch, rfl⟩ := executing?_eq_some hexecuting
    rw [hexecuting, hphase] at h
    have hshown := h.shown
    cases hshown with
    | executed _ hline hopcode =>
      rw [List.length_map] at hline hopcode
      exact .instruction hphase hfetch hline hopcode

namespace Machine.Executing

variable {σ : Type} {m : Machine σ} {watches : List Watch} {xs : List Showing}
  (h : m.Executing xs watches)
include h

theorem length_eq : watches.length = m.phase.frames.length := by
  cases h with
  | idle => exact List.length_map _
  | instruction hphase =>
    rw [hphase]
    exact congrArg (· + 1) (List.length_map _)

theorem eq_nil (hnone : m.executing? = none) : xs = [] := by
  cases h with
  | idle => rfl
  | instruction hphase hfetch =>
    rw [executing?_of_running hphase hfetch] at hnone
    cases hnone

theorem of_running {f : Frame} {callers : List Frame} {op : Wordcode.Opcode} {low : UInt8}
    (hphase : m.phase = .running f callers) (hfetch : f.fetch = .ok (op, low)) :
    ∃ ys zs w w', xs = ys ++ zs ∧
      { f.watch with lasti := f.pc }.Line m.vm.store (callers.length + 1) ys w ∧
      w.Opcode m.vm.store (callers.length + 1) zs w' := by
  cases h with
  | idle hnone =>
    rw [executing?_of_running hphase hfetch] at hnone
    cases hnone
  | instruction hphase' _ hline hopcode =>
    obtain ⟨rfl, rfl⟩ := Phase.running.inj (hphase.symm.trans hphase')
    exact ⟨_, _, _, _, rfl, hline, hopcode⟩

end Machine.Executing

theorem Watch.Opcode.quiet {store : Store} {depth : Nat} {w w' : Watch} {xs : List Showing}
    (h : w.Opcode store depth xs w') : ∀ x ∈ xs, x.event.line? = none := by
  cases h with
  | shown _ _ hshows =>
    intro x hx
    rw [List.mem_singleton.mp hx, hshows.event]
    rfl
  | notDue => exact List.forall_mem_nil _

/-! ### Turns -/

/-- What a frame that is entered or left, or none, shows a hook, and how it changes the watched
frames. -/
inductive Turned (watches : List Watch) : List Showing → List Watch → Prop
  | still : Turned watches [] watches
  | entered {code : Code} {x : Showing} (hdepth : x.view.depth = watches.length + 1)
      (hevent : x.event = .call) : Turned watches [x] (({ code } : Watch).answered x :: watches)
  | left {w : Watch} {callers : List Watch} {xs : List Showing} (hwatches : watches = w :: callers)
      (hquiet : ∀ x ∈ xs, x.event.line? = none) : Turned watches xs callers

theorem Machine.turned {σ : Type} {m : Machine σ} {active : Nat} {watches watches' : List Watch}
    {xs : List Showing} (h : Protocol watches (m.turn? active).toList xs watches') :
    Turned watches xs watches' := by
  cases hturn : m.turn? active with
  | none =>
    rw [hturn] at h
    cases h
    exact .still
  | some moment =>
    rw [hturn] at h
    have hact := act_of_turn? hturn
    have hquiet : ∀ {x : Showing} {e : Trace.Event}, x.event = e → e.line? = none →
        ∀ y ∈ [x], y.event.line? = none := by
      intro x e hx he y hy
      rw [List.mem_singleton.mp hy, hx, he]
    cases h.shown with
    | entered hshows =>
      rw [hshows.next]
      exact .entered (congrArg View.depth hshows.view) hshows.event
    | executed => exact absurd rfl (hact _ _)
    | returned _ hshows | raised _ hshows => exact .left rfl (hquiet hshows.event rfl)
    | leftUnseen => exact .left rfl (List.forall_mem_nil _)

namespace Turned

variable {watches watches' : List Watch} {xs : List Showing} (h : Turned watches xs watches')
include h

/-- Frames that are entered or left send no line events. -/
theorem quiet : ∀ x ∈ xs, x.event.line? = none := by
  cases h with
  | still => exact List.forall_mem_nil _
  | entered _ hevent =>
    intro x hx
    rw [List.mem_singleton.mp hx, hevent]
    rfl
  | left _ hquiet => exact hquiet

/-- The frames that are active before and after are the same. -/
theorem suffix {inner : List Watch} (hinner : inner <:+ watches)
    (hlength : inner.length ≤ watches'.length) : inner <:+ watches' := by
  cases h with
  | still => exact hinner
  | entered => exact hinner.trans (List.suffix_cons _ _)
  | left hwatches =>
    rw [hwatches] at hinner
    rcases List.suffix_cons_iff.mp hinner with rfl | hinner
    · exact absurd hlength (Nat.not_succ_le_self _)
    · exact hinner

end Turned

/-! ### The line that a frame keeps -/

namespace Watch

/-- The frame sends line events, and the last one was of the line of the instruction `last`; if
there was no instruction, there was none. -/
structure Marks (w : Watch) (last : Option Nat) : Prop where
  active : w.active = true
  lines : w.flags.lines = true
  lastLine : w.lastLine = last.map w.code.lineAt

/-- The frame goes on to send line events after the answer. -/
def Keeps (x : Showing) : Prop := x.verdict = .proceed ∧ x.flags.lines = true

variable {w w' : Watch} {last : Option Nat} {offset : Nat} {store : Store} {depth : Nat}
  {xs : List Showing}

theorem Marks.answered (h : w.Marks last) {x : Showing} (hx : Keeps x) :
    (w.answered x).Marks last :=
  ⟨decide_eq_true hx.1, hx.2, h.lastLine⟩

theorem marks_entered (code : Code) {x : Showing} (hx : Keeps x) :
    (({ code } : Watch).answered x).Marks none :=
  ⟨decide_eq_true hx.1, hx.2, rfl⟩

theorem Marks.entersLine_iff (h : w.Marks last) :
    ({ w with lasti := offset } : Watch).EntersLine ↔ w.code.LineDue last offset := by
  unfold EntersLine Code.LineDue
  dsimp only
  rw [h.lastLine]
  cases last with
  | none => simp
  | some prev => simp

/-- After the line event of an instruction, if one is due, the last line event was of its line. -/
theorem Marks.line (h : w.Marks last)
    (hline : ({ w with lasti := offset } : Watch).Line store depth xs w')
    (hkeeps : ∀ x ∈ xs, x.view.depth = depth → Keeps x) : w'.Marks (some offset) := by
  cases hline with
  | @shown x _ _ _ _ hshows =>
    rw [hshows.next]
    have hmarks : ({ w with lasti := offset, lastLine := some (w.code.lineAt offset) } :
        Watch).Marks (some offset) := ⟨h.active, h.lines, rfl⟩
    exact hmarks.answered (hkeeps x (List.mem_singleton_self x) (congrArg View.depth hshows.view))
  | notDue hnot =>
    refine ⟨h.active, h.lines, ?_⟩
    -- No event was due, so the last one was of this line too.
    have hnot : ¬({ w with lasti := offset } : Watch).EntersLine :=
      fun hdue => hnot ⟨h.active, h.lines, hdue⟩
    exact Decidable.not_not.mp fun hne => hnot (Or.inr hne)

theorem Marks.opcode (h : w.Marks last) (hopcode : w.Opcode store depth xs w')
    (hkeeps : ∀ x ∈ xs, x.view.depth = depth → Keeps x) : w'.Marks last := by
  cases hopcode with
  | @shown x _ _ _ hshows =>
    rw [hshows.next]
    exact h.answered (hkeeps x (List.mem_singleton_self x) (congrArg View.depth hshows.view))
  | notDue => exact h

/-- The line event of an instruction is sent exactly if it is due. -/
theorem Marks.sent (h : w.Marks last)
    (hline : ({ w with lasti := offset } : Watch).Line store depth xs w') :
    (w.code.LineDue last offset → ∃ x, xs = [x] ∧
      x.view = ({ w with lasti := offset } : Watch).view store depth ∧
      x.event = .line (w.code.lineAt offset)) ∧
    (¬w.code.LineDue last offset → xs = []) := by
  rw [← h.entersLine_iff]
  cases hline with
  | @shown x _ _ _ hdue hshows =>
    exact ⟨fun _ => ⟨x, rfl, hshows.view, hshows.event⟩, fun hnot => absurd hdue hnot⟩
  | notDue hnot => exact ⟨fun hdue => absurd ⟨h.active, h.lines, hdue⟩ hnot, fun _ => rfl⟩

end Watch

/-! ### The frame at a depth -/

/-- The frame at the given depth sends its line events, and the instruction that it has executed
last is `last`. -/
def MarksAt (watches : List Watch) (depth : Nat) (last : Option Nat) : Prop :=
  ∃ w outer, w :: outer <:+ watches ∧ outer.length + 1 = depth ∧ w.Marks last

namespace MarksAt

variable {depth : Nat} {last : Option Nat} {watches watches' : List Watch} {xs : List Showing}

/-- If there is a frame more, it was entered, and has executed nothing. -/
theorem entered (hturned : Turned watches xs watches') (hlength : watches.length < watches'.length)
    (hkeeps : ∀ x ∈ xs, x.view.depth = watches'.length → Watch.Keeps x) :
    MarksAt watches' watches'.length none := by
  cases hturned with
  | still => exact absurd hlength (Nat.lt_irrefl _)
  | @entered code x hdepth =>
    have hx := hkeeps x (List.mem_singleton_self x) hdepth
    exact ⟨_, watches, List.suffix_rfl, rfl, Watch.marks_entered code hx⟩
  | left hwatches =>
    rw [hwatches] at hlength
    exact absurd hlength (Nat.not_lt.mpr (Nat.le_succ _))

theorem turned (h : MarksAt watches depth last) (hturned : Turned watches xs watches')
    (hdepth : depth ≤ watches'.length) : MarksAt watches' depth last := by
  obtain ⟨w, outer, hsuffix, rfl, hmarks⟩ := h
  exact ⟨w, outer, hturned.suffix hsuffix hdepth, rfl, hmarks⟩

/-- The frame on top is the one at its depth. -/
theorem top {w : Watch} {callers : List Watch} (h : MarksAt (w :: callers) depth last)
    (hdepth : callers.length + 1 = depth) : w.Marks last := by
  obtain ⟨w', outer, hsuffix, rfl, hmarks⟩ := h
  have heq := hsuffix.eq_of_length hdepth.symm
  cases heq
  exact hmarks

/-- An instruction is the last one of the frame that executes it, and leaves the others alone. -/
theorem executing {σ : Type} {m : Machine σ} (h : MarksAt m.phase.watches depth last)
    (hexecuting : m.Executing xs watches)
    (hkeeps : ∀ x ∈ xs, x.view.depth = depth → Watch.Keeps x) :
    MarksAt watches depth ((m.offset? depth).or last) := by
  cases hexecuting with
  | idle hnone =>
    rw [Machine.offset?_of_executing?_eq_none hnone]
    exact h
  | @instruction f callers _ _ w w' ys zs hphase hfetch hline hopcode =>
    have hlength : (callers.map Frame.watch).length = callers.length := List.length_map _
    rw [Machine.offset?_of_running hphase hfetch]
    rw [hphase] at h
    -- The frame on top is the one at the depth, or the one at the depth is among its callers.
    by_cases hdepth : callers.length + 1 = depth
    · rw [if_pos hdepth]
      subst hdepth
      have hmarks := h.top (congrArg (· + 1) hlength)
      have hmarks' := hmarks.line hline fun x hx => hkeeps x (List.mem_append_left zs hx)
      have hmarks'' := hmarks'.opcode hopcode fun x hx => hkeeps x (List.mem_append_right ys hx)
      exact ⟨w', _, List.suffix_rfl, congrArg (· + 1) hlength, hmarks''⟩
    · rw [if_neg hdepth]
      obtain ⟨v, outer, hsuffix, rfl, hmarks⟩ := h
      rcases List.suffix_cons_iff.mp hsuffix with heq | hsuffix
      · cases heq
        exact absurd (congrArg (· + 1) hlength.symm) hdepth
      · exact ⟨v, outer, hsuffix.trans (List.suffix_cons _ _), rfl, hmarks⟩

end MarksAt

/-! ### Runs -/

theorem Trace.Tracer.Patient.neverAborts {σ : Type} {hook : Tracer σ} (hpatient : hook.Patient) :
    hook.NeverAborts := by
  intro s view e
  rw [hpatient]
  exact Verdict.noConfusion

theorem Trace.Tracer.Answers.proceed {σ : Type} {hook : Tracer σ} (hpatient : hook.Patient)
    {s t : σ} {xs : List Showing} (h : hook.Answers s xs t) : ∀ x ∈ xs, x.verdict = .proceed := by
  induction xs generalizing s with
  | nil => exact List.forall_mem_nil _
  | cons x xs ih =>
    obtain ⟨-, hverdict, hxs⟩ := h
    exact List.forall_mem_cons.mpr ⟨hverdict.trans (hpatient s _ _), ih hxs⟩

namespace Vm

variable {σ : Type} {hook : Tracer σ} (hpatient : hook.Patient) {vm : Vm} (hdepth : vm.depth = 0)
  (s : σ) (request : Request)
include hpatient hdepth

theorem turned_shownAt_zero :
    let xs := vm.shownAt (some hook) s request 0
    Turned [] xs (vm.stepped (some hook) s request 0).phase.watches ∧
      ∀ x ∈ xs, x.verdict = .proceed := by
  have hdepth : vm.installHook.depth = 0 := hdepth
  obtain ⟨xs, hrecorded, hprotocol⟩ := follows_start hpatient.neverAborts request hdepth (s, [])
  have hxs : vm.shownAt (some hook) s request 0 = xs := hrecorded.kept
  rw [hxs, stepped_recording _ vm s request [] 0]
  exact ⟨Machine.turned hprotocol, hrecorded.answers.proceed hpatient⟩

/-- What a hook is shown in a step: the events of an instruction, then those of a frame that is
entered or left. -/
theorem shownAt_succ (n : Nat) :
    let m := vm.stepped (some hook) s request n
    let m' := vm.stepped (some hook) s request (n + 1)
    ∃ watches xs ys, vm.shownAt (some hook) s request (n + 1) = xs ++ ys ∧
      m.Executing xs watches ∧ Turned watches ys m'.phase.watches ∧
      ∀ x ∈ xs ++ ys, x.verdict = .proceed := by
  obtain ⟨zs, hrecorded, hprotocol⟩ :=
    follows_next hpatient.neverAborts request n hdepth (s, [])
  have hzs : vm.shownAt (some hook) s request (n + 1) = zs := by
    have hkept : vm.shown (some hook) s request (n + 1) =
        vm.shown (some hook) s request n ++ zs := hrecorded.kept
    rw [shownAt, hkept, List.drop_left]
  obtain ⟨watches, xs, ys, rfl, hxs, hys⟩ := hprotocol.exists_of_append
  rw [hzs, stepped_recording _ vm s request [] n, stepped_recording _ vm s request [] (n + 1)]
  exact ⟨watches, xs, ys, rfl, Machine.executing hxs, Machine.turned hys,
    hrecorded.answers.proceed hpatient⟩

theorem marksAt_entered {a : Nat}
    (hentered : vm.heightBefore (some hook) s request a < vm.height (some hook) s request a)
    (hlines : ∀ x ∈ vm.shownAt (some hook) s request a,
      x.view.depth = vm.height (some hook) s request a → x.flags.lines = true) :
    MarksAt (vm.stepped (some hook) s request a).phase.watches
      (vm.height (some hook) s request a) none := by
  have hlength : (vm.stepped (some hook) s request a).phase.watches.length =
      vm.height (some hook) s request a := List.length_map _
  rw [← hlength] at hlines hentered ⊢
  cases a with
  | zero =>
    obtain ⟨hturned, hverdicts⟩ := turned_shownAt_zero hpatient hdepth s request
    exact .entered hturned hentered fun x hx hx' => ⟨hverdicts x hx, hlines x hx hx'⟩
  | succ b =>
    obtain ⟨watches, xs, ys, hshown, hxs, hys, hverdicts⟩ :=
      shownAt_succ hpatient hdepth s request b
    rw [hshown] at hlines
    refine .entered hys (hxs.length_eq ▸ hentered) fun x hx hx' => ?_
    have hx := List.mem_append_right xs hx
    exact ⟨hverdicts x hx, hlines x hx hx'⟩

/-- Up to every step the last line that a frame has sent is that of its last instruction, by
induction on the steps since it was entered. -/
theorem marksAt_stepped {a k : Nat} (hlives : vm.Lives (some hook) s request a k)
    (hlines : ∀ i ≤ k, ∀ x ∈ vm.shownAt (some hook) s request (a + i),
      x.view.depth = vm.height (some hook) s request a → x.flags.lines = true) :
    MarksAt (vm.stepped (some hook) s request (a + k)).phase.watches
      (vm.height (some hook) s request a)
      (vm.offsetsSince (some hook) s request (vm.height (some hook) s request a) a k).getLast? := by
  induction k with
  | zero =>
    exact marksAt_entered hpatient hdepth s request hlives.entered (hlines 0 (Nat.le_refl 0))
  | succ k ih =>
    have ih := ih hlives.of_succ fun i hi => hlines i (Nat.le_succ_of_le hi)
    obtain ⟨watches, xs, ys, hshown, hxs, hys, hverdicts⟩ :=
      shownAt_succ hpatient hdepth s request (a + k)
    have hlines := hlines (k + 1) (Nat.le_refl _)
    have hstays := hlives.stays (k + 1) (Nat.le_refl _)
    rw [← Nat.add_assoc] at hlines hstays ⊢
    rw [hshown] at hlines
    -- First the instruction may be one of the frame, then a frame further in is entered or left.
    rw [getLast?_offsetsSince_succ]
    have hexecuted := ih.executing hxs fun x hx hx' => by
      have hx := List.mem_append_left ys hx
      exact ⟨hverdicts x hx, hlines x hx hx'⟩
    exact hexecuted.turned hys ((List.length_map _).symm ▸ hstays)

end Vm

/-- Line events mark exactly the line changes.  Under a hook that always wants more, every frame
that runs was entered at some moment.  If the hook has not turned off its line events since, one
line event is sent before an instruction that is the first that the frame executes, or starts an
entry of the line table, or is of another line than the instruction that the frame executed before,
and none before another instruction.  The event is the first thing that is shown in the step, and
tells the line of the instruction.  No other line events are sent, in whatever frame. -/
theorem line_events_mark_changes {σ : Type} {hook : Tracer σ} (hpatient : hook.Patient) {vm : Vm}
    (hdepth : vm.depth = 0) (s : σ) (request : Request) :
    (∀ n f callers, (vm.stepped (some hook) s request n).phase = .running f callers →
      ∃ a k, a + k = n ∧ vm.Lives (some hook) s request a k ∧
        vm.height (some hook) s request a = callers.length + 1) ∧
    (∀ a k,
      let depth := vm.height (some hook) s request a
      let m := vm.stepped (some hook) s request (a + k)
      let last := (vm.offsetsSince (some hook) s request depth a k).getLast?
      vm.Lives (some hook) s request a k →
      (∀ i ≤ k, ∀ x ∈ vm.shownAt (some hook) s request (a + i),
        x.view.depth = depth → x.flags.lines = true) →
      ∀ f callers op low, m.phase = .running f callers → callers.length + 1 = depth →
        f.fetch = .ok (op, low) →
        ∃ sent rest, vm.shownAt (some hook) s request (a + k + 1) = sent ++ rest ∧
          (f.code.LineDue last f.pc → ∃ x, sent = [x] ∧
            x.view = ⟨m.vm.store, f.code, f.pc, depth, f.flags⟩ ∧
            x.event = .line (f.code.lineAt f.pc)) ∧
          (¬f.code.LineDue last f.pc → sent = []) ∧
          ∀ x ∈ rest, x.event.line? = none) ∧
    (∀ x ∈ vm.shownAt (some hook) s request 0, x.event.line? = none) ∧
    ∀ n, (vm.stepped (some hook) s request n).executing? = none →
      ∀ x ∈ vm.shownAt (some hook) s request (n + 1), x.event.line? = none := by
  refine ⟨?_, ?_, ?_, ?_⟩
  · intro n f callers hphase
    have hheight : vm.height (some hook) s request n = callers.length + 1 :=
      congrArg (fun phase => phase.frames.length) hphase
    exact Vm.exists_lives _ vm s request (Nat.succ_pos _) (Nat.le_of_eq hheight.symm)
  · intro a k depth m last hlives hlines f callers op low hphase hcallers hfetch
    have hmarks : MarksAt m.phase.watches depth last :=
      Vm.marksAt_stepped hpatient hdepth s request hlives hlines
    rw [hphase] at hmarks
    have hmarks := hmarks.top ((congrArg (· + 1) (List.length_map _)).trans hcallers)
    obtain ⟨watches, xs, ys, hshown, hxs, hys, -⟩ :=
      Vm.shownAt_succ hpatient hdepth s request (a + k)
    obtain ⟨sent, zs, w, w', rfl, hline, hopcode⟩ := hxs.of_running hphase hfetch
    rw [hcallers] at hline
    obtain ⟨hdue, hnot⟩ := hmarks.sent hline
    refine ⟨sent, zs ++ ys, by rw [hshown, List.append_assoc], hdue, hnot, ?_⟩
    exact List.forall_mem_append.mpr ⟨hopcode.quiet, hys.quiet⟩
  · exact (Vm.turned_shownAt_zero hpatient hdepth s request).1.quiet
  · intro n hnone
    obtain ⟨watches, xs, ys, hshown, hxs, hys, -⟩ := Vm.shownAt_succ hpatient hdepth s request n
    rw [hshown, hxs.eq_nil hnone]
    exact hys.quiet

/-- A machine with a function 0 that jumps into the middle of its second line and there calls
function 1, which has two lines. -/
def hoppingVm : Vm where
  store.functions :=
    #[⟨"outer", 0, #[], #[], #[.function ⟨1⟩], #[2, 0, 15, 3, 1, 0, 18, 0, 19, 0],
        [⟨0, 1⟩, ⟨4, 2⟩]⟩,
      ⟨"inner", 0, #[], #[], #[.int 7], #[2, 0, 19, 0], [⟨0, 1⟩, ⟨2, 2⟩]⟩]

/-- The jump leads to another line; the call of the inner function does not. -/
theorem line_events_mark_changes_hopping :
    let run := Request.run ⟨0⟩
    let shownAt := hoppingVm.shownAt (some opcodeCounter) {} run
    opcodeCounter.Patient ∧ hoppingVm.depth = 0 ∧
      hoppingVm.Lives (some opcodeCounter) {} run 0 2 ∧
      hoppingVm.Lives (some opcodeCounter) {} run 0 6 ∧
      (∃ x rest, shownAt 3 = x :: rest ∧ x.event = .line 2) ∧
      ∀ x ∈ shownAt 7, x.event.line? = none := by
  intro run shownAt
  have hpatient : opcodeCounter.Patient := fun _ _ _ => rfl
  have hdepth : hoppingVm.depth = 0 := rfl
  have hentered : hoppingVm.heightBefore (some opcodeCounter) {} run 0 <
      hoppingVm.height (some opcodeCounter) {} run 0 := by decide
  have hstays : ∀ i ≤ 6, 1 ≤ hoppingVm.height (some opcodeCounter) {} run (0 + i) := by
    decide +kernel
  have hlines : ∀ i ≤ 6, ∀ x ∈ shownAt (0 + i), x.flags.lines = true := by decide +kernel
  have hlives : ∀ k ≤ 6, hoppingVm.Lives (some opcodeCounter) {} run 0 k :=
    fun k hk => ⟨hentered, fun i hi => hstays i (Nat.le_trans hi hk)⟩
  have hevents := (line_events_mark_changes hpatient hdepth {} run).2.1 0
  refine ⟨hpatient, hdepth, hlives 2 (by decide), hlives 6 (by decide), ?_, ?_⟩
  · obtain ⟨sent, rest, hshown, hdue, -⟩ := hevents 2 (hlives 2 (by decide))
      (fun i hi x hx _ => hlines i (Nat.le_trans hi (by decide)) x hx) _ _ _ _ rfl rfl rfl
    obtain ⟨x, rfl, -, hx⟩ := hdue (Or.inr (Or.inr ⟨2, rfl, by decide⟩))
    exact ⟨x, rest, hshown, hx⟩
  · obtain ⟨sent, rest, hshown, -, hnot, hquiet⟩ := hevents 6 (hlives 6 (by decide))
      (fun i hi x hx _ => hlines i hi x hx) _ _ _ _ rfl rfl rfl
    have hnotDue : ¬(hoppingVm.store.code ⟨0⟩).LineDue (some 6) 8 := by
      rintro (hnone | hstart | ⟨prev, hprev, hne⟩)
      · cases hnone
      · cases hstart
      · cases hprev
        exact hne rfl
    rw [hnot hnotDue] at hshown
    rw [show shownAt 7 = rest from hshown]
    exact hquiet

end Wordcode
