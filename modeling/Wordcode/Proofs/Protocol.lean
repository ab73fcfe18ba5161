import Wordcode.Proofs.Recording

/-! The event protocol.  What a hook is shown follows, event by event, from what the machine does:
from the frames that it enters, the instructions that it executes and the frames that it leaves,
which are the same without a hook, and from the hook's own answers. -/

namespace Wordcode

open Trace

/-! ### What the machine does -/

/-- What a machine does that a hook may be shown. -/
inductive Act where
  | entered (code : Code)
  | executed (offset : Nat) (op : Opcode)
  | left (result : Except Fault Value)

/-- Something that the machine does, with the store as it is then. -/
structure Moment where
  store : Store
  act : Act

namespace Machine

variable {σ : Type}

/-- The instruction that the next step executes, if it executes one. -/
def executing? (m : Machine σ) : Option Moment :=
  match m.phase with
  | .running f _ => f.fetch.toOption.map fun (op, _) => ⟨m.vm.store, .executed f.pc op⟩
  | _ => none

/-- The frame that was just entered or left, if there were `active` frames before. -/
def turn? (m : Machine σ) (active : Nat) : Option Moment :=
  match m.phase with
  | .running f callers =>
    if active < callers.length + 1 then some ⟨m.vm.store, .entered f.code⟩ else none
  | .giving result frames =>
    if frames.length < active then some ⟨m.vm.store, .left result⟩ else none
  | .unwinding _ => none

end Machine

/-- What the machine does in the first `n` steps of an operation without a hook. -/
def Vm.moments (vm : Vm) (request : Request) : Nat → List Moment
  | 0 => ((vm.start none () request).turn? 0).toList
  | n + 1 =>
    let m := vm.stepped none () request n
    vm.moments request n ++
      (m.executing?.toList ++ ((m.step none).turn? m.phase.frames.length).toList)

/-! ### What the hook is shown -/

/-- What the protocol knows of an active frame. -/
structure Watch where
  code : Code
  /-- The byte offset of the instruction executed last. -/
  lasti : Nat := 0
  /-- The source line of the last line event. -/
  lastLine : Option UInt32 := none
  /-- Whether the hook is shown events of the frame. -/
  active : Bool := false
  flags : Flags := {}

namespace Watch

/-- What a hook sees of the frame when there are `depth` active frames. -/
def view (w : Watch) (store : Store) (depth : Nat) : View :=
  ⟨store, w.code, w.lasti, depth, w.flags⟩

/-- The frame after the hook's answer to an event: it has the flags that the hook has set, and sends
more events if the hook wants more. -/
def answered (w : Watch) (x : Showing) : Watch :=
  { w with active := x.verdict = .proceed, flags := x.flags }

/-- The hook is shown the event `e` of the frame, and the frame goes on as `w'`. -/
structure Shows (w : Watch) (store : Store) (depth : Nat) (e : Trace.Event) (x : Showing)
    (w' : Watch) : Prop where
  view : x.view = w.view store depth
  event : x.event = e
  next : w' = w.answered x

/-- A line event is due: the instruction starts an entry of the line table, or its line is not that
of the last line event. -/
def EntersLine (w : Watch) : Prop :=
  w.code.isLineStart w.lasti = true ∨ w.lastLine ≠ some (w.code.lineAt w.lasti)

/-- The line event of an instruction. -/
inductive Line (store : Store) (depth : Nat) (w : Watch) : List Showing → Watch → Prop
  | shown {x : Showing} {w' : Watch} (hactive : w.active = true) (hlines : w.flags.lines = true)
      (hdue : w.EntersLine)
      (h : { w with lastLine := some (w.code.lineAt w.lasti) }.Shows store depth
        (.line (w.code.lineAt w.lasti)) x w') : Line store depth w [x] w'
  | notDue (h : ¬(w.active = true ∧ w.flags.lines = true ∧ w.EntersLine)) : Line store depth w [] w

/-- The opcode event of an instruction. -/
inductive Opcode (store : Store) (depth : Nat) (w : Watch) : List Showing → Watch → Prop
  | shown {x : Showing} {w' : Watch} (hactive : w.active = true) (hopcodes : w.flags.opcodes = true)
      (h : w.Shows store depth .opcode x w') : Opcode store depth w [x] w'
  | notDue (h : ¬(w.active = true ∧ w.flags.opcodes = true)) : Opcode store depth w [] w

end Watch

/-- What the hook is shown of one thing that the machine does, and how this changes the watched
frames, of which the innermost is the first. -/
inductive Shown : List Watch → Moment → List Showing → List Watch → Prop
  /-- Every frame that is entered sends a call event, whatever is known of its callers. -/
  | entered {store : Store} {code : Code} {callers : List Watch} {x : Showing} {w : Watch}
      (h : Watch.Shows { code } store (callers.length + 1) .call x w) :
      Shown callers ⟨store, .entered code⟩ [x] (w :: callers)
  /-- An instruction sends its line event, if that is due, then its opcode event, if that is due by
  what the hook has answered. -/
  | executed {store : Store} {offset : Nat} {op : Wordcode.Opcode} {callers : List Watch}
      {w w' w'' : Watch} {xs ys : List Showing} (hop : w.code.opcodeAt? offset = some op)
      (hline : { w with lasti := offset }.Line store (callers.length + 1) xs w')
      (hopcode : w'.Opcode store (callers.length + 1) ys w'') :
      Shown (w :: callers) ⟨store, .executed offset op⟩ (xs ++ ys) (w'' :: callers)
  /-- A frame that still sends events sends one when it is left: the value that it returns, or the
  text of the fault that it raises. -/
  | returned {store : Store} {v : Value} {callers : List Watch} {w w' : Watch} {x : Showing}
      (hactive : w.active = true) (h : w.Shows store (callers.length + 1) (.returned v) x w') :
      Shown (w :: callers) ⟨store, .left (.ok v)⟩ [x] callers
  | raised {store : Store} {e : Fault} {callers : List Watch} {w w' : Watch} {x : Showing}
      (hactive : w.active = true)
      (h : w.Shows store (callers.length + 1) (.raised (e.kind.headline e.message)) x w') :
      Shown (w :: callers) ⟨store, .left (.error e)⟩ [x] callers
  | leftUnseen {store : Store} {result : Except Fault Value} {callers : List Watch} {w : Watch}
      (hinactive : w.active = false) : Shown (w :: callers) ⟨store, .left result⟩ [] callers

/-- What the hook is shown of all that the machine does, in order. -/
inductive Protocol : List Watch → List Moment → List Showing → List Watch → Prop
  | nil {watches : List Watch} : Protocol watches [] [] watches
  | cons {watches watches' watches'' : List Watch} {moment : Moment} {moments : List Moment}
      {xs ys : List Showing} (h : Shown watches moment xs watches')
      (rest : Protocol watches' moments ys watches'') :
      Protocol watches (moment :: moments) (xs ++ ys) watches''

theorem Protocol.single {watches watches' : List Watch} {moment : Moment} {xs : List Showing}
    (h : Shown watches moment xs watches') : Protocol watches [moment] xs watches' := by
  have hcons := Protocol.cons h .nil
  rwa [List.append_nil] at hcons

theorem Protocol.append {watches watches' watches'' : List Watch} {moments moments' : List Moment}
    {xs ys : List Showing} (h : Protocol watches moments xs watches')
    (h' : Protocol watches' moments' ys watches'') :
    Protocol watches (moments ++ moments') (xs ++ ys) watches'' := by
  induction h with
  | nil => exact h'
  | cons hshown _ ih =>
    rw [List.append_assoc]
    exact .cons hshown (ih h')

theorem Protocol.exists_of_append {watches watches' : List Watch} {moments moments' : List Moment}
    {xs : List Showing} (h : Protocol watches (moments ++ moments') xs watches') :
    ∃ mid ys zs, xs = ys ++ zs ∧ Protocol watches moments ys mid ∧
      Protocol mid moments' zs watches' := by
  induction moments generalizing watches xs with
  | nil => exact ⟨watches, [], xs, rfl, .nil, h⟩
  | cons moment moments ih =>
    obtain _ | @⟨_, _, _, _, _, ws, xs, hshown, rest⟩ := h
    obtain ⟨mid, ys, zs, rfl, hys, hzs⟩ := ih rest
    exact ⟨mid, ws ++ ys, zs, (List.append_assoc ..).symm, .cons hshown hys, hzs⟩

theorem Protocol.shown {watches watches' : List Watch} {moment : Moment} {xs : List Showing}
    (h : Protocol watches [moment] xs watches') : Shown watches moment xs watches' := by
  obtain _ | ⟨hshown, rest⟩ := h
  cases rest
  rwa [List.append_nil]

/-! ### The protocol leaves no choice -/

section Unique

variable {σ : Type} {hook : Tracer σ} {s t t' : σ} {store : Store} {depth : Nat} {w : Watch}

theorem Watch.Shows.unique {e : Trace.Event} {x x' : Showing} {w₁ w₂ : Watch}
    (h : w.Shows store depth e x w₁) (h' : w.Shows store depth e x' w₂)
    (ha : hook.Answers s [x] t) (ha' : hook.Answers s [x'] t') : x = x' ∧ w₁ = w₂ := by
  obtain rfl : x = x' :=
    ha.head_eq ha' (h.view.trans h'.view.symm) (h.event.trans h'.event.symm)
  exact ⟨rfl, h.next.trans h'.next.symm⟩

theorem Watch.Line.unique {xs xs' : List Showing} {w₁ w₂ : Watch}
    (h : w.Line store depth xs w₁) (h' : w.Line store depth xs' w₂) (ha : hook.Answers s xs t)
    (ha' : hook.Answers s xs' t') : xs = xs' ∧ w₁ = w₂ := by
  cases h with
  | shown hactive hlines hdue h =>
    cases h' with
    | shown _ _ _ h' =>
      obtain ⟨rfl, rfl⟩ := h.unique h' ha ha'
      exact ⟨rfl, rfl⟩
    | notDue hnot => exact absurd ⟨hactive, hlines, hdue⟩ hnot
  | notDue hnot =>
    cases h' with
    | shown hactive hlines hdue _ => exact absurd ⟨hactive, hlines, hdue⟩ hnot
    | notDue _ => exact ⟨rfl, rfl⟩

theorem Watch.Opcode.unique {xs xs' : List Showing} {w₁ w₂ : Watch}
    (h : w.Opcode store depth xs w₁) (h' : w.Opcode store depth xs' w₂)
    (ha : hook.Answers s xs t) (ha' : hook.Answers s xs' t') : xs = xs' ∧ w₁ = w₂ := by
  cases h with
  | shown hactive hopcodes h =>
    cases h' with
    | shown _ _ h' =>
      obtain ⟨rfl, rfl⟩ := h.unique h' ha ha'
      exact ⟨rfl, rfl⟩
    | notDue hnot => exact absurd ⟨hactive, hopcodes⟩ hnot
  | notDue hnot =>
    cases h' with
    | shown hactive hopcodes _ => exact absurd ⟨hactive, hopcodes⟩ hnot
    | notDue _ => exact ⟨rfl, rfl⟩

theorem Shown.unique {watches watches₁ watches₂ : List Watch} {moment : Moment}
    {xs xs' : List Showing} (h : Shown watches moment xs watches₁)
    (h' : Shown watches moment xs' watches₂) (ha : hook.Answers s xs t)
    (ha' : hook.Answers s xs' t') : xs = xs' ∧ watches₁ = watches₂ := by
  cases h with
  | entered h =>
    obtain ⟨h'⟩ := h'
    obtain ⟨rfl, rfl⟩ := h.unique h' ha ha'
    exact ⟨rfl, rfl⟩
  | executed _ hline hopcode =>
    obtain _ | ⟨_, hline', hopcode'⟩ := h'
    obtain ⟨u, hxs, hys⟩ := Tracer.answers_append.mp ha
    obtain ⟨u', hxs', hys'⟩ := Tracer.answers_append.mp ha'
    obtain ⟨rfl, rfl⟩ := hline.unique hline' hxs hxs'
    obtain rfl := hxs.state_eq hxs'
    obtain ⟨rfl, rfl⟩ := hopcode.unique hopcode' hys hys'
    exact ⟨rfl, rfl⟩
  | returned hactive h =>
    cases h' with
    | returned _ h' => exact ⟨congrArg (fun x => [x]) (h.unique h' ha ha').1, rfl⟩
    | leftUnseen hinactive => exact Bool.noConfusion (hactive.symm.trans hinactive)
  | raised hactive h =>
    cases h' with
    | raised _ h' => exact ⟨congrArg (fun x => [x]) (h.unique h' ha ha').1, rfl⟩
    | leftUnseen hinactive => exact Bool.noConfusion (hactive.symm.trans hinactive)
  | leftUnseen hinactive =>
    cases h' with
    | returned hactive _ | raised hactive _ =>
      exact Bool.noConfusion (hactive.symm.trans hinactive)
    | leftUnseen _ => exact ⟨rfl, rfl⟩

/-- Of what a machine does, a hook is shown one list of events only. -/
theorem Protocol.unique {watches watches₁ watches₂ : List Watch} {moments : List Moment}
    {xs xs' : List Showing} (h : Protocol watches moments xs watches₁)
    (h' : Protocol watches moments xs' watches₂) (ha : hook.Answers s xs t)
    (ha' : hook.Answers s xs' t') : xs = xs' ∧ watches₁ = watches₂ := by
  induction h generalizing s xs' with
  | nil =>
    cases h'
    exact ⟨rfl, rfl⟩
  | cons hshown _ ih =>
    obtain _ | ⟨hshown', rest'⟩ := h'
    obtain ⟨u, hxs, hys⟩ := Tracer.answers_append.mp ha
    obtain ⟨u', hxs', hys'⟩ := Tracer.answers_append.mp ha'
    obtain ⟨rfl, rfl⟩ := hshown.unique hshown' hxs hxs'
    obtain rfl := hxs.state_eq hxs'
    obtain ⟨rfl, rfl⟩ := ih rest' hys hys'
    exact ⟨rfl, rfl⟩

end Unique

/-! ### A machine under a hook -/

/-- The watched part of a frame. -/
def Frame.watch (f : Frame) : Watch := ⟨f.code, f.lasti, f.lastLine, f.active, f.flags⟩

def Phase.watches (phase : Phase) : List Watch := phase.frames.map Frame.watch

section Recorded

variable {σ : Type} (hook : Tracer σ)

/-- Between `t` and `t'` the recorded hook was shown the events `xs`. -/
structure Trace.Tracer.Recorded (t t' : σ × List Showing) (xs : List Showing) : Prop where
  kept : t'.2 = t.2 ++ xs
  answers : hook.Answers t.1 xs t'.1

variable {hook} {t t' t'' : σ × List Showing} {xs ys : List Showing}

theorem Trace.Tracer.Recorded.refl : hook.Recorded t t [] := ⟨(List.append_nil _).symm, rfl⟩

theorem Trace.Tracer.Recorded.append (h : hook.Recorded t t' xs) (h' : hook.Recorded t' t'' ys) :
    hook.Recorded t t'' (xs ++ ys) :=
  ⟨by rw [h'.kept, h.kept, List.append_assoc], h.answers.append h'.answers⟩

theorem Trace.Tracer.NeverAborts.recording (hcalm : hook.NeverAborts) :
    hook.recording.NeverAborts :=
  fun t => hcalm t.1

namespace Frame

theorem opcodeAt?_of_fetch {f : Frame} {op : Wordcode.Opcode} {low : UInt8}
    (h : f.fetch = .ok (op, low)) : f.code.opcodeAt? f.pc = some op := by
  unfold fetch at h
  split at h
  · rename_i byte low' hbyte _
    split at h
    · rename_i op' hop
      cases h
      rw [Code.opcodeAt?, hbyte]
      exact hop
    · cases h
  · cases h

variable (hook t) (vm : Vm) (f : Frame)

theorem recorded_notify (e : Trace.Event) :
    let n := f.notify hook.recording t vm e
    hook.Recorded t n.tracer [⟨f.watch.view vm.store vm.depth, e, n.frame.flags, n.verdict⟩] :=
  ⟨rfl, rfl, rfl, rfl⟩

theorem shows_notifyLocal {f : Frame} (hactive : f.active = true) (e : Trace.Event) :
    let n := f.notifyLocal hook.recording t vm e
    ∃ x, hook.Recorded t n.tracer [x] ∧
      f.watch.Shows vm.store vm.depth e x n.frame.watch ∧
      (n.frame.active = true ↔ n.verdict = .proceed) := by
  intro n
  have hrecorded := f.recorded_notify hook t vm e
  unfold n notifyLocal
  dsimp only
  split
  · rename_i hverdict
    refine ⟨_, hrecorded, ⟨rfl, rfl, ?_⟩, iff_of_true hactive hverdict⟩
    exact congrArg (fun b => Watch.mk f.code f.lasti f.lastLine b _)
      (hactive.trans (decide_eq_true hverdict).symm)
  · rename_i hverdict
    refine ⟨_, hrecorded, ⟨rfl, rfl, ?_⟩, iff_of_false Bool.false_ne_true hverdict⟩
    exact congrArg (fun b => Watch.mk f.code f.lasti f.lastLine b _)
      (decide_eq_false hverdict).symm

theorem line_notifyLine {f : Frame} (hactive : f.active = true) :
    let n := f.notifyLine hook.recording t vm
    ∃ xs, hook.Recorded t n.tracer xs ∧ f.watch.Line vm.store vm.depth xs n.frame.watch ∧
      (n.frame.active = true ↔ n.verdict = .proceed) := by
  intro n
  have hdue : f.entersLine f.lasti = true ↔ f.watch.EntersLine := by
    simp [entersLine, Watch.EntersLine, watch]
  unfold n notifyLine
  split
  · rename_i h
    rw [Bool.and_eq_true] at h
    have hactive' : { f with lastLine := some (f.code.lineAt f.lasti) }.active = true := hactive
    obtain ⟨x, hrecorded, hshows, hverdict⟩ := shows_notifyLocal hook t vm hactive'
      (.line (f.code.lineAt f.lasti))
    exact ⟨[x], hrecorded, .shown hactive h.1 (hdue.mp h.2) hshows, hverdict⟩
  · rename_i h
    refine ⟨[], .refl, .notDue ?_, iff_of_true hactive rfl⟩
    rintro ⟨-, hlines, henters⟩
    exact h (Bool.and_eq_true_iff.mpr ⟨hlines, hdue.mpr henters⟩)

theorem opcode_notifyOpcode {f : Frame} (hactive : f.active = true) :
    let n := f.notifyOpcode hook.recording t vm
    ∃ xs, hook.Recorded t n.tracer xs ∧ f.watch.Opcode vm.store vm.depth xs n.frame.watch := by
  intro n
  unfold n notifyOpcode
  split
  · rename_i hopcodes
    obtain ⟨x, hrecorded, hshows, -⟩ := shows_notifyLocal hook t vm hactive .opcode
    exact ⟨[x], hrecorded, .shown hactive hopcodes hshows⟩
  · rename_i hopcodes
    exact ⟨[], .refl, .notDue fun h => hopcodes h.2⟩

/-- The events of an instruction follow the protocol. -/
theorem shown_notifyInstruction :
    let n := f.notifyInstruction hook.recording t vm
    ∃ xs ys w, hook.Recorded t n.tracer (xs ++ ys) ∧ f.watch.Line vm.store vm.depth xs w ∧
      w.Opcode vm.store vm.depth ys n.frame.watch := by
  intro n
  unfold n notifyInstruction
  split
  · rename_i hactive
    obtain ⟨xs, hxs, hline, hverdict⟩ := line_notifyLine hook t vm hactive
    dsimp only
    split
    · rename_i hproceed
      obtain ⟨ys, hys, hopcode⟩ := opcode_notifyOpcode hook _ vm (hverdict.mpr hproceed)
      exact ⟨xs, ys, _, hxs.append hys, hline, hopcode⟩
    -- A line event that was answered with `stop` leaves no opcode event due.
    · rename_i hstop
      refine ⟨xs, [], _, hxs.append .refl, hline, .notDue ?_⟩
      exact fun h => hstop (hverdict.mp h.1)
  · rename_i hinactive
    exact ⟨[], [], _, .refl, .notDue fun h => hinactive h.1, .notDue fun h => hinactive h.1⟩

end Frame

namespace Machine

/-- Since `t`, with the given watched frames, the machine has done `moments`, and the recorded hook
was shown what the protocol says. -/
def Follows (hook : Tracer σ) (t : σ × List Showing) (watches : List Watch) (moments : List Moment)
    (m : Machine (σ × List Showing)) : Prop :=
  ∃ xs, hook.Recorded t m.tracer xs ∧ Protocol watches moments xs m.phase.watches

theorem Follows.append {m m' : Machine (σ × List Showing)} {watches : List Watch}
    {moments moments' : List Moment} (h : m.Follows hook t watches moments)
    (h' : m'.Follows hook m.tracer m.phase.watches moments') :
    m'.Follows hook t watches (moments ++ moments') := by
  obtain ⟨xs, hxs, hprotocol⟩ := h
  obtain ⟨ys, hys, hprotocol'⟩ := h'
  exact ⟨xs ++ ys, hxs.append hys, hprotocol.append hprotocol'⟩

theorem follows_of_eq {m : Machine (σ × List Showing)} {watches : List Watch}
    (hwatches : m.phase.watches = watches) (htracer : m.tracer = t) : m.Follows hook t watches [] :=
  ⟨[], htracer ▸ .refl, hwatches ▸ .nil⟩

section Turns

variable {τ : Type} (vm : Vm) (u : τ) (result : Except Fault Value) (f : Frame)
  (callers : List Frame)

theorem turn?_entered :
    turn? ⟨vm, u, .running f callers⟩ callers.length = some ⟨vm.store, .entered f.code⟩ :=
  if_pos (Nat.lt_succ_self _)

theorem turn?_left :
    turn? ⟨vm, u, .giving result callers⟩ (callers.length + 1) = some ⟨vm.store, .left result⟩ :=
  if_pos (Nat.lt_succ_self _)

theorem turn?_running : turn? ⟨vm, u, .running f callers⟩ (callers.length + 1) = none :=
  if_neg (Nat.lt_irrefl _)

theorem turn?_giving : turn? ⟨vm, u, .giving result callers⟩ callers.length = none :=
  if_neg (Nat.lt_irrefl _)

theorem turn?_self (m : Machine τ) : m.turn? m.phase.frames.length = none := by
  obtain ⟨vm, u, phase⟩ := m
  cases phase with
  | running f callers => exact turn?_running vm u f callers
  | giving result callers => exact turn?_giving vm u result callers
  | unwinding frames => rfl

end Turns

theorem executing?_of_error {τ : Type} {vm : Vm} {u : τ} {f : Frame} {callers : List Frame}
    {e : Fault} (h : f.fetch = .error e) : executing? ⟨vm, u, .running f callers⟩ = none := by
  unfold executing?
  dsimp only
  rw [h]
  rfl

theorem executing?_of_ok {τ : Type} {vm : Vm} {u : τ} {f : Frame} {callers : List Frame}
    {op : Opcode} {low : UInt8} (h : f.fetch = .ok (op, low)) :
    executing? ⟨vm, u, .running f callers⟩ = some ⟨vm.store, .executed f.pc op⟩ := by
  unfold executing?
  dsimp only
  rw [h]
  rfl

variable (t) (hcalm : hook.NeverAborts) {vm : Vm}
include hcalm

theorem follows_begin (code : Code) (args : List Value) {callers : List Frame}
    (hdepth : vm.depth = callers.length + 1) :
    let m := begin (some hook.recording) vm t (Frame.enter code args) callers
    m.Follows hook t (callers.map Frame.watch) (m.turn? callers.length).toList := by
  intro m
  have hlength : (callers.map Frame.watch).length + 1 = vm.depth := by rw [hdepth, List.length_map]
  have hrecorded := (Frame.enter code args).recorded_notify hook t vm .call
  have hverdict := Frame.verdict_notify_ne hcalm.recording t vm (Frame.enter code args) .call
  unfold m begin
  dsimp only
  split
  · rename_i hproceed
    rw [turn?_entered]
    refine ⟨_, hrecorded, .single (.entered ⟨hlength ▸ rfl, rfl, ?_⟩)⟩
    exact congrArg (fun b => Watch.mk code 0 none b _) (decide_eq_true hproceed).symm
  · rename_i hstop
    rw [turn?_entered]
    refine ⟨_, hrecorded, .single (.entered ⟨hlength ▸ rfl, rfl, ?_⟩)⟩
    exact congrArg (fun b => Watch.mk code 0 none b _)
      (decide_eq_false fun hproceed => Verdict.noConfusion (hstop.symm.trans hproceed)).symm
  · rename_i habort
    exact absurd habort hverdict

theorem follows_enter (code : Code) (args : List Value) {callers : List Frame}
    (hdepth : vm.depth = callers.length) :
    let m := enter (some hook.recording) vm t code args callers
    m.Follows hook t (callers.map Frame.watch) (m.turn? callers.length).toList := by
  intro m
  by_cases hargs : args.length = code.argcount
  · rcases Nat.lt_or_ge vm.depth vm.limit with hlimit | hlimit
    · have hm : m = _ := enter_of_lt_limit hargs hlimit
      rw [hm]
      exact follows_begin t hcalm code args (congrArg (· + 1) hdepth)
    · have hm : m = _ := enter_of_limit_le hargs hlimit
      rw [hm, turn?_giving]
      exact follows_of_eq rfl rfl
  · have hm : m = _ := enter_of_length_ne hargs
    rw [hm, turn?_giving]
    exact follows_of_eq rfl rfl

/-- A call sends an event if it enters a frame, and none otherwise. -/
theorem follows_invoke (callee : Value) (args : List Value) {callers : List Frame}
    (hdepth : vm.depth = callers.length) :
    let m := invoke (some hook.recording) vm t callee args callers
    m.Follows hook t (callers.map Frame.watch) (m.turn? callers.length).toList := by
  intro m
  cases callee with
  | function id => exact follows_enter t hcalm _ args hdepth
  | _ =>
    rw [show m = ⟨_, t, .giving _ callers⟩ from rfl, turn?_giving]
    exact follows_of_eq rfl rfl

theorem follows_leave (f : Frame) (result : Except Fault Value) {callers : List Frame}
    (hdepth : vm.depth = callers.length + 1) :
    let m := leave (some hook.recording) vm t f result callers
    m.Follows hook t (f.watch :: callers.map Frame.watch)
      (m.turn? (callers.length + 1)).toList := by
  intro m
  have hlength : (callers.map Frame.watch).length + 1 = vm.depth := by rw [hdepth, List.length_map]
  cases hactive : f.active with
  | false =>
    have hm : m = _ := leave_of_inactive hactive
    rw [hm, turn?_left]
    exact ⟨[], .refl, .single (.leftUnseen hactive)⟩
  | true =>
    have hm : m = _ := leave_of_active hactive
    have hrecorded := f.recorded_notify hook t vm (lastEvent result)
    rw [hm]
    dsimp only
    rw [if_neg (Frame.verdict_notify_ne hcalm.recording t vm f (lastEvent result)), turn?_left]
    refine ⟨_, hrecorded, .single ?_⟩
    cases result with
    | ok v => exact .returned hactive ⟨hlength ▸ rfl, rfl, rfl⟩
    | error e => exact .raised hactive ⟨hlength ▸ rfl, rfl, rfl⟩

theorem follows_proceed {f : Frame} {e : Effect} {callers : List Frame}
    (hwatch : e.frame.watch = f.watch) (hdepth : e.vm.depth = callers.length + 1) :
    let m := proceed (some hook.recording) t callers e
    m.Follows hook t (f.watch :: callers.map Frame.watch)
      (m.turn? (callers.length + 1)).toList := by
  intro m
  rw [← hwatch]
  cases e with
  | next vm g =>
    rw [show m = ⟨vm, t, .running g callers⟩ from rfl, turn?_running]
    exact follows_of_eq rfl rfl
  | jump vm g target =>
    rw [show m = ⟨vm, t, .running { g with pc := target * 2 } callers⟩ from rfl, turn?_running]
    exact follows_of_eq rfl rfl
  | call vm g callee args =>
    have hdepth : vm.depth = (g :: callers).length := hdepth
    exact follows_invoke t hcalm callee args hdepth
  | leave vm g result => exact follows_leave t hcalm g result hdepth

theorem follows_executeNext (f : Frame) {callers : List Frame}
    (hdepth : vm.depth = callers.length + 1) :
    let m := executeNext (some hook.recording) vm t f callers
    m.Follows hook t (f.watch :: callers.map Frame.watch)
      ((executing? ⟨vm, t, .running f callers⟩).toList ++
        (m.turn? (callers.length + 1)).toList) := by
  intro m
  cases hfetch : f.fetch with
  | error e =>
    have hm : m = _ := executeNext_of_error hfetch
    rw [hm, executing?_of_error hfetch]
    exact follows_leave t hcalm f (.error e) hdepth
  | ok fetched =>
    obtain ⟨op, low⟩ := fetched
    have hm : m = _ := executeNext_some hfetch
    have hlength : (callers.map Frame.watch).length + 1 = vm.depth := by
      rw [hdepth, List.length_map]
    obtain ⟨xs, ys, w, hrecorded, hline, hopcode⟩ :=
      (f.advance op (foldArg f.pending low)).shown_notifyInstruction hook t vm.count
    have hcalm' := Frame.verdict_notifyInstruction_ne hcalm.recording t vm.count
      (f.advance op (foldArg f.pending low))
    dsimp only at hm
    rw [if_neg hcalm'] at hm
    rw [executing?_of_ok hfetch]
    generalize (f.advance op (foldArg f.pending low)).notifyInstruction hook.recording t vm.count =
      n at hm hrecorded hopcode
    have hevents : Follows hook t (f.watch :: callers.map Frame.watch)
        [⟨vm.store, .executed f.pc op⟩] ⟨vm.count, n.tracer, .running n.frame callers⟩ :=
      ⟨xs ++ ys, hrecorded, .single (.executed (Frame.opcodeAt?_of_fetch hfetch)
        (hlength ▸ hline) (hlength ▸ hopcode))⟩
    -- The events have changed what is watched of the frame; the instruction does not.
    refine hevents.append ?_
    rw [hm]
    refine follows_proceed n.tracer hcalm ?_ ?_
    · rw [frame_execute]
      rfl
    · rw [vm_execute]
      exact hdepth

/-- What the hook is shown in a step follows the protocol. -/
theorem follows_step {m : Machine (σ × List Showing)} (hsteady : m.Steady)
    (hdepth : m.vm.depth = m.phase.frames.length) :
    let m' := m.step (some hook.recording)
    m'.Follows hook m.tracer m.phase.watches
      (m.executing?.toList ++ (m'.turn? m.phase.frames.length).toList) := by
  intro m'
  obtain ⟨vm, t, phase⟩ := m
  cases phase with
  | running f callers => exact follows_executeNext t hcalm f hdepth
  | giving result frames =>
    cases frames with
    | nil =>
      have hm : m' = ⟨vm, t, .giving result []⟩ := by cases result <;> rfl
      rw [hm]
      exact follows_of_eq rfl rfl
    | cons f callers =>
      cases result with
      | ok v =>
        rw [show m' = ⟨vm, t, .running (f.push v) callers⟩ from rfl,
          show Phase.frames _ = f :: callers from rfl, List.length_cons, turn?_running]
        exact follows_of_eq rfl rfl
      | error e => exact follows_leave t hcalm f (.error e) hdepth
  | unwinding frames => exact absurd rfl (hsteady frames)

end Machine

end Recorded

/-! ### Frames that are entered -/

/-- A frame for the code was just entered, if there were `active` frames before. -/
def Machine.Entered {σ : Type} (m : Machine σ) (active : Nat) (code : Code) : Prop :=
  ∃ store, m.turn? active = some ⟨store, .entered code⟩

namespace Machine

variable {σ : Type} {m : Machine σ} {code : Code}

theorem not_entered {active : Nat} (h : m.turn? active = none) : ¬m.Entered active code := by
  rintro ⟨store, hstore⟩
  rw [h] at hstore
  cases hstore

theorem not_entered_of_left {active : Nat} {store : Store} {result : Except Fault Value}
    (h : m.turn? active = some ⟨store, .left result⟩) : ¬m.Entered active code := by
  rintro ⟨store', hstore⟩
  rw [h] at hstore
  cases hstore

end Machine

/-- A call enters a frame exactly if a function is called with as many arguments as it takes and
there is room for a frame. -/
theorem Called.entered_iff {σ : Type} {vm : Vm} {callee : Value} {args : List Value}
    {callers : List Frame} {m : Machine σ} {code : Code}
    (h : Called vm callee args callers m.vm m.phase) (hsteady : m.Steady)
    (hdepth : vm.depth = callers.length) :
    m.Entered callers.length code ↔ vm.Calls callee args code ∧ callers.length < vm.limit := by
  obtain ⟨vm', s, phase⟩ := m
  rw [← hdepth]
  cases h with
  | @entered f hcalls hroom =>
    constructor
    · rintro ⟨store, hstore⟩
      rw [hdepth, Machine.turn?_entered] at hstore
      cases hstore
      exact ⟨hcalls, hroom⟩
    · rintro ⟨hcalls', -⟩
      obtain ⟨id, rfl, hcode, -⟩ := hcalls
      obtain ⟨id', hid, hcode', -⟩ := hcalls'
      cases hid
      rw [hdepth]
      exact ⟨_, (Machine.turn?_entered _ s f callers).trans (by rw [← hcode, hcode'])⟩
  | givenUp => exact absurd rfl (hsteady _)
  | refused _ hfull =>
    rw [hdepth] at hfull ⊢
    exact iff_of_false (Machine.not_entered (Machine.turn?_giving ..))
      fun h => Nat.not_lt.mpr hfull h.2
  | answered hcalls =>
    rw [hdepth]
    exact iff_of_false (Machine.not_entered (Machine.turn?_giving ..)) fun h => hcalls code h.1

theorem Machine.entered_step_iff {σ : Type} {hook : Option (Tracer σ)} {m : Machine σ}
    (hsteady : (m.step hook).Steady) (hdepth : m.vm.depth = m.phase.frames.length) {code : Code} :
    (m.step hook).Entered m.phase.frames.length code ↔
      ∃ callee args, m.call? hook = some (callee, args) ∧ m.vm.Calls callee args code ∧
        m.phase.frames.length < m.vm.limit := by
  have hmove := move_step hook m
  unfold MovedFrom at hmove
  obtain ⟨vm, s, phase⟩ := m
  generalize hm' : step hook _ = m' at hmove hsteady ⊢
  generalize call? hook _ = c at hmove ⊢
  obtain ⟨vm', s', phase'⟩ := m'
  dsimp only at hmove hdepth ⊢
  -- Without a call nothing is entered.
  have hnone : ∀ active, ¬Entered ⟨vm', s', phase'⟩ active code →
      (Entered ⟨vm', s', phase'⟩ active code ↔ ∃ callee args, none = some (callee, args) ∧
        vm.Calls callee args code ∧ active < vm.limit) := by
    intro active hnot
    refine iff_of_false hnot ?_
    rintro ⟨callee, args, hcall, -⟩
    cases hcall
  cases hmove with
  | ended => exact hnone _ (not_entered (turn?_self ⟨vm, s', phase⟩))
  | resumed | went => exact hnone _ (not_entered (turn?_running ..))
  | passedOn | left => exact hnone _ (not_entered_of_left (turn?_left ..))
  | unwound | gaveUp => exact absurd rfl (hsteady _)
  | called h =>
    refine (@Called.entered_iff _ _ _ _ _ ⟨vm', s', phase'⟩ _ h hsteady hdepth).trans ?_
    constructor
    · rintro ⟨hcalls, hroom⟩
      exact ⟨_, _, rfl, hcalls, hroom⟩
    · rintro ⟨callee, args, hcall, hcalls, hroom⟩
      cases hcall
      exact ⟨hcalls, hroom⟩

theorem Vm.entered_start_iff {σ : Type} {hook : Option (Tracer σ)} {vm : Vm} {s : σ}
    {request : Request} (hsteady : (vm.start hook s request).Steady) (hdepth : vm.depth = 0)
    {code : Code} :
    (vm.start hook s request).Entered 0 code ↔
      ∃ callee args, vm.call? request = some (callee, args) ∧ vm.Calls callee args code ∧
        0 < vm.limit := by
  obtain ⟨callee, args, hcall, h⟩ | ⟨hcall, -, e, -, hphase⟩ := vm.called_start hook s request
  · refine (h.entered_iff hsteady hdepth).trans ?_
    constructor
    · rintro ⟨hcalls, hroom⟩
      exact ⟨callee, args, hcall, hcalls, hroom⟩
    · rintro ⟨callee', args', hcall', hcalls, hroom⟩
      cases hcall.symm.trans hcall'
      exact ⟨hcalls, hroom⟩
  · refine iff_of_false ?_ ?_
    · generalize vm.start hook s request = m at hphase ⊢
      obtain ⟨vm', s', phase⟩ := m
      obtain rfl := hphase
      exact Machine.not_entered (Machine.turn?_giving ..)
    · rintro ⟨callee, args, hcall', -⟩
      cases hcall.symm.trans hcall'

/-! ### Runs -/

namespace Machine

variable {σ : Type}

theorem Steady.of_untraced {m : Machine σ} (h : m.untraced.Steady) : m.Steady := by
  intro frames hphase
  exact h (frames.map Frame.untraced) (congrArg Phase.untraced hphase)

/-- The machine `m'` has the same store and, but for what belongs to a hook, the same frames. -/
structure Shadows (m' : Machine Unit) (m : Machine σ) : Prop where
  store : m'.vm.store = m.vm.store
  phase : m'.phase = m.phase.untraced

variable {m : Machine σ} {m' : Machine Unit}

theorem Shadows.executing? (h : m'.Shadows m) : m'.executing? = m.executing? := by
  obtain ⟨vm, s, phase⟩ := m
  obtain ⟨vm', s', phase'⟩ := m'
  obtain ⟨hstore, rfl⟩ := h
  cases phase with
  | running f callers =>
    show (f.fetch.toOption.map fun (op, _) => Moment.mk vm'.store (.executed f.pc op)) = _
    rw [hstore]
    rfl
  | _ => rfl

theorem Shadows.frames_length (h : m'.Shadows m) :
    m'.phase.frames.length = m.phase.frames.length := by
  obtain ⟨vm, s, phase⟩ := m
  rw [h.phase]
  cases phase <;> simp [Phase.untraced, Phase.frames]

theorem Shadows.turn? (h : m'.Shadows m) (active : Nat) : m'.turn? active = m.turn? active := by
  obtain ⟨vm, s, phase⟩ := m
  obtain ⟨vm', s', phase'⟩ := m'
  obtain ⟨hstore, rfl⟩ := h
  dsimp only at hstore
  cases phase <;> simp [Machine.turn?, Phase.untraced, Frame.untraced, hstore]

end Machine

namespace Vm

variable {σ : Type} {hook : Tracer σ} (hcalm : hook.NeverAborts) {vm : Vm} (s : σ)
  (request : Request) (n : Nat)
include hcalm

theorem shadows_stepped :
    (vm.stepped none () request n).Shadows (vm.stepped (some hook) s request n) := by
  obtain ⟨hvm, hphase⟩ := vm.lockstep hcalm s request n
  exact ⟨(congrArg Vm.store hvm).symm, hphase.symm⟩

theorem steady_stepped : (vm.stepped (some hook) s request n).Steady := by
  refine .of_untraced ?_
  have hsteady := (vm.steady_start request).iterate_step n
  intro frames hphase
  exact hsteady frames ((shadows_stepped hcalm s request n).phase.trans hphase)

theorem follows_start (hdepth : vm.depth = 0) (t : σ × List Showing) :
    let m := vm.start (some hook.recording) t request
    m.Follows hook t [] (m.turn? 0).toList := by
  have hdepth : vm.depth = ([] : List Frame).length := hdepth
  cases request with
  | run id => exact Machine.follows_enter t hcalm _ [] hdepth
  | call callee args => exact Machine.follows_invoke t hcalm callee args hdepth
  | callGlobal name args =>
    rw [start]
    split
    · exact Machine.follows_invoke t hcalm _ args hdepth
    · exact Machine.follows_of_eq rfl rfl

/-- From one step of an operation to the next the hook is shown what the protocol says. -/
theorem follows_next (hdepth : vm.depth = 0) (t : σ × List Showing) :
    let m := vm.stepped (some hook.recording) t request n
    let m' := vm.stepped (some hook.recording) t request (n + 1)
    m'.Follows hook m.tracer m.phase.watches
      (m.executing?.toList ++ (m'.turn? m.phase.frames.length).toList) := by
  have hstep := Machine.follows_step hcalm (steady_stepped hcalm.recording t request n)
    (balances_stepped (some hook.recording) hdepth t request n).depth
  dsimp only at hstep ⊢
  rwa [← stepped_succ] at hstep

/-- What the hook is shown follows the protocol all along, by induction on the steps. -/
theorem follows_stepped (hdepth : vm.depth = 0) (t : σ × List Showing) :
    (vm.stepped (some hook.recording) t request n).Follows hook t [] (vm.moments request n) := by
  have hshadows : ∀ n, (vm.stepped none () request n).Shadows
      (vm.stepped (some hook.recording) t request n) := shadows_stepped hcalm.recording t request
  induction n with
  | zero =>
    rw [moments, show vm.start none () request = vm.stepped none () request 0 from rfl,
      (hshadows 0).turn?]
    have hdepth : vm.installHook.depth = 0 := hdepth
    exact follows_start hcalm request hdepth t
  | succ n ih =>
    have hstep := follows_next hcalm request n hdepth t
    dsimp only at hstep
    rw [← (hshadows n).executing?, ← (hshadows n).frames_length, ← (hshadows (n + 1)).turn?,
      stepped_succ none] at hstep
    exact ih.append hstep

end Vm

/-- The event protocol.  What a hook that never gives up is shown of an operation follows the
protocol of what the machine does without the hook, up to every step, and with the hook's answers
nothing else would; when the operation has ended, no frame is left that could send an event.  Frames
are entered by the calls of functions with as many arguments as they take while there is room, and
by no others. -/
theorem events_follow_protocol {σ : Type} {hook : Tracer σ} (hcalm : hook.NeverAborts) {vm : Vm}
    (hdepth : vm.depth = 0) (s : σ) (request : Request) :
    (∀ n,
      let m := vm.stepped (some hook) s request n
      let xs := vm.shown (some hook) s request n
      Protocol [] (vm.moments request n) xs m.phase.watches ∧ hook.Answers s xs m.tracer ∧
        ∀ ys watches t, Protocol [] (vm.moments request n) ys watches → hook.Answers s ys t →
          ys = xs) ∧
    (∀ fuel r, vm.trace hook s request fuel = some r →
      let xs := vm.shown (some hook) s request fuel
      Protocol [] (vm.moments request fuel) xs [] ∧ hook.Answers s xs r.tracer) ∧
    (∀ code, (vm.start none () request).Entered 0 code ↔
      ∃ callee args, vm.call? request = some (callee, args) ∧ vm.Calls callee args code ∧
        0 < vm.limit) ∧
    ∀ n code,
      let m := vm.stepped none () request n
      (m.step none).Entered m.phase.frames.length code ↔
        ∃ callee args, m.call? none = some (callee, args) ∧ m.vm.Calls callee args code ∧
          m.phase.frames.length < vm.limit := by
  have hruns : ∀ n, Protocol [] (vm.moments request n) (vm.shown (some hook) s request n)
        (vm.stepped (some hook) s request n).phase.watches ∧
      hook.Answers s (vm.shown (some hook) s request n)
        (vm.stepped (some hook) s request n).tracer := by
    intro n
    obtain ⟨xs, hrecorded, hprotocol⟩ := Vm.follows_stepped hcalm request n hdepth (s, [])
    have hxs : vm.shown (some hook) s request n = xs := hrecorded.kept
    rw [Vm.stepped_recording _ vm s request [] n, hxs]
    exact ⟨hprotocol, hrecorded.answers⟩
  refine ⟨fun n => ⟨(hruns n).1, (hruns n).2, ?_⟩, ?_, ?_, ?_⟩
  · intro ys watches t hys hanswers
    exact (hys.unique (hruns n).1 hanswers (hruns n).2).1
  · intro fuel r hr
    have hr : vm.operate (some hook) s request fuel = some r := hr
    obtain ⟨hending, -, htracer⟩ := Vm.stepped_of_operate hr
    obtain ⟨hprotocol, hanswers⟩ := hruns fuel
    rw [Phase.watches, Phase.frames_of_ending? hending] at hprotocol
    rw [← htracer] at hanswers
    exact ⟨hprotocol, hanswers⟩
  · intro code
    exact Vm.entered_start_iff (vm.steady_start request) hdepth
  · intro n code m
    obtain ⟨hdepth', hlimit, -⟩ := Vm.balances_stepped none hdepth () request n
    have hsteady := ((vm.steady_start request).iterate_step n).step
    rw [← show m.vm.limit = vm.limit from hlimit]
    exact Machine.entered_step_iff hsteady hdepth'

/-- The restless hook is shown the call of the inner frame though it wanted no more of the outer
one. -/
theorem events_follow_protocol_restless :
    restlessHook.NeverAborts ∧ nestedVm.depth = 0 ∧
      let xs := nestedVm.shown (some restlessHook) 0 (.run ⟨0⟩) 6
      xs.map (fun x => (x.event, x.view.depth)) =
        [(.call, 1), (.line 1, 1), (.call, 2), (.line 1, 2)] ∧
      Protocol [] (nestedVm.moments (.run ⟨0⟩) 6) xs [] := by
  have hcalm : restlessHook.NeverAborts := by
    intro s view e
    unfold restlessHook
    dsimp only
    split <;> decide
  have hdepth : nestedVm.depth = 0 := rfl
  exact ⟨hcalm, hdepth, rfl, ((events_follow_protocol hcalm hdepth 0 (.run ⟨0⟩)).1 6).1⟩

end Wordcode
