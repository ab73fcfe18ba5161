import Wordcode.Proofs.Frames

/-! Activations: the life of one frame, from the step that enters it to the one that leaves it.  No
step enters more than one frame, so a frame that is active now was entered at some moment and has
been active since; and what its own instructions keep, it keeps through all calls that it makes. -/

namespace Wordcode

open Trace

/-! ### The life of a frame -/

namespace Vm

variable {σ : Type} (hook : Option (Tracer σ)) (vm : Vm) (s : σ) (request : Request)

/-- The number of active frames after `n` steps of an operation. -/
def height (n : Nat) : Nat := (vm.stepped hook s request n).phase.frames.length

/-- The number of active frames before the last of `n` steps. -/
def heightBefore : Nat → Nat
  | 0 => 0
  | n + 1 => vm.height hook s request n

/-- The call that is made in the last of `a` steps, or the one that the operation begins with, with
its arguments. -/
def lastCall? : Nat → Option (Value × List Value)
  | 0 => vm.call? request
  | n + 1 => (vm.stepped hook s request n).call? hook

/-- A frame was entered in the last of `a` steps, or at the start, and is active all along the next
`k` steps. -/
structure Lives (a k : Nat) : Prop where
  entered : vm.heightBefore hook s request a < vm.height hook s request a
  stays : ∀ i ≤ k, vm.height hook s request a ≤ vm.height hook s request (a + i)

variable {hook vm s request}

theorem Lives.zero {a : Nat}
    (hentered : vm.heightBefore hook s request a < vm.height hook s request a) :
    vm.Lives hook s request a 0 := by
  refine ⟨hentered, fun i hi => ?_⟩
  rw [Nat.le_zero.mp hi]
  exact Nat.le_refl _

theorem Lives.succ {a k : Nat} (h : vm.Lives hook s request a k)
    (hstays : vm.height hook s request a ≤ vm.height hook s request (a + k + 1)) :
    vm.Lives hook s request a (k + 1) := by
  refine ⟨h.entered, fun i hi => ?_⟩
  rcases Nat.le_succ_iff.mp hi with hi | rfl
  · exact h.stays i hi
  · exact hstays

theorem Lives.of_succ {a k : Nat} (h : vm.Lives hook s request a (k + 1)) :
    vm.Lives hook s request a k :=
  ⟨h.entered, fun i hi => h.stays i (Nat.le_succ_of_le hi)⟩

end Vm

theorem Machine.FrameMove.length_le {σ : Type} {hook : Option (Tracer σ)} {m : Machine σ}
    {frames : List Frame} (h : m.FrameMove hook frames) :
    frames.length ≤ m.phase.frames.length + 1 := by
  cases h with
  | ended => exact Nat.zero_le _
  | kept hframes => simp [hframes]
  | left hframes => simp [hframes, Nat.le_add_right_of_le]
  | executed hphase | jumped hphase | entered hphase => simp [hphase, Phase.frames]

namespace Vm

variable {σ : Type} (hook : Option (Tracer σ)) (vm : Vm) (s : σ) (request : Request)

theorem height_le (n : Nat) :
    vm.height hook s request n ≤ vm.heightBefore hook s request n + 1 := by
  cases n with
  | zero =>
    rw [height, stepped, Function.iterate_zero_apply]
    obtain hnone | ⟨_, _, g, -, hframes, -⟩ := frames_start hook (vm.setUp hook) s request
    · simp [hnone]
    · simp [hframes]
  | succ n =>
    rw [height, stepped_succ]
    exact (Machine.frameMove_step hook _).length_le

/-- Every active frame was entered at some moment, and has been active since; by induction on the
steps, of which the last has entered it or not. -/
theorem exists_lives {n depth : Nat} (hpos : 0 < depth)
    (hle : depth ≤ vm.height hook s request n) :
    ∃ a k, a + k = n ∧ vm.Lives hook s request a k ∧ vm.height hook s request a = depth := by
  have hgrows := vm.height_le hook s request n
  induction n with
  | zero =>
    rw [heightBefore] at hgrows
    exact ⟨0, 0, rfl, .zero (Nat.lt_of_lt_of_le hpos hle), by omega⟩
  | succ n ih =>
    rw [heightBefore] at hgrows
    rcases Nat.lt_or_ge (vm.height hook s request n) depth with hbefore | hbefore
    · exact ⟨n + 1, 0, rfl, .zero (Nat.lt_of_lt_of_le hbefore hle), by omega⟩
    · obtain ⟨a, k, rfl, hlives, rfl⟩ := ih hbefore (vm.height_le hook s request n)
      exact ⟨a, k + 1, rfl, hlives.succ hle, rfl⟩

variable {hook vm s request}

/-- The frame that is entered is that of the call that was made, before its first instruction. -/
theorem exists_begins {a : Nat}
    (h : vm.heightBefore hook s request a < vm.height hook s request a) :
    ∃ callee args f callers, vm.lastCall? hook s request a = some (callee, args) ∧
      (vm.stepped hook s request a).phase.frames = f :: callers ∧ f.Begins args := by
  cases a with
  | zero =>
    rw [height, stepped, Function.iterate_zero_apply] at h
    rw [stepped, Function.iterate_zero_apply]
    obtain hnone | ⟨callee, args, g, hcall, hframes, -, hbegins⟩ :=
      frames_start hook (vm.setUp hook) s request
    · rw [hnone] at h
      exact absurd h (Nat.lt_irrefl 0)
    · rw [call?_setUp] at hcall
      exact ⟨callee, args, g, [], hcall, hframes, hbegins⟩
  | succ n =>
    have hle := vm.height_le hook s request (n + 1)
    rw [heightBefore] at h hle
    obtain ⟨callee, args, g, callers, hcall, hframes, -, hbegins⟩ :=
      begins_stepped hook vm s request (Nat.le_antisymm hle h)
    exact ⟨callee, args, g, callers, hcall, hframes, hbegins⟩

end Vm

/-! ### The frame at a depth -/

/-- The frame at the given depth, counted from the outermost one, has the property `P`. -/
def FrameAt (frames : List Frame) (depth : Nat) (P : Frame → Prop) : Prop :=
  ∃ f outer, f :: outer <:+ frames ∧ outer.length + 1 = depth ∧ P f

/-- The frame on top is the one at its depth. -/
theorem FrameAt.top {f : Frame} {callers : List Frame} {depth : Nat} {P : Frame → Prop}
    (h : FrameAt (f :: callers) depth P) (hdepth : callers.length + 1 = depth) : P f := by
  obtain ⟨g, outer, hsuffix, rfl, hg⟩ := h
  cases hsuffix.eq_of_length hdepth.symm
  exact hg

/-- The frame on top is at the given depth, or the frame at the depth is among the others. -/
theorem FrameAt.of_cons {f : Frame} {callers : List Frame} {depth : Nat} {P : Frame → Prop}
    (h : FrameAt (f :: callers) depth P) :
    callers.length + 1 = depth ∧ P f ∨ FrameAt callers depth P := by
  obtain ⟨g, outer, hsuffix, rfl, hg⟩ := h
  rcases List.suffix_cons_iff.mp hsuffix with heq | hsuffix
  · cases heq
    exact Or.inl ⟨rfl, hg⟩
  · exact Or.inr ⟨g, outer, hsuffix, rfl, hg⟩

theorem FrameAt.cons {frames : List Frame} {depth : Nat} {P : Frame → Prop}
    (h : FrameAt frames depth P) (f : Frame) : FrameAt (f :: frames) depth P := by
  obtain ⟨g, outer, hsuffix, hdepth, hg⟩ := h
  exact ⟨g, outer, hsuffix.trans (List.suffix_cons f frames), hdepth, hg⟩

theorem frameAt_top {f : Frame} {callers : List Frame} {depth : Nat} {P : Frame → Prop}
    (hdepth : callers.length + 1 = depth) (hf : P f) : FrameAt (f :: callers) depth P :=
  ⟨f, callers, List.suffix_rfl, hdepth, hf⟩

namespace Machine

variable {σ : Type} (hook : Option (Tracer σ)) (m : Machine σ) (depth : Nat)

/-- The instruction that the next step executes, if one is executed in the frame at the given
depth, with the argument that the frame gives it. -/
def instruction? : Option Instruction :=
  match m.phase with
  | .running f callers =>
    if callers.length + 1 = depth then
      f.fetch.toOption.map fun (op, low) => ⟨f.pc, op, foldArg f.pending low⟩
    else none
  | _ => none

/-- The index of the instruction that the next step jumps to, if a jump is taken in the frame at
the given depth. -/
def target? : Option Nat :=
  match m.phase with
  | .running _ callers =>
    if callers.length + 1 = depth then (m.effect? hook).bind Effect.target? else none
  | _ => none

variable {hook m depth}

theorem instruction?_eq_some {ins : Instruction} (h : m.instruction? depth = some ins) :
    ∃ f callers op low, m.phase = .running f callers ∧ callers.length + 1 = depth ∧
      f.fetch = .ok (op, low) ∧ ins = ⟨f.pc, op, foldArg f.pending low⟩ := by
  unfold instruction? at h
  split at h
  · rename_i f callers hphase
    split at h
    · rename_i hdepth
      cases hfetch : f.fetch with
      | ok fetched =>
        rw [hfetch] at h
        cases h
        exact ⟨f, callers, _, _, hphase, hdepth, hfetch, rfl⟩
      | error e =>
        rw [hfetch] at h
        cases h
    · cases h
  · cases h

theorem target?_of_running {f : Frame} {callers : List Frame}
    (hphase : m.phase = .running f callers) (hdepth : callers.length + 1 = depth) :
    m.target? hook depth = (m.effect? hook).bind Effect.target? := by
  unfold target?
  rw [hphase]
  exact if_pos hdepth

/-- What the frame at a depth keeps where it executes an instruction or jumps, it keeps in every
step that does not leave it. -/
theorem FrameMove.frameAt {frames : List Frame} (h : m.FrameMove hook frames)
    (hdepth : depth ≤ frames.length) {P : Frame → Prop}
    (hplace : ∀ {f g : Frame}, f.SamePlace g → P f → P g)
    (hadvance : ∀ {f : Frame} {op low}, f ∈ m.phase.frames → f.fetch = .ok (op, low) → P f →
      P (f.advance op (foldArg f.pending low)))
    (hjump : ∀ {f : Frame} {target}, m.target? hook depth = some target → f.pending = 0 → P f →
      P { f with pc := target * 2 })
    (hat : FrameAt m.phase.frames depth P) : FrameAt frames depth P := by
  -- A step changes the frame on top only, so below it everything stays as it is.
  have hbelow : ∀ {f f' : Frame} {callers : List Frame}, m.phase.frames = f :: callers →
      (callers.length + 1 = depth → P f → P f') → FrameAt (f' :: callers) depth P := by
    intro f f' callers hframes hf'
    rw [hframes] at hat
    obtain ⟨htop, hf⟩ | hcallers := hat.of_cons
    · exact frameAt_top htop (hf' htop hf)
    · exact hcallers.cons f'
  have hmem : ∀ {f : Frame} {callers : List Frame}, m.phase.frames = f :: callers →
      f ∈ m.phase.frames := fun hframes => hframes ▸ List.mem_cons_self
  cases h with
  | ended hframes => rwa [hframes] at hat
  | kept hframes hsame => exact hbelow hframes fun _ hf => hplace hsame hf
  | left hframes =>
    rw [hframes] at hat
    obtain ⟨htop, -⟩ | hcallers := hat.of_cons
    · omega
    · exact hcallers
  | executed hphase hfetch hsame =>
    have hframes := congrArg Phase.frames hphase
    exact hbelow hframes fun _ hf => hplace hsame (hadvance (hmem hframes) hfetch hf)
  | jumped hphase hfetch hop htarget hsame =>
    have hframes := congrArg Phase.frames hphase
    refine hbelow hframes fun htop hf => hplace hsame ?_
    rw [← target?_of_running hphase htop] at htarget
    exact hjump htarget (Frame.pending_advance_of_isJump hop)
      (hadvance (hmem hframes) hfetch hf)
  | entered hphase hfetch hsame =>
    have hframes := congrArg Phase.frames hphase
    have hcaller := hbelow hframes fun _ hf => hplace hsame (hadvance (hmem hframes) hfetch hf)
    exact hcaller.cons _

end Machine

/-- What a frame has when it is entered, and keeps where it executes an instruction or jumps, it has
as long as it is active; by induction on the steps since it was entered. -/
theorem Vm.Lives.frameAt {σ : Type} {hook : Option (Tracer σ)} {vm : Vm} {s : σ}
    {request : Request} {a k : Nat} (hlives : vm.Lives hook s request a k) {P : Frame → Prop}
    (hbegins : ∀ f callers args, (vm.stepped hook s request a).phase.frames = f :: callers →
      f.Begins args → P f)
    (hplace : ∀ {f g : Frame}, f.SamePlace g → P f → P g)
    (hadvance : ∀ i < k, ∀ {f : Frame} {op low},
      f ∈ (vm.stepped hook s request (a + i)).phase.frames → f.fetch = .ok (op, low) → P f →
        P (f.advance op (foldArg f.pending low)))
    (hjump : ∀ i < k, ∀ {f : Frame} {target},
      (vm.stepped hook s request (a + i)).target? hook (vm.height hook s request a) = some target →
        f.pending = 0 → P f → P { f with pc := target * 2 }) :
    FrameAt (vm.stepped hook s request (a + k)).phase.frames (vm.height hook s request a) P := by
  induction k with
  | zero =>
    obtain ⟨-, args, f, callers, -, hframes, hf⟩ := exists_begins hlives.entered
    have hheight : vm.height hook s request a = callers.length + 1 := by
      rw [height, hframes, List.length_cons]
    rw [Nat.add_zero, hheight, hframes]
    exact frameAt_top rfl (hbegins f callers args hframes hf)
  | succ k ih =>
    have ih := ih hlives.of_succ (fun i hi => hadvance i (Nat.lt_succ_of_lt hi))
      fun i hi => hjump i (Nat.lt_succ_of_lt hi)
    have hstays := hlives.stays (k + 1) (Nat.le_refl _)
    rw [height, height, ← Nat.add_assoc] at hstays
    rw [← Nat.add_assoc]
    have hmove := Machine.frameMove_step hook (vm.stepped hook s request (a + k))
    rw [← stepped_succ] at hmove
    exact hmove.frameAt hstays hplace (hadvance k (Nat.lt_succ_self k))
      (hjump k (Nat.lt_succ_self k)) ih

end Wordcode
