import Wordcode.Proofs.Moves

/-! Recorded events.  With any hook goes one that answers as it does and keeps a list of all the
events that it was shown, with the answers. -/

namespace Wordcode

namespace Trace

/-- An event that was shown to a hook, with its answer. -/
@[ext] structure Showing where
  view : View
  event : Event
  flags : Flags
  verdict : Verdict

namespace Tracer

variable {σ : Type} (hook : Tracer σ)

/-- The hook, with a list of what it was shown so far. -/
def recording : Tracer (σ × List Showing) where
  onEvent s view e :=
    let reply := hook.onEvent s.1 view e
    ⟨(reply.state, s.2 ++ [⟨view, e, reply.flags, reply.verdict⟩]), reply.flags, reply.verdict⟩

theorem mirrors_recording : hook.recording.Mirrors Prod.fst hook := fun _ _ _ => rfl

/-- From the state `s` the hook gives the answers of the showings, and comes to the state `s'`. -/
def Answers (s : σ) : List Showing → σ → Prop
  | [], s' => s' = s
  | x :: xs, s' =>
    let reply := hook.onEvent s x.view x.event
    x.flags = reply.flags ∧ x.verdict = reply.verdict ∧ Answers reply.state xs s'

variable {hook} {s s' t : σ} {xs ys : List Showing}

theorem answers_append :
    hook.Answers s (xs ++ ys) s' ↔ ∃ t, hook.Answers s xs t ∧ hook.Answers t ys s' := by
  induction xs generalizing s with
  | nil =>
    constructor
    · exact fun h => ⟨s, rfl, h⟩
    · rintro ⟨t, rfl, h⟩
      exact h
  | cons x xs ih =>
    simp only [List.cons_append, Answers, ih]
    constructor
    · rintro ⟨hflags, hverdict, t, hxs, hys⟩
      exact ⟨t, ⟨hflags, hverdict, hxs⟩, hys⟩
    · rintro ⟨t, ⟨hflags, hverdict, hxs⟩, hys⟩
      exact ⟨hflags, hverdict, t, hxs, hys⟩

theorem Answers.append (h : hook.Answers s xs t) (h' : hook.Answers t ys s') :
    hook.Answers s (xs ++ ys) s' :=
  answers_append.mpr ⟨t, h, h'⟩

theorem Answers.state_eq (h : hook.Answers s xs s') (h' : hook.Answers s xs t) : s' = t := by
  induction xs generalizing s with
  | nil => exact h.trans h'.symm
  | cons x xs ih => exact ih h.2.2 h'.2.2

/-- The same event of the same view has one answer. -/
theorem Answers.head_eq {x y : Showing} (h : hook.Answers s (x :: xs) s')
    (h' : hook.Answers s (y :: ys) t) (hview : x.view = y.view) (hevent : x.event = y.event) :
    x = y := by
  have hflags := h.1
  have hverdict := h.2.1
  rw [hview, hevent] at hflags hverdict
  exact Showing.ext hview hevent (hflags.trans h'.1.symm) (hverdict.trans h'.2.1.symm)

end Tracer

theorem mirrors_map_recording {σ : Type} (hook : Option (Tracer σ)) :
    Mirrors Prod.fst (hook.map Tracer.recording) hook := by
  cases hook with
  | none => exact .none
  | some tracer => exact .some tracer.mirrors_recording

end Trace

namespace Vm

open Trace

variable {σ : Type} (hook : Option (Tracer σ)) (vm : Vm) (s : σ) (request : Request)

/-- What the hook of an operation is shown within `n` steps. -/
def shown (n : Nat) : List Showing :=
  (vm.stepped (hook.map Tracer.recording) (s, []) request n).tracer.2

theorem setUp_recording : vm.setUp (hook.map Tracer.recording) = vm.setUp hook := by
  cases hook <;> rfl

/-- A hook that is recorded has the same effects as the hook. -/
theorem stepped_recording (xs : List Showing) (n : Nat) :
    vm.stepped hook s request n =
      (vm.stepped (hook.map Tracer.recording) (s, xs) request n).map id Prod.fst :=
  stepped_map overlooked_id (fun _ => rfl) (mirrors_map_recording hook)
    (setUp_recording hook vm).symm (s, xs) request n

end Vm

end Wordcode
