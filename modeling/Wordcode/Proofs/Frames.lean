import Wordcode.Proofs.Moves

/-! What a step can do to the frames, and what runs keep of every frame because each kind of change
keeps it.  Only a call of a function enters a frame, which then has its arguments in its first
locals, and no step makes a function; and only a jump takes a frame elsewhere than to its next
instruction. -/

namespace Wordcode

open Trace

/-! ### Places -/

/-- The frames are at the same place of the same code, with as many locals and the same argument
pending. -/
structure Frame.SamePlace (f g : Frame) : Prop where
  code : g.code = f.code
  pc : g.pc = f.pc
  pending : g.pending = f.pending
  size : g.locals.size = f.locals.size

namespace Frame.SamePlace

variable {f g g' : Frame}

theorem trans (h : f.SamePlace g) (h' : g.SamePlace g') : f.SamePlace g' :=
  ⟨h'.code.trans h.code, h'.pc.trans h.pc, h'.pending.trans h.pending, h'.size.trans h.size⟩

/-- What belongs to the hook has no part in it. -/
theorem of_untraced (h : g.untraced = f.untraced) : f.SamePlace g := by
  obtain ⟨hcode, hpc, hpending, -, hlocals⟩ := Frame.of_untraced_eq h
  exact ⟨hcode, hpc, hpending, congrArg Array.size hlocals⟩

end Frame.SamePlace

theorem size_locals_execute (op : Opcode) (arg : UInt32) (vm : Vm) (f : Frame) :
    (execute op arg vm f).frame.locals.size = f.locals.size := by
  obtain hsame | ⟨-, v, hstored⟩ := locals_execute op arg vm f
  · rw [hsame]
  · rw [hstored, Array.size_setIfInBounds]

/-- Only storing to a local changes it. -/
theorem getElem?_locals_execute {op : Opcode} {arg : UInt32} {i : Nat}
    (hstore : op = .storeFast → arg.toNat ≠ i) (vm : Vm) (f : Frame) :
    (execute op arg vm f).frame.locals[i]? = f.locals[i]? := by
  obtain hsame | ⟨hop, v, hstored⟩ := locals_execute op arg vm f
  · rw [hsame]
  · rw [hstored, Array.getElem?_setIfInBounds_ne (hstore hop)]

theorem samePlace_execute (op : Opcode) (arg : UInt32) (vm : Vm) (f : Frame) :
    f.SamePlace (execute op arg vm f).frame where
  code := by rw [frame_execute]; rfl
  pc := by rw [frame_execute]; rfl
  pending := by rw [frame_execute]; rfl
  size := size_locals_execute op arg vm f

theorem Frame.untraced_observe {σ : Type} (hook : Option (Tracer σ)) (s : σ) (vm : Vm)
    (f : Frame) : (f.observe hook s vm).frame.untraced = f.untraced := by
  cases hook with
  | none => rfl
  | some tracer => exact untraced_notifyInstruction s vm f

/-- The instruction of a step is executed in the frame that fetched it, but for what belongs to the
hook. -/
theorem Machine.exists_execute {σ : Type} {hook : Option (Tracer σ)} {m : Machine σ} {e : Effect}
    (h : m.effect? hook = some e) :
    ∃ f callers op low g, m.phase = .running f callers ∧ f.fetch = .ok (op, low) ∧
      g.untraced = (f.advance op (foldArg f.pending low)).untraced ∧
      e = execute op (foldArg f.pending low) m.vm.count g := by
  obtain ⟨f, callers, op, low, hphase, hfetch, he⟩ := effect?_eq_some h
  exact ⟨f, callers, op, low, _, hphase, hfetch, Frame.untraced_observe hook _ _ _, he⟩

/-! ### Calls -/

/-- The frame is that of a call with the arguments `args`, before its first instruction. -/
structure Frame.Begins (f : Frame) (args : List Value) : Prop where
  argcount : args.length = f.code.argcount
  untraced : f.untraced = Frame.enter f.code args

theorem Frame.Begins.pc_eq {f : Frame} {args : List Value} (h : f.Begins args) : f.pc = 0 :=
  (congrArg Frame.pc h.untraced :)

theorem Frame.Begins.pending_eq {f : Frame} {args : List Value} (h : f.Begins args) :
    f.pending = 0 :=
  (congrArg Frame.pending h.untraced :)

theorem Frame.Begins.locals_eq {f : Frame} {args : List Value} (h : f.Begins args) :
    f.locals = (args.map some ++ List.replicate (f.code.nlocals - args.length) none).toArray :=
  (congrArg Frame.locals h.untraced :)

theorem Builtin.functions_call (b : Builtin) (args : List Value) (vm : Vm) :
    (b.call args vm).2.store.functions = vm.store.functions := by
  unfold call
  split <;> rfl

namespace Machine

variable {σ : Type} (hook : Option (Tracer σ))

/-- What a call comes to at once: the first frame of a function, or a result that is no internal
fault. -/
inductive Invoked (vm : Vm) (callee : Value) (args : List Value) (callers : List Frame) :
    Vm → Phase → Prop
  | entered {g : Frame} {phase : Phase} (hcalls : vm.Calls callee args g.code)
      (hbegins : g.Begins args)
      (hphase : phase = .running g callers ∨ phase = .unwinding (g :: callers)) :
      Invoked vm callee args callers (vm.pushFrame g.code.name) phase
  | answered {vm' : Vm} {result : Except Fault Value}
      (hfunctions : vm'.store.functions = vm.store.functions)
      (hkind : ∀ e, result = .error e → e.kind ≠ .internal) :
      Invoked vm callee args callers vm' (.giving result callers)

theorem exists_frame_begin (vm : Vm) (s : σ) (f : Frame) (callers : List Frame) :
    ∃ s' g phase, begin hook vm s f callers = ⟨vm, s', phase⟩ ∧
      (phase = .running g callers ∨ phase = .unwinding (g :: callers)) ∧
      g.untraced = f.untraced := by
  cases hook with
  | none => exact ⟨s, f, _, rfl, Or.inl rfl, rfl⟩
  | some tracer =>
    unfold begin
    dsimp only
    split
    · exact ⟨_, _, _, rfl, Or.inl rfl, rfl⟩
    · exact ⟨_, _, _, rfl, Or.inl rfl, rfl⟩
    · exact ⟨_, _, _, rfl, Or.inr rfl, rfl⟩

theorem invoked_invoke (vm : Vm) (s : σ) (callee : Value) (args : List Value)
    (callers : List Frame) :
    let m := invoke hook vm s callee args callers
    Invoked vm callee args callers m.vm m.phase := by
  have hanswered : ∀ e : Fault, e.kind ≠ .internal →
      ∀ e', (.error e : Except Fault Value) = .error e' → e'.kind ≠ .internal := by
    rintro e hkind e' ⟨⟩
    exact hkind
  cases callee with
  | function id =>
    rw [invoke]
    by_cases hargs : args.length = (vm.store.code id).argcount
    · rcases Nat.lt_or_ge vm.depth vm.limit with hlimit | hlimit
      · obtain ⟨s', g, phase, hbegin, hphase, huntraced⟩ := exists_frame_begin hook
          (vm.pushFrame (vm.store.code id).name) s (Frame.enter (vm.store.code id) args) callers
        have hcode : g.code = vm.store.code id := (congrArg Frame.code huntraced :)
        rw [enter_of_lt_limit hargs hlimit, hbegin, ← hcode]
        rw [← hcode] at hargs huntraced
        exact .entered ⟨id, rfl, hcode.symm, hargs⟩ ⟨hargs, huntraced⟩ hphase
      · rw [enter_of_limit_le hargs hlimit]
        exact .answered rfl (hanswered _ ErrorKind.noConfusion)
    · rw [enter_of_length_ne hargs]
      exact .answered rfl (hanswered _ ErrorKind.noConfusion)
  | builtin b =>
    exact .answered (b.functions_call args vm) fun e he => (b.plain_call args vm e he).2
  | _ => exact .answered rfl (hanswered _ ErrorKind.noConfusion)

section Invoked

variable {vm vm' : Vm} {callee : Value} {args : List Value} {callers : List Frame} {phase : Phase}
  (h : Invoked vm callee args callers vm' phase)
include h

/-- A call enters one frame or none. -/
theorem Invoked.frames :
    phase.frames = callers ∨
      ∃ g, phase.frames = g :: callers ∧ vm.Calls callee args g.code ∧ g.Begins args := by
  cases h with
  | @entered g _ hcalls hbegins hphase =>
    refine Or.inr ⟨g, ?_, hcalls, hbegins⟩
    obtain rfl | rfl := hphase <;> rfl
  | answered => exact Or.inl rfl

theorem Invoked.functions : vm'.store.functions = vm.store.functions := by
  cases h with
  | entered => rfl
  | answered hfunctions => exact hfunctions

theorem Invoked.kind_ne {e : Fault} {frames : List Frame}
    (hphase : phase = .giving (.error e) frames) : e.kind ≠ .internal := by
  cases h with
  | entered _ _ hentered =>
    rw [hphase] at hentered
    obtain h | h := hentered <;> cases h
  | answered _ hkind => exact hkind e (Phase.giving.inj hphase).1

end Invoked

end Machine

/-! ### Steps -/

/-- The index of the instruction that an effect jumps to. -/
def Effect.target? : Effect → Option Nat
  | jump _ _ target => some target
  | _ => none

namespace Machine

variable {σ : Type} (hook : Option (Tracer σ))

/-- What a step of the machine `m` can leave of its frames. -/
inductive FrameMove (m : Machine σ) : List Frame → Prop
  | ended (hframes : m.phase.frames = []) : FrameMove m []
  | kept {f f' : Frame} {callers : List Frame} (hframes : m.phase.frames = f :: callers)
      (hplace : f.SamePlace f') : FrameMove m (f' :: callers)
  | left {f : Frame} {callers : List Frame} (hframes : m.phase.frames = f :: callers) :
      FrameMove m callers
  | executed {f f' : Frame} {callers : List Frame} {op : Opcode} {low : UInt8}
      (hphase : m.phase = .running f callers) (hfetch : f.fetch = .ok (op, low))
      (hplace : (f.advance op (foldArg f.pending low)).SamePlace f') : FrameMove m (f' :: callers)
  | jumped {f f' : Frame} {callers : List Frame} {op : Opcode} {low : UInt8} {target : Nat}
      (hphase : m.phase = .running f callers) (hfetch : f.fetch = .ok (op, low))
      (hop : op.isJump = true) (htarget : (m.effect? hook).bind Effect.target? = some target)
      (hplace : { f.advance op (foldArg f.pending low) with pc := target * 2 }.SamePlace f') :
      FrameMove m (f' :: callers)
  | entered {f f' g : Frame} {callers : List Frame} {op : Opcode} {low : UInt8} {callee : Value}
      {args : List Value} (hphase : m.phase = .running f callers)
      (hfetch : f.fetch = .ok (op, low))
      (hplace : (f.advance op (foldArg f.pending low)).SamePlace f')
      (hcall : m.call? hook = some (callee, args)) (hcalls : m.vm.Calls callee args g.code)
      (hbegins : g.Begins args) : FrameMove m (g :: f' :: callers)

theorem frames_leave (vm : Vm) (s : σ) (f : Frame) (result : Except Fault Value)
    (callers : List Frame) :
    (leave hook vm s f result callers).phase.frames = callers ∨
      ∃ f', (leave hook vm s f result callers).phase.frames = f' :: callers ∧ f.SamePlace f' := by
  cases hactive : f.active with
  | false =>
    rw [leave_of_inactive hactive]
    exact Or.inl rfl
  | true =>
    cases hook with
    | none =>
      rw [leave_none]
      exact Or.inl rfl
    | some tracer =>
      rw [leave_of_active hactive]
      dsimp only
      split
      · exact Or.inr ⟨_, rfl, .of_untraced rfl⟩
      · exact Or.inl rfl

theorem frameMove_executeNext (vm : Vm) (s : σ) (f : Frame) (callers : List Frame) :
    FrameMove hook ⟨vm, s, .running f callers⟩
      (executeNext hook vm s f callers).phase.frames := by
  cases hfetch : f.fetch with
  | error e =>
    rw [executeNext_of_error hfetch]
    obtain hleft | ⟨f', hkept, hplace⟩ := frames_leave hook vm s f (.error e) callers
    · rw [hleft]
      exact .left rfl
    · rw [hkept]
      exact .kept rfl hplace
  | ok fetched =>
    obtain ⟨op, low⟩ := fetched
    have heffect : effect? hook ⟨vm, s, .running f callers⟩ = _ := effect?_of_ok hfetch
    rw [executeNext_of_ok hfetch]
    dsimp only at heffect ⊢
    have hobserve := (f.advance op (foldArg f.pending low)).untraced_observe hook s vm.count
    split
    · exact .executed rfl hfetch (.of_untraced hobserve)
    · rename_i hverdict
      rw [if_neg hverdict] at heffect
      have hplace := (Frame.SamePlace.of_untraced hobserve).trans
        (samePlace_execute op (foldArg f.pending low) vm.count _)
      cases hexecute : execute op (foldArg f.pending low) vm.count
          ((f.advance op (foldArg f.pending low)).observe hook s vm.count).frame with
      | next vm' g =>
        rw [hexecute] at hplace
        exact .executed rfl hfetch hplace
      | jump vm' g target =>
        rw [hexecute] at hplace heffect
        have htarget : (effect? hook ⟨vm, s, .running f callers⟩).bind Effect.target? =
            some target := by
          rw [heffect]
          rfl
        exact .jumped rfl hfetch (isJump_of_execute hexecute) htarget
          ⟨hplace.code, rfl, hplace.pending, hplace.size⟩
      | call vm' g callee args =>
        rw [hexecute] at hplace heffect
        have hcall : call? hook ⟨vm, s, .running f callers⟩ = some (callee, args) := by
          rw [call?, heffect]
          rfl
        obtain rfl := vm_of_execute_call hexecute
        obtain hframes | ⟨h, hframes, hcalls, hbegins⟩ :=
          (invoked_invoke hook vm.count _ callee args (g :: callers)).frames
        · rw [proceed, hframes]
          exact .executed rfl hfetch hplace
        · rw [proceed, hframes]
          exact .entered rfl hfetch hplace hcall hcalls hbegins
      | leave vm' g result =>
        rw [hexecute] at hplace
        obtain hleft | ⟨f', hkept, hplace'⟩ := frames_leave hook vm' _ g result callers
        · rw [proceed, hleft]
          exact .left rfl
        · rw [proceed, hkept]
          exact .executed rfl hfetch (hplace.trans hplace')

/-- Every step moves the frames in one of these ways. -/
theorem frameMove_step (m : Machine σ) : FrameMove hook m (m.step hook).phase.frames := by
  obtain ⟨vm, s, phase⟩ := m
  cases phase with
  | running f callers => exact frameMove_executeNext hook vm s f callers
  | giving result frames =>
    cases frames with
    | nil => cases result <;> exact .ended rfl
    | cons f callers =>
      cases result with
      | ok v => exact .kept rfl ⟨rfl, rfl, rfl, rfl⟩
      | error e =>
        obtain hleft | ⟨f', hkept, hplace⟩ := frames_leave hook vm s f (.error e) callers
        · rw [step, hleft]
          exact .left rfl
        · rw [step, hkept]
          exact .kept rfl hplace
  | unwinding frames =>
    cases frames with
    | nil => exact .ended rfl
    | cons f callers => exact .left rfl

end Machine

namespace Vm

variable {σ : Type} (hook : Option (Tracer σ)) (vm : Vm) (s : σ) (request : Request)

/-- An operation begins with the frame of its call, or with none. -/
theorem frames_start :
    (vm.start hook s request).phase.frames = [] ∨
      ∃ callee args g, vm.call? request = some (callee, args) ∧
        (vm.start hook s request).phase.frames = [g] ∧ vm.Calls callee args g.code ∧
        g.Begins args := by
  have hinvoke : ∀ callee args, vm.call? request = some (callee, args) →
      vm.start hook s request = Machine.invoke hook vm s callee args [] →
      (vm.start hook s request).phase.frames = [] ∨
        ∃ callee args g, vm.call? request = some (callee, args) ∧
          (vm.start hook s request).phase.frames = [g] ∧ vm.Calls callee args g.code ∧
          g.Begins args := by
    intro callee args hcall hstart
    obtain hnone | ⟨g, hframes, hcalls, hbegins⟩ :=
      (Machine.invoked_invoke hook vm s callee args []).frames
    · exact Or.inl (by rw [hstart, hnone])
    · exact Or.inr ⟨callee, args, g, hcall, by rw [hstart, hframes], hcalls, hbegins⟩
  cases request with
  | run id => exact hinvoke (.function id) [] rfl rfl
  | call callee args => exact hinvoke callee args rfl rfl
  | callGlobal name args =>
    cases hlookup : vm.lookup name with
    | ok callee =>
      refine hinvoke callee args ?_ ?_
      · rw [call?, hlookup]
        rfl
      · rw [start, hlookup]
    | error e =>
      refine Or.inl ?_
      rw [start, hlookup]
      rfl

/-- Whenever an operation has one frame more than before, the new frame is that of the call that was
made. -/
theorem begins_stepped {n : Nat}
    (h : (vm.stepped hook s request (n + 1)).phase.frames.length =
      (vm.stepped hook s request n).phase.frames.length + 1) :
    ∃ callee args g callers,
      (vm.stepped hook s request n).call? hook = some (callee, args) ∧
      (vm.stepped hook s request (n + 1)).phase.frames = g :: callers ∧
      (vm.stepped hook s request n).vm.Calls callee args g.code ∧ g.Begins args := by
  have hmove := Machine.frameMove_step hook (vm.stepped hook s request n)
  rw [← stepped_succ] at hmove
  generalize (vm.stepped hook s request (n + 1)).phase.frames = frames at h hmove ⊢
  cases hmove with
  | ended hframes => simp [hframes] at h
  | kept hframes | left hframes =>
    simp only [hframes, List.length_cons] at h
    omega
  | executed hphase | jumped hphase =>
    simp only [hphase, Phase.frames, List.length_cons] at h
    omega
  | entered _ _ _ hcall hcalls hbegins => exact ⟨_, _, _, _, hcall, rfl, hcalls, hbegins⟩

end Vm

/-! ### The store -/

/-- The iterator that an instruction pulls from, with the integer that it gets and what becomes of
the iterator. -/
def pulling? (op : Opcode) (vm : Vm) (f : Frame) : Option (RangeId × Int64 × Range) :=
  match op, f.stack with
  | .forIter, .range id :: _ => (vm.store.range id).pull.map (id, ·)
  | _, _ => none

/-- What an instruction can leave of the store. -/
inductive StoreMove (op : Opcode) (vm : Vm) (f : Frame) : Store → Prop
  | kept (hpull : pulling? op vm f = none) : StoreMove op vm f vm.store
  | pulled {id : RangeId} {i : Int64} {r : Range} (hpull : pulling? op vm f = some (id, i, r)) :
      StoreMove op vm f (vm.store.setRange id r)
  | inserted (hpull : pulling? op vm f = none) (id : MapId) (k : MapKey) (v : Value) :
      StoreMove op vm f (vm.store.insert id k v)
  | added (hpull : pulling? op vm f = none) : StoreMove op vm f (vm.store.addMap ∅).2

theorem StoreMove.functions {op : Opcode} {vm : Vm} {f : Frame} {store : Store}
    (h : StoreMove op vm f store) : store.functions = vm.store.functions := by
  cases h <;> rfl

theorem storeMove_execute (op : Opcode) (arg : UInt32) (vm : Vm) (f : Frame) :
    StoreMove op vm f (execute op arg vm f).vm.store := by
  cases hpulling : pulling? op vm f with
  | some pulling =>
    obtain ⟨id, i, r⟩ := pulling
    have hpull := hpulling
    unfold pulling? at hpull
    split at hpull
    · rename_i hstack
      obtain ⟨_, hsome, heq⟩ := Option.map_eq_some_iff.mp hpull
      cases heq
      simp only [execute, hstack, hsome]
      exact .pulled hpulling
    · cases hpull
  | none =>
    have hexecution := execution_execute op arg vm f
    generalize execute op arg vm f = e at hexecution ⊢
    cases hexecution with
    | inserted => exact .inserted hpulling _ _ _
    | added => exact .added hpulling
    | pulled hop hstack hpull =>
      subst hop
      simp [pulling?, hstack, hpull] at hpulling
    | _ => exact .kept hpulling

namespace Machine

variable {σ : Type} (hook : Option (Tracer σ))

theorem store_leave (vm : Vm) (s : σ) (f : Frame) (result : Except Fault Value)
    (callers : List Frame) : (leave hook vm s f result callers).vm.store = vm.store := by
  obtain ⟨s', h⟩ | ⟨s', f', h⟩ := leave_cases hook vm s f result callers
  · rw [h]
    rfl
  · rw [h]

variable {hook}

/-- What native functions keep of the store, a call keeps at once. -/
theorem store_invoke {P : Store → Prop}
    (hnative : ∀ (b : Builtin) args vm, P vm.store → P (b.call args vm).2.store) {vm : Vm}
    (h : P vm.store) (s : σ) (callee : Value) (args : List Value) (callers : List Frame) :
    P (invoke hook vm s callee args callers).vm.store := by
  cases callee with
  | function id =>
    rw [invoke]
    by_cases hargs : args.length = (vm.store.code id).argcount
    · rcases Nat.lt_or_ge vm.depth vm.limit with hlimit | hlimit
      · obtain ⟨s', g, phase, hbegin, -⟩ := exists_frame_begin hook
          (vm.pushFrame (vm.store.code id).name) s (Frame.enter (vm.store.code id) args) callers
        rw [enter_of_lt_limit hargs hlimit, hbegin]
        exact h
      · rw [enter_of_limit_le hargs hlimit]
        exact h
    · rw [enter_of_length_ne hargs]
      exact h
  | builtin b => exact hnative b args vm h
  | _ => exact h

/-- What holds of the store after the instruction of a step, or before the step if there is none,
holds after the step, if native functions keep it. -/
theorem store_step {P : Store → Prop}
    (hnative : ∀ (b : Builtin) args vm, P vm.store → P (b.call args vm).2.store) {m : Machine σ}
    (hexecute : ∀ e, m.effect? hook = some e → P e.vm.store)
    (hidle : m.effect? hook = none → P m.vm.store) : P (m.step hook).vm.store := by
  obtain ⟨vm, s, phase⟩ := m
  cases phase with
  | running f callers =>
    rw [step]
    cases hfetch : f.fetch with
    | error e =>
      rw [executeNext_of_error hfetch, store_leave]
      refine hidle ?_
      simp only [effect?, hfetch]
    | ok fetched =>
      obtain ⟨op, low⟩ := fetched
      rw [effect?_of_ok hfetch] at hexecute hidle
      rw [executeNext_of_ok hfetch]
      dsimp only at hexecute hidle ⊢
      split
      · rename_i hverdict
        exact hidle (if_pos hverdict)
      · rename_i hverdict
        have heffect := hexecute _ (if_neg hverdict)
        generalize execute op (foldArg f.pending low) vm.count _ = effect at heffect ⊢
        cases effect with
        | next | jump => exact heffect
        | call vm' g callee args => exact store_invoke hnative heffect _ callee args _
        | leave vm' g result =>
          rw [proceed, store_leave]
          exact heffect
  | giving result frames =>
    cases frames with
    | nil => cases result <;> exact hidle rfl
    | cons f callers =>
      cases result with
      | ok v => exact hidle rfl
      | error e =>
        rw [step, store_leave]
        exact hidle rfl
  | unwinding frames => cases frames <;> exact hidle rfl

theorem store_step_of_some {P : Store → Prop}
    (hnative : ∀ (b : Builtin) args vm, P vm.store → P (b.call args vm).2.store) {m : Machine σ}
    {e : Effect} (heffect : m.effect? hook = some e) (h : P e.vm.store) :
    P (m.step hook).vm.store := by
  refine store_step hnative (fun e' he' => ?_) fun hnone => ?_
  · rw [heffect] at he'
    cases he'
    exact h
  · rw [heffect] at hnone
    cases hnone

theorem store_step_of_none {P : Store → Prop}
    (hnative : ∀ (b : Builtin) args vm, P vm.store → P (b.call args vm).2.store) {m : Machine σ}
    (heffect : m.effect? hook = none) (h : P m.vm.store) : P (m.step hook).vm.store := by
  refine store_step hnative (fun e he => ?_) fun _ => h
  rw [heffect] at he
  cases he

variable (hook)

/-- No step makes a function or changes one. -/
theorem functions_step (m : Machine σ) :
    (m.step hook).vm.store.functions = m.vm.store.functions := by
  refine store_step (P := fun store => store.functions = m.vm.store.functions) ?_ ?_
    fun _ => rfl
  · intro b args vm h
    rw [b.functions_call, h]
  · intro e he
    obtain ⟨f, callers, op, low, g, -, -, -, rfl⟩ := exists_execute he
    exact (storeMove_execute op _ m.vm.count _).functions

end Machine

section Functions

variable {σ : Type} {hook : Option (Tracer σ)}

theorem Vm.functions_start (vm : Vm) (s : σ) (request : Request) :
    (vm.start hook s request).vm.store.functions = vm.store.functions := by
  cases request with
  | run id => exact (Machine.invoked_invoke hook vm s (.function id) [] []).functions
  | call callee args => exact (Machine.invoked_invoke hook vm s callee args []).functions
  | callGlobal name args =>
    rw [start]
    split
    · exact (Machine.invoked_invoke hook vm s _ args []).functions
    · rfl

theorem Vm.functions_setUp (vm : Vm) :
    (vm.setUp hook).store.functions = vm.store.functions := by
  cases hook <;> rfl

theorem Vm.functions_stepped (vm : Vm) (s : σ) (request : Request) (n : Nat) :
    (vm.stepped hook s request n).vm.store.functions = vm.store.functions := by
  induction n with
  | zero =>
    rw [stepped, Function.iterate_zero_apply, functions_start, functions_setUp]
  | succ n ih => rw [stepped_succ, Machine.functions_step, ih]

theorem Vm.code_stepped (vm : Vm) (s : σ) (request : Request) (n : Nat) (id : FunctionId) :
    (vm.stepped hook s request n).vm.store.code id = vm.store.code id := by
  rw [Store.code, functions_stepped, Store.code]

end Functions

/-! ### What frames keep -/

/-- A jump is no prefix, so nothing is pending where it goes. -/
theorem Frame.pending_advance_of_isJump {f : Frame} {op : Opcode} {arg : UInt32}
    (hop : op.isJump = true) : (f.advance op arg).pending = 0 := by
  refine if_neg ?_
  rintro rfl
  cases hop

/-- A property of frames that every frame has when code that is `called` is entered, and that no
step takes away. -/
structure Frame.Kept (called : Code → Prop) (P : Frame → Prop) : Prop where
  begins : ∀ {f : Frame} {args}, called f.code → f.Begins args → P f
  samePlace : ∀ {f f' : Frame}, f.SamePlace f' → P f → P f'
  advance : ∀ {f : Frame} {op low}, f.fetch = .ok (op, low) → P f →
    P (f.advance op (foldArg f.pending low))
  jump : ∀ {f : Frame} (target : Nat), f.pending = 0 → P f → P { f with pc := target * 2 }

section Kept

variable {called : Code → Prop} {P : Frame → Prop} (hkept : Frame.Kept called P) {σ : Type}
  {hook : Option (Tracer σ)}
include hkept

theorem Machine.kept_of_frameMove {m : Machine σ} {frames : List Frame}
    (h : m.FrameMove hook frames) (hcalled : ∀ id, called (m.vm.store.code id))
    (hm : ∀ f ∈ m.phase.frames, P f) : ∀ f ∈ frames, P f := by
  cases h with
  | ended => exact fun f hf => absurd hf List.not_mem_nil
  | kept hframes hplace =>
    rw [hframes] at hm
    obtain ⟨hf, hcallers⟩ := List.forall_mem_cons.mp hm
    exact List.forall_mem_cons.mpr ⟨hkept.samePlace hplace hf, hcallers⟩
  | left hframes =>
    rw [hframes] at hm
    exact (List.forall_mem_cons.mp hm).2
  | executed hphase hfetch hplace =>
    rw [hphase] at hm
    obtain ⟨hf, hcallers⟩ := List.forall_mem_cons.mp hm
    exact List.forall_mem_cons.mpr
      ⟨hkept.samePlace hplace (hkept.advance hfetch hf), hcallers⟩
  | @jumped f f' callers op low target hphase hfetch hop _ hplace =>
    rw [hphase] at hm
    obtain ⟨hf, hcallers⟩ := List.forall_mem_cons.mp hm
    have hadvanced := hkept.advance hfetch hf
    have hjumped := hkept.jump target (Frame.pending_advance_of_isJump hop) hadvanced
    exact List.forall_mem_cons.mpr ⟨hkept.samePlace hplace hjumped, hcallers⟩
  | entered hphase hfetch hplace hcall hcalls hbegins =>
    rw [hphase] at hm
    obtain ⟨hf, hcallers⟩ := List.forall_mem_cons.mp hm
    obtain ⟨id, -, hcode, -⟩ := hcalls
    have hg := hkept.begins (hcode ▸ hcalled id) hbegins
    exact List.forall_mem_cons.mpr ⟨hg, List.forall_mem_cons.mpr
      ⟨hkept.samePlace hplace (hkept.advance hfetch hf), hcallers⟩⟩

/-- What frames keep, every frame has at every moment of an operation. -/
theorem Vm.kept_stepped (vm : Vm) (s : σ) (request : Request)
    (hcalled : ∀ id, called (vm.store.code id)) (n : Nat) :
    ∀ f ∈ (vm.stepped hook s request n).phase.frames, P f := by
  induction n with
  | zero =>
    obtain hnone | ⟨callee, args, g, -, hframes, ⟨id, -, hcode, -⟩, hbegins⟩ :=
      frames_start hook (vm.setUp hook) s request
    · rw [stepped, Function.iterate_zero_apply, hnone]
      exact fun f hf => absurd hf List.not_mem_nil
    · rw [stepped, Function.iterate_zero_apply, hframes]
      rw [Store.code, functions_setUp] at hcode
      exact List.forall_mem_singleton.mpr (hkept.begins (hcode ▸ hcalled id) hbegins)
  | succ n ih =>
    rw [stepped_succ]
    refine Machine.kept_of_frameMove hkept (Machine.frameMove_step hook _) (fun id => ?_) ih
    rw [code_stepped]
    exact hcalled id

end Kept

/-- An operation executes no other code than that of the functions that there are when it begins. -/
theorem Vm.code_of_mem_stepped {σ : Type} (hook : Option (Tracer σ)) (vm : Vm) (s : σ)
    (request : Request) (n : Nat) :
    ∀ f ∈ (vm.stepped hook s request n).phase.frames, ∃ id, vm.store.code id = f.code := by
  have hkept : Frame.Kept (fun code => ∃ id, vm.store.code id = code)
      (fun f => ∃ id, vm.store.code id = f.code) :=
    { begins := fun hcode _ => hcode
      samePlace := fun hplace hf => hplace.code ▸ hf
      advance := fun _ hf => hf
      jump := fun _ _ hf => hf }
  exact kept_stepped hkept vm s request (fun id => ⟨id, rfl⟩) n

end Wordcode
