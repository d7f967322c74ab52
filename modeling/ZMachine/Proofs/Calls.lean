/-
  Entering and leaving routines.

  A call inside of the story puts down in the frame where the caller goes on
  and where it wants the result.  A routine that is run from outside is told
  neither.  Apart from that the frames are the same, and so is what is left of
  the machine when the routine returns.
-/
import ZMachine.Proofs.Frames
import ZMachine.Proofs.Native
import ZMachine.Proofs.Runs

namespace ZMachine
namespace Machine

/-! ## Entering -/

theorem run_enterCompiled {s : Machine} {a : Nat} {defaults : List Word} {entry : Nat}
    (header : routineHeader s.memory s.header.version a = .ok (defaults, entry))
    (args : List Word) :
    enterCompiled a args s =
      if maxCallDepth ≤ s.stack.depth then .error (.callDepthExceeded maxCallDepth) s
      else .ok () { s.entered (.enter a s.pc none defaults args s.stack.size) with
        events := s.events.emit (.entered a s.pc) } := by
  change (((fun _ => PUnit.unit) <$> enterFrame a args none s.pc) >>= fun _ =>
    emit (.entered a s.pc)) s = _
  rw [map_eq_pure_bind, bind_assoc]
  simp only [Bind.bind, EStateM.bind, run_enterFrame header]
  by_cases deep : maxCallDepth ≤ s.stack.depth
  · simp only [if_pos deep]
  · simp only [if_neg deep]
    rfl

/-- Operations on values do not see what a frame says of the caller. -/
theorem bare_entered {s t : Machine} (same : s.bare = t.bare) {f g : Frame}
    (alike : f.bare = g.bare) : (s.entered f).bare = (t.entered g).bare := by
  have stack := stack_bare same
  refine bare_withStack same ?_
  simp only [entered, CallStack.bare, CallStack.mk.injEq, List.map_cons, List.cons.injEq] at stack ⊢
  exact ⟨stack.1, ⟨alike, stack.2.1⟩, stack.2.2⟩

theorem depth_of_bare {s t : Machine} (same : s.bare = t.bare) : s.stack.depth = t.stack.depth := by
  have frames := congrArg (fun s => s.frames.length) (stack_bare same)
  simp only [CallStack.bare, List.length_map] at frames
  exact frames

theorem size_of_bare {s t : Machine} (same : s.bare = t.bare) : s.stack.size = t.stack.size :=
  congrArg (fun s => s.values.length) (stack_bare same)

theorem state_of_bare {s t : Machine} (same : s.bare = t.bare) : s.state = t.state := by
  have state : s.bare.state = t.bare.state := congrArg Machine.state same
  exact state

/-- A routine is entered from outside as it is called. -/
theorem joint_enterCompiled {s t : Machine} (same : s.bare = t.bare) {a : Nat}
    {defaults : List Word} {entry : Nat}
    (header : routineHeader s.memory s.header.version a = .ok (defaults, entry))
    (header' : routineHeader t.memory t.header.version a = .ok (defaults, entry))
    (args : List Word) (store : Option Variable) (returnAddress : Nat) :
    Joint
      (fun _ s' _ t' => s'.bare = t'.bare ∧ s'.pc = entry ∧ t.Sheds t' ∧ t'.state = t.state ∧
        s'.stack.frames = .enter a returnAddress store defaults args s.stack.size :: s.stack.frames)
      (fun g _ g' _ => g = g') (callRoutine a args store returnAddress s)
      (enterCompiled a args t) := by
  have effects : Effects false true t (endState (enterCompiled a args t)) :=
    does_enterCompiled a args t
  rw [run_callRoutine header, run_enterCompiled header', depth_of_bare same]
  rw [run_enterCompiled header'] at effects
  -- Both stacks are of one depth, so both calls are refused or none is.
  by_cases deep : maxCallDepth ≤ t.stack.depth
  · rw [if_pos deep, if_pos deep]
    exact .error rfl
  · rw [if_neg deep] at effects
    rw [if_neg deep, if_neg deep]
    refine .ok ⟨bare_entered same ?_, rfl, sheds_of_effects effects, rfl, rfl⟩
    rw [size_of_bare same]
    rfl

/-! ## Leaving -/

theorem run_leaveCompiled {s : Machine} {f : Frame} {fs : List Frame}
    (frames : s.stack.frames = f :: fs) (w : Word) :
    leaveCompiled w s = .ok () (s.left f fs w) := by
  simp only [leaveCompiled, Bind.bind, EStateM.bind, run_leaveFrame, CallStack.popFrame, frames]
  rfl

/-- Leaving frames that look alike leaves machines that look alike. -/
theorem bare_left {s t : Machine} (same : s.bare = t.bare) {f g : Frame} {fs gs : List Frame}
    (frames : s.stack.frames = f :: fs) (frames' : t.stack.frames = g :: gs) (v w : Word) :
    (s.left f fs v).bare = (t.left g gs w).bare := by
  have stack := stack_bare same
  refine bare_withStack same ?_
  simp only [CallStack.bare, frames, frames', CallStack.mk.injEq, List.map_cons,
    List.cons.injEq] at stack ⊢
  obtain ⟨values, ⟨frame, below⟩, capacity⟩ := stack
  have base : f.bare.base = g.bare.base := congrArg Frame.base frame
  have base : f.base = g.base := base
  refine ⟨?_, below, capacity⟩
  change s.stack.values.drop (s.stack.values.length - f.base)
    = t.stack.values.drop (t.stack.values.length - g.base)
  rw [values, base]

/-! ## From instruction to instruction -/

/-- The rest of a run above `floor` frames after the instruction at `old` was carried out. -/
def conclude (floor bound old : Nat) :
    EStateM.Result Fault Machine Unit → EStateM.Result Halt Machine Unit
  | .ok _ t => runToDepth floor bound (t.stepped old)
  | .error e t => .error (.fault (e.locate old)) t

theorem runToDepth_decoded {floor : Nat} {s : Machine} {i : Instruction} {decoded : DecodeCache}
    (proceeds : s.Proceeds floor)
    (h : s.code.decoded.decode s.memory s.pc = (.ok i, decoded)) (bound : Nat) :
    runToDepth floor (bound + 1) s
      = conclude floor bound s.pc (execute i (s.fetched decoded i)) := by
  rw [runToDepth_step proceeds, step_of_decoded proceeds.2 h]
  cases execute i (s.fetched decoded i) <;> rfl

/-- Address of the routine that the next instruction calls. -/
def calledAddress? (s : Machine) : Option Nat :=
  match s.code.decoded.decode s.memory s.pc with
  | (.ok i, decoded) =>
      if i.opcode.isCall then
        match operandValues i (s.fetched decoded i) with
        | .ok (packed :: _) _ => if packed = 0 then none else some (s.header.routineAddress packed)
        | _ => none
      else none
  | _ => none

theorem calledAddress?_of_call {s t : Machine} {i : Instruction} {decoded : DecodeCache}
    (h : s.code.decoded.decode s.memory s.pc = (.ok i, decoded)) (call : i.opcode.isCall = true)
    {values : List Word} (read : operandValues i (s.fetched decoded i) = .ok values t)
    (nonempty : 0 < values.length) :
    s.calledAddress? = if values.getD 0 0 = 0 then none
      else some (s.header.routineAddress (values.getD 0 0)) := by
  cases values with
  | nil => cases nonempty
  | cons packed rest => simp [calledAddress?, h, call, read]

theorem Visits.executed {floor : Nat} {s t : Machine} {i : Instruction} {decoded : DecodeCache}
    (proceeds : s.Proceeds floor)
    (h : s.code.decoded.decode s.memory s.pc = (.ok i, decoded))
    (ran : execute i (s.fetched decoded i) = .ok () t) : Visits floor s (t.stepped s.pc) := by
  refine .step .start proceeds ?_
  rw [step_of_decoded proceeds.2 h, ran]

theorem execute_call {i : Instruction} (call : i.opcode.isCall = true) {s t : Machine}
    {values : List Word} (read : operandValues i s = .ok values t) (nonempty : 0 < values.length) :
    execute i s =
      if values.getD 0 0 = 0 then storeResult i.store 0 t
      else callRoutine (t.header.routineAddress (values.getD 0 0)) values.tail i.store
        i.next t := by
  have way : execute i s = callPacked (values.getD 0 0) values.tail i.store i.next t := by
    rw [execute_eq, wayOf_call call, bind_assoc, run_bind, read]
    dsimp only
    rw [argument_ok _ nonempty, liftM_ok, go_onward]
  rw [way]
  unfold callPacked
  by_cases zero : values.getD 0 0 = 0
  · rw [if_pos zero, if_pos zero]
    rfl
  · rw [if_neg zero, if_neg zero]
    rfl

/-- Reading operands leaves the image alone. -/
theorem memory_operandValues {i : Instruction} {s t : Machine} {values : List Word}
    (h : operandValues i s = .ok values t) : t.memory = s.memory := by
  have trans : IsPreorder Machine fun s t => t.memory = s.memory :=
    { refl := fun _ => rfl, trans := fun _ _ _ h h' => h'.trans h }
  have leads : Leads (fun s t : Machine => t.memory = s.memory) (operandValues i) := by
    refine Leads.mapM _ fun o => ?_
    cases o with
    | large w => exact .pure _
    | small b => exact .pure _
    | var v =>
        cases v with
        | localVar i => exact Leads.get.bind fun s => .lift _
        | globalVar i => exact Leads.get.bind fun s => Leads.get.bind fun s => .lift _
        | stack =>
            intro s
            change (endState (pop s)).memory = s.memory
            rw [run_pop]
            cases s.stack.pop <;> rfl
  exact leads.of_ok h

end Machine

/-! ## Compiled calls -/

namespace Engine

open Machine

variable {scope : Scope} {pool : List String}

/-- Run the routine at a packed address; address 0 yields 0. -/
def callValue (invoke : Nat → List Word → EngineM (Option Word)) (header : Header) (packed : Word)
    (args : List Word) : EngineM Word := do
  if packed = 0 then return 0
  resultOf (← invoke (header.routineAddress packed) args)

/-- What a call is compiled to. -/
structure CallStep (scope : Scope) (i : Instruction) (step : CodeStep) : Prop where
  operands : step.operands = i.operands
  nonempty : 0 < i.operands.length
  passes : step.action.endsBlock = false
  act : ∀ (invoke : Nat → List Word → EngineM (Option Word)) (values : List Word) (e : Engine)
    (locals : List Word), Fits i.operands values → e.machine.header = scope.story.header →
    flat ((helpers invoke).act values step.action) (locals, e) =
      flat (liftM (callValue invoke scope.story.header (values.getD 0 0) values.tail) >>=
        fun w => (helpers invoke).store i.store w >>= fun _ => pure .next) (locals, e)

theorem flat_lift_congr {α β : Type} {x y : EngineM α} {e : Engine} (h : x e = y e)
    (k : α → StateT (List Word) EngineM β) (locals : List Word) :
    flat (liftM x >>= k) (locals, e) = flat (liftM y >>= k) (locals, e) := by
  rw [flat_bind, flat_bind]
  simp only [Bind.bind, EStateM.bind, flat_lift, h]

theorem CallStep.act_bind {i : Instruction} {step : CodeStep} (h : CallStep scope i step)
    {invoke : Nat → List Word → EngineM (Option Word)} {values : List Word} {e : Engine}
    (fits : Fits i.operands values) (header : e.machine.header = scope.story.header)
    (k : Control → StateT (List Word) EngineM Word) (locals : List Word) :
    flat ((helpers invoke).act values step.action >>= k) (locals, e) =
      flat (liftM (callValue invoke scope.story.header (values.getD 0 0) values.tail) >>=
        fun w => (helpers invoke).store i.store w >>= fun _ => k .next) (locals, e) := by
  rw [run_flat_bind, h.act invoke values e locals fits header, ← run_flat_bind]
  simp only [bind_assoc, pure_bind]

theorem value_of_fits {operands : List Operand} {values : List Word} {w : Word}
    (constant : operands.head?.bind Operand.constant? = some w) (fits : Fits operands values) :
    values.getD 0 0 = w := by
  have head := fits.constant w constant
  cases values with
  | nil => cases head
  | cons v values => exact Option.some.inj head

theorem becomes_call {i : Instruction} {step : CodeStep} (call : i.opcode.isCall = true)
    (becomes : scope.Becomes pool i step) : CallStep scope i step := by
  obtain ⟨reads, before, after, compiled, -⟩ := becomes.parts
  have whole : Scope.operandsRead i = i.operands := by
    unfold Scope.operandsRead
    cases op : i.opcode <;> rw [op] at call <;> first | cases call; done | rfl
  rw [Scope.action_call call] at compiled
  obtain ⟨nonempty, made⟩ := Scope.makesCall compiled
  obtain ⟨operands, action⟩ := step
  dsimp only at made reads
  -- What is known of the address when the call is compiled decides what is left to do.
  cases made with
  | packed target =>
      refine ⟨reads.trans whole, nonempty, rfl, fun invoke values e locals fits header => ?_⟩
      refine flat_lift_congr ?_ _ locals
      change (if values.getD 0 0 = 0 then _ else _ : EngineM Word) e
        = (if values.getD 0 0 = 0 then _ else _ : EngineM Word) e
      -- Both sides unpack the address by their header, which is the same.
      by_cases zero : values.getD 0 0 = 0
      · rw [if_pos zero, if_pos zero]
      · rw [if_neg zero, if_neg zero, ← header]
        rfl
  | nothing target =>
      refine ⟨reads.trans whole, nonempty, rfl, fun invoke values e locals fits header => ?_⟩
      rw [value_of_fits target fits, callValue, if_pos rfl]
      rfl
  | routine target nonzero =>
      refine ⟨reads.trans whole, nonempty, rfl, fun invoke values e locals fits header => ?_⟩
      rw [value_of_fits target fits, callValue, if_neg nonzero]
      rfl

/-! ## Running compiled code -/

/-- A run of compiled code without its locals. -/
def withoutLocals {α : Type} : EStateM.Result Halt (List Word × Engine) α →
    EStateM.Result Halt Engine α
  | .ok a (_, e) => .ok a e
  | .error h (_, e) => .error h e

/-- Arguments take the places of the first locals. -/
def startLocals (code : Code) (args : List Word) : List Word :=
  args.take code.defaults.length ++ code.defaults.drop (args.take code.defaults.length).length

theorem run_runCode (invoke : Nat → List Word → EngineM (Option Word)) (code : Code) (bound : Nat)
    {args : List Word} (few : args.length ≤ Helpers.maxArguments) (e : Engine) :
    (helpers invoke).runCode code bound args e =
      withoutLocals (flat ((helpers invoke).blocks code bound 0) (startLocals code args, e)) := by
  have all : args.take Helpers.maxArguments = args := List.take_of_length_le few
  simp only [Helpers.runCode, all]
  change (Prod.fst <$> (helpers invoke).blocks code bound 0 (startLocals code args) :
      EngineM Word) e
    = _
  rw [map_eq_pure_bind]
  simp only [Bind.bind, EStateM.bind, flat]
  cases (helpers invoke).blocks code bound 0 (startLocals code args) e <;> rfl

/-- One more call of compiled code. -/
def counted (e : Engine) : Engine :=
  { e with counts := { e.counts with nativeCalls := e.counts.nativeCalls + 1 } }

/-- One more call that is interpreted. -/
def countedInterpreted (e : Engine) : Engine :=
  { e with counts := { e.counts with interpretedCalls := e.counts.interpretedCalls + 1 } }

/-- Running a routine from outside, up to its tier. -/
theorem run_invoke {e : Engine} (calm : e.machine.host.Calm) {a : Nat} (nonzero : a ≠ 0)
    (limit : Nat) (args : List Word) :
    invoke (limit + 1) a args e =
      match prepare a e with
      | .error h e => .error h e
      | .ok .interpreted e =>
          onMachine (Machine.runRoutine limit a args) (countedInterpreted e)
      | .ok (.compiled code _) e =>
          match enterCompiled a (args.take Helpers.maxArguments) e.machine with
          | .error g s => .error (.fault g) { e with machine := s }
          | .ok _ s =>
              finishCompiled ((helpers fun a args => invoke limit a args).runCode code limit
                (args.take Helpers.maxArguments)) (counted { e with machine := s }) := by
  have quiet : ¬e.machine.host.interrupted = true := by simp [calm.2]
  rw [invoke]
  simp only [Bind.bind, EStateM.bind, run_get, quiet,
    nonzero, if_false, Bool.false_eq_true]
  cases prepare a e with
  | error h e => rfl
  | ok tier e =>
      cases tier with
      | interpreted => rfl
      | compiled code statistics =>
          simp only [EStateM.bind, run_act]
          cases enterCompiled a (args.take Helpers.maxArguments) e.machine <;> rfl

end Engine

end ZMachine
