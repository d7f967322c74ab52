/-
  A frame beneath all others.

  No instruction looks at the frames below the running one, unless it asks for
  their number, unwinds them or begins anew.  A machine with one more frame at
  the bottom of its stack therefore goes on step by step as it would without,
  until the oldest of the other frames is left: the story is over then for the
  one, and the other is back at the frame beneath.
-/
import ZMachine.Compile.Needs
import ZMachine.Proofs.Nesting
import ZMachine.Proofs.WordsBelow

namespace ZMachine

/-! ## One more frame at the bottom -/

namespace CallStack

variable {k : CallStack} {g : Frame}

/-- The stack with one more frame below all others. -/
def upon (g : Frame) (k : CallStack) : CallStack := { k with frames := k.frames ++ [g] }

theorem depth_upon : (k.upon g).depth = k.depth + 1 := by
  rw [depth, upon, List.length_append, List.length_singleton, depth]

theorem current_upon (deep : 0 < k.depth) : (k.upon g).current = k.current := by
  cases frames : k.frames with
  | nil =>
      rw [depth, frames] at deep
      cases deep
  | cons f fs => simp only [current, upon, frames, List.cons_append]

theorem top_upon (deep : 0 < k.depth) : (k.upon g).top = k.top := by
  have base : (k.upon g).base = k.base := by
    cases frames : k.frames with
    | nil =>
        rw [depth, frames] at deep
        cases deep
    | cons f fs => simp only [CallStack.base, upon, frames, List.cons_append, List.head?_cons]
  unfold top
  rw [base]
  rfl

theorem push_upon (w : Word) : (k.upon g).push w = (k.push w).map (upon g) := by
  unfold push
  change (if k.capacity ≤ k.size then _ else _) = _
  split <;> rfl

theorem replaceTop_upon (deep : 0 < k.depth) (w : Word) :
    (k.upon g).replaceTop w = (k.replaceTop w).map (upon g) := by
  unfold replaceTop
  rw [top_upon deep]
  cases k.top <;> rfl

theorem writeLocal_upon (deep : 0 < k.depth) (i : Byte) (w : Word) :
    (k.upon g).writeLocal i w = (k.writeLocal i w).map (upon g) := by
  have tail : (k.upon g).frames.tail = k.frames.tail ++ [g] :=
    List.tail_append_of_ne_nil (List.ne_nil_of_length_pos deep)
  unfold writeLocal
  rw [current_upon deep, tail]
  cases k.current with
  | error e => rfl
  | ok f =>
      change (f.setLocal i w >>= _) = (f.setLocal i w >>= _).map _
      cases f.setLocal i w <;> rfl

end CallStack

namespace Machine

/-- The machine with one more frame below all others, run from outside. -/
def upon (g : Frame) (s : Machine) : Machine :=
  { s with stack := s.stack.upon g, nested := s.nested + 1 }

/-- An action of a running routine takes no notice of a frame below all others, and leaves a routine
running. -/
def Heedless (g : Frame) (x : MachineM α) : Prop :=
  ∀ s : Machine, 0 < s.stack.depth →
    x (s.upon g) = moved (upon g) (x s) ∧ 0 < (endState (x s)).stack.depth

variable {α β : Type} {s t : Machine} {g : Frame}

namespace Heedless

theorem pure (a : α) : Heedless g (Pure.pure a : MachineM α) := fun _ deep => ⟨rfl, deep⟩

theorem throw (e : Fault) : Heedless g (MonadExcept.throw e : MachineM α) :=
  fun _ deep => ⟨rfl, deep⟩

theorem lift (x : Except Fault α) : Heedless g (liftM x : MachineM α) := by
  cases x with
  | ok a => exact pure a
  | error e => exact throw e

theorem bind {x : MachineM α} {f : α → MachineM β} (hx : Heedless g x)
    (hf : ∀ a, Heedless g (f a)) : Heedless g (x >>= f) := by
  intro s deep
  obtain ⟨same, deep'⟩ := hx s deep
  rw [run_bind, run_bind, same]
  cases ran : x s with
  | error e t =>
      rw [ran] at deep'
      exact ⟨rfl, deep'⟩
  | ok a t =>
      rw [ran] at deep'
      exact hf a t deep'

/-- What comes first in an action that succeeds does the same, and the rest goes on from there. -/
theorem peel {x : MachineM α} {f : α → MachineM β} (hx : Heedless g x) (deep : 0 < s.stack.depth)
    {b : β} (ran : (x >>= f) s = .ok b t) :
    ∃ a u, 0 < u.stack.depth ∧ f a u = .ok b t ∧ (x >>= f) (s.upon g) = f a (u.upon g) := by
  obtain ⟨same, deep'⟩ := hx s deep
  rw [run_bind] at ran ⊢
  rw [same]
  cases first : x s with
  | error e u =>
      rw [first] at ran
      cases ran
  | ok a u =>
      rw [first] at ran deep'
      exact ⟨a, u, deep', ran, rfl⟩

/-- A change of anything but the stack and the number of routines run from outside. -/
theorem modified {f : Machine → Machine} (h : ∀ s, f (s.upon g) = (f s).upon g)
    (stack : ∀ s, (f s).stack = s.stack) : Heedless g (modify f : MachineM PUnit) := by
  refine fun s deep => ⟨congrArg (EStateM.Result.ok PUnit.unit) (h s), ?_⟩
  change 0 < (f s).stack.depth
  rw [stack]
  exact deep

theorem inMemory (x : MemoryM α) : Heedless g (inMemory x) := by
  intro s deep
  have memory : (s.upon g).memory = s.memory := rfl
  rw [run_inMemory, run_inMemory, memory]
  cases x s.memory <;> exact ⟨rfl, deep⟩

theorem quit : Heedless g quit := by
  intro s deep
  rw [run_quit, run_quit]
  change (if s.state = .quit then _ else _) = _ ∧ _
  split <;> exact ⟨rfl, deep⟩

/-! ### Words and locals of the running routine -/

/-- What becomes of the stack is the same with one more frame at the bottom. -/
theorem onStack {f : CallStack → Except Fault CallStack}
    (h : ∀ k : CallStack, 0 < k.depth → f (k.upon g) = (f k).map (CallStack.upon g))
    (keeps : ∀ k k' : CallStack, f k = .ok k' → k'.depth = k.depth) : Heedless g (onStack f) := by
  intro s deep
  have stack : (s.upon g).stack = s.stack.upon g := rfl
  rw [run_onStack, run_onStack, stack, h s.stack deep]
  cases ran : f s.stack with
  | error e => exact ⟨rfl, deep⟩
  | ok k =>
      refine ⟨rfl, ?_⟩
      change 0 < k.depth
      rw [keeps _ _ ran]
      exact deep

theorem push (w : Word) : Heedless g (push w) := by
  refine onStack (fun k _ => k.push_upon w) fun k k' ran => ?_
  unfold CallStack.push at ran
  split at ran
  · cases ran
  · cases ran
    rfl

theorem replaceTop (w : Word) : Heedless g (replaceVariable .stack w) := by
  show Heedless g (Machine.onStack (·.replaceTop w))
  refine onStack (fun k deep => CallStack.replaceTop_upon deep w) fun k k' ran => ?_
  rw [CallStack.replaceTop_eq_map] at ran
  obtain ⟨p, -, rfl⟩ := Except.map_eq_ok ran
  rfl

theorem writeLocal (i : Byte) (w : Word) : Heedless g (writeVariable (.localVar i) w) := by
  show Heedless g (Machine.onStack (·.writeLocal i w))
  refine onStack (fun k deep => CallStack.writeLocal_upon deep i w) fun k k' ran => ?_
  obtain ⟨f, fs, locals, frames, -, rfl⟩ := CallStack.writeLocal_ok ran
  rw [CallStack.depth, CallStack.depth, frames]
  rfl

theorem pop : Heedless g pop := by
  intro s deep
  have stack : (s.upon g).stack = s.stack.upon g := rfl
  rw [run_pop, run_pop, stack, CallStack.pop, CallStack.pop, CallStack.top_upon deep]
  cases s.stack.top with
  | error e => exact ⟨rfl, deep⟩
  | ok p => exact ⟨rfl, deep⟩

/-- Something is looked up that is the same with one more frame at the bottom. -/
theorem looked {f : CallStack → Except Fault α}
    (h : ∀ k : CallStack, 0 < k.depth → f (k.upon g) = f k) :
    Heedless g (get >>= fun s => liftM (f s.stack)) := by
  intro s deep
  change (liftM (f (s.stack.upon g)) : MachineM α) (s.upon g) = moved (upon g)
    ((liftM (f s.stack) : MachineM α) s) ∧
    0 < (endState ((liftM (f s.stack) : MachineM α) s)).stack.depth
  rw [h s.stack deep]
  exact lift (f s.stack) s deep

theorem peek : Heedless g (peekVariable .stack) := by
  show Heedless g (get >>= fun s => liftM s.stack.peek)
  refine looked fun k deep => ?_
  rw [CallStack.peek, CallStack.peek, CallStack.top_upon deep]

theorem readLocal (i : Byte) : Heedless g (readVariable (.localVar i)) := by
  show Heedless g (get >>= fun s => liftM (s.stack.readLocal i))
  refine looked (f := fun k => k.readLocal i) fun k deep => ?_
  rw [CallStack.readLocal, CallStack.readLocal, CallStack.current_upon deep]

theorem current : Heedless g (get >>= fun s => (liftM s.stack.current : MachineM Frame)) :=
  looked fun _ deep => CallStack.current_upon deep

/-! ### Instructions -/

/-- Operations on values take no notice of a frame below all others. -/
theorem values {x : MachineM α} (h : OnValues true x) : Heedless g x := by
  induction h with
  | pure a => exact pure a
  | throw e => exact throw e
  | bind _ _ ihx ihf => exact ihx.bind ihf
  | @look _ f h _ ih =>
      intro s deep
      have same : f (s.upon g) = f s := (h (s.upon g)).symm.trans (h s)
      change f (s.upon g) (s.upon g) = moved (upon g) (f s s) ∧ _
      rw [same]
      exact ih s s deep
  | argumentCount _ ih => exact current.bind fun frame => ih frame.argumentCount
  | push w => exact push w
  | pop => exact pop
  | peek => exact peek
  | replaceTop w => exact replaceTop w
  | inMemory => exact inMemory _
  | write a bs => exact (inMemory _).bind fun _ => modified (fun _ => rfl) fun _ => rfl
  | host f => exact fun _ deep => ⟨rfl, deep⟩
  | setStreams | setRandom => exact modified (fun _ => rfl) fun _ => rfl

theorem closed : ClosedWriting true (Heedless g) where
  values := values
  bind := bind
  readLocal := readLocal
  writeLocal := writeLocal

/-- What an instruction does to values, calls and requests for input apart.  An instruction that
begins anew, asks for the number of frames or unwinds them is left to the interpreter. -/
theorem wayOf {i : Instruction} (translated : i.opcode.interpreterOnly = false)
    (reads : i.opcode.readsInput = false) (call : i.opcode.isCall = false) :
    Heedless g (wayOf i) := by
  obtain ⟨noRestart, noCatch, noThrow⟩ := Opcode.ne_of_translated translated
  refine closed.wayOf (fun _ => rfl) (fun _ => quit) (fun op => absurd op noRestart)
    (fun op => absurd op noCatch) (fun op => absurd op noThrow) (fun input => ?_) fun calls => ?_
  · simp [reads] at input
  · simp [call] at calls

end Heedless

/-! ## One instruction -/

/-- A call finds the same routine; one frame more has to fit. -/
theorem callPacked_upon {packed : Word} {args : List Word} {store : Option Variable}
    {returnAddress : Nat} (deep : 0 < s.stack.depth)
    (ran : callPacked packed args store returnAddress s = .ok () t)
    (shallow : t.stack.depth < maxCallDepth) :
    callPacked packed args store returnAddress (s.upon g) = .ok () (t.upon g) := by
  unfold callPacked at ran ⊢
  by_cases zero : packed = 0
  · rw [if_pos zero] at ran ⊢
    have heedless : Heedless g (storeResult store 0) := Heedless.closed.storeResult store 0
    have same := (heedless s deep).1
    change storeResult store 0 s = .ok () t at ran
    rw [ran] at same
    exact same
  · rw [if_neg zero] at ran ⊢
    change callRoutine (s.header.routineAddress packed) args store returnAddress s = .ok () t at ran
    change callRoutine (s.header.routineAddress packed) args store returnAddress (s.upon g) = _
    -- The frames do not matter to the header of the routine, only to whether one more fits.
    cases header : routineHeader s.memory s.header.version (s.header.routineAddress packed) with
    | error e =>
        rw [run_callRoutine_error header] at ran
        cases ran
    | ok p =>
        rw [run_callRoutine header] at ran
        rw [run_callRoutine (s := s.upon g) header]
        split at ran
        · cases ran
        · cases ran
          have room : ¬maxCallDepth ≤ (s.upon g).stack.depth := by
            rw [show (s.upon g).stack.depth = s.stack.depth + 1 from CallStack.depth_upon]
            exact Nat.not_le.mpr shallow
          rw [if_neg room]
          rfl

/-- An instruction that calls does the same. -/
theorem wayOf_call_upon {i : Instruction} (call : i.opcode.isCall = true) (deep : 0 < s.stack.depth)
    {way : Way} (ran : wayOf i s = .ok way t) :
    way = .onward ∧ (t.stack.depth < maxCallDepth → wayOf i (s.upon g) = .ok way (t.upon g)) := by
  rw [wayOf_call call] at ran ⊢
  have operands : Heedless g (operandValues i) := Heedless.closed.operandValues i
  obtain ⟨args, u, deep, ran, same⟩ := operands.peel deep ran
  obtain ⟨packed, v, deep, ran, same'⟩ := (Heedless.lift (g := g) _).peel deep ran
  rw [same, same']
  rw [run_bind] at ran ⊢
  cases called : callPacked packed args.tail i.store i.next v with
  | error e w =>
      rw [called] at ran
      cases ran
  | ok _ w =>
      rw [called] at ran
      cases ran
      refine ⟨rfl, fun shallow => ?_⟩
      rw [callPacked_upon deep called shallow]
      rfl

/-- An instruction that reads input does the same, unless it has to wait. -/
theorem wayOf_read_upon {i : Instruction} (reads : i.opcode.readsInput = true)
    (deep : 0 < s.stack.depth) {way : Way} (ran : wayOf i s = .ok way t) :
    (way = .onward ∧ ∃ request, t.state = .awaiting request) ∨
      wayOf i (s.upon g) = .ok way (t.upon g) := by
  rw [wayOf_read reads] at ran ⊢
  have operands : Heedless g (operandValues i) := Heedless.closed.operandValues i
  obtain ⟨args, u, deep, ran, same⟩ := operands.peel deep ran
  have asks : Heedless g (consult i args) := .values (.consult i args)
  obtain ⟨answer, v, deep, ran, same'⟩ := asks.peel deep ran
  rw [same, same']
  cases answer with
  | inl request =>
      -- A machine that is not run from outside waits here.
      simp only [proceed, run_bind, run_suspend] at ran
      by_cases outside : 0 < v.nested
      · rw [if_pos outside] at ran
        cases ran
      · rw [if_neg outside] at ran
        cases ran
        exact .inl ⟨rfl, request, rfl⟩
  | inr answer =>
      have heedless : Heedless g (proceed i (.inr answer)) :=
        (Heedless.values (.finish answer)).bind fun w => Heedless.closed.settle i _
      have same := (heedless v deep).1
      rw [ran] at same
      exact .inr same

/-- How an instruction goes with one more frame `g` at the bottom, where it leads to `t`
without: `f` is still the oldest of the other frames, or it was left, and the story is
over for the machine without. -/
inductive Accompanied (g f : Frame) (t : Machine) : EStateM.Result Fault Machine Unit → Prop where
  | onward (rests : t.stack.Rests f [] []) (nested : t.nested = 0) :
      Accompanied g f t (.ok () (t.upon g))
  | back {v : Machine} (ended : t.state = .quit) (depth : v.stack.depth = 1) (nested : v.nested = 1)
      (memory : v.memory = t.memory) (host : v.host = t.host) : Accompanied g f t (.ok () v)

variable {f : Frame}

theorem accompanied_return (store : f.store = none) (rests : s.stack.Rests f [] [])
    (alone : s.nested = 0) {w : Word} (ran : returnFrom w s = .ok () t) :
    Accompanied g f t (returnFrom w (s.upon g)) := by
  have outside : 0 < (s.upon g).nested := Nat.succ_pos _
  rcases rests.pop with ⟨locals, frames, -⟩ | ⟨x, xs, frames, higher, rests'⟩
  · -- The oldest frame is left: nobody wants the result, and one machine is back at `g`.
    have frames' : (s.upon g).stack.frames = { f with locals } :: [g] := by
      show s.stack.frames ++ [g] = _
      rw [frames]
      rfl
    have last : (decide (s.stack.depth ≤ 1) && s.nested == 0) = true := by
      rw [CallStack.depth, frames, alone]
      rfl
    have stored (v : Machine) : storeResult f.store w v = .ok () v := by
      rw [store]
      rfl
    rw [run_returnFrom frames' (.inr outside), stored]
    simp only [returnFrom, run_bind, run_get, run_leaveFrame, CallStack.popFrame, frames, last,
      if_true, run_modify, emit, run_quit] at ran
    split at ran
    · rename_i ended
      cases ran
      exact .back ended rfl (by show s.nested + 1 = 1; rw [alone]) rfl rfl
    · cases ran
      exact .back rfl rfl (by show s.nested + 1 = 1; rw [alone]) rfl rfl
  · -- A routine returns that was called on the way.
    have callers : xs ≠ [] := List.ne_nil_of_length_pos (Nat.zero_lt_of_lt higher)
    have frames' : (s.upon g).stack.frames = x :: (xs ++ [g]) := by
      show s.stack.frames ++ [g] = _
      rw [frames]
      rfl
    rw [run_returnFrom frames (.inl callers)] at ran
    rw [run_returnFrom frames' (.inr outside)]
    -- Storing the result takes no notice of the frame at the bottom.
    have heedless : Heedless g (storeResult x.store w) := Heedless.closed.storeResult x.store w
    have same := (heedless { s.left x xs w with pc := x.returnAddress }
      (List.length_pos_iff.mpr callers)).1
    rw [ran] at same
    have kept : Respects false _ t := (Bears.closed.storeResult x.store w).of_ok ran
    have goesOn := Accompanied.onward (g := g) (kept.rests f [] [] rests') (kept.nested.trans alone)
    rw [← show moved (upon g) (.ok () t : EStateM.Result Fault Machine Unit)
      = .ok () (t.upon g) from rfl, ← same] at goesOn
    exact goesOn

theorem accompanied_execute {i : Instruction} (translated : i.opcode.interpreterOnly = false)
    (store : f.store = none) (rests : s.stack.Rests f [] []) (alone : s.nested = 0)
    (ran : execute i s = .ok () t) (awake : ∀ request, t.state ≠ .awaiting request)
    (shallow : t.stack.depth < maxCallDepth) : Accompanied g f t (execute i (s.upon g)) := by
  obtain ⟨noRestart, -, noThrow⟩ := Opcode.ne_of_translated translated
  have deep : 0 < s.stack.depth := rests.length_lt_depth
  rw [execute_eq, run_bind] at ran ⊢
  split at ran
  case h_2 => cases ran
  rename_i way v done
  have kept := (respects_wayOf noRestart noThrow).of_ok done
  have rests' := kept.rests f [] [] rests
  have alone' : v.nested = 0 := kept.nested.trans alone
  have same : wayOf i (s.upon g) = .ok way (v.upon g) := by
    -- Calls need room and requests for input an answer; nothing else looks at the frames.
    by_cases call : i.opcode.isCall = true
    · obtain ⟨rfl, called⟩ := wayOf_call_upon (g := g) call deep done
      cases ran
      exact called shallow
    · by_cases reads : i.opcode.readsInput = true
      · rcases wayOf_read_upon (g := g) reads deep done with ⟨rfl, request, waits⟩ | same
        · cases ran
          exact absurd waits (awake request)
        · exact same
      · have heedless : Heedless g (wayOf i) :=
          .wayOf translated (Bool.eq_false_iff.mpr reads) (Bool.eq_false_iff.mpr call)
        have same := (heedless s deep).1
        rw [done] at same
        exact same
  rw [same]
  cases way with
  | onward =>
      cases ran
      exact .onward rests' alone'
  | goto a =>
      cases ran
      exact .onward rests' alone'
  | leave w => exact accompanied_return store rests' alone' ran

/-- Both machines find the same instruction, and carry it out the same way. -/
theorem accompanied_step
    (translated : ∀ i, s.nextInstruction? = some i → i.opcode.interpreterOnly = false)
    (store : f.store = none) (rests : s.stack.Rests f [] []) (alone : s.nested = 0)
    (ran : step s = .ok () t) (awake : ∀ request, t.state ≠ .awaiting request)
    (shallow : t.stack.depth < maxCallDepth) : Accompanied g f t (step (s.upon g)) := by
  obtain ⟨i, decoded, u, running, hd, executed, rfl⟩ := step_ok ran
  have accompanied := accompanied_execute (g := g) (s := s.fetched decoded i)
    (translated i (nextInstruction?_eq hd)) store rests alone executed awake shallow
  have begins : (s.upon g).fetched decoded i = (s.fetched decoded i).upon g := rfl
  rw [step_of_decoded (s := s.upon g) running hd, begins]
  generalize execute i ((s.fetched decoded i).upon g) = result at accompanied
  cases accompanied with
  | onward rests alone => exact .onward rests alone
  | back ended depth nested memory host => exact .back ended depth nested memory host

/-! ## Whole runs -/

/-- A machine that a run to the end of the story comes through is not waiting. -/
theorem awake_of_ended {bound : Nat} (ran : runToDepth 0 bound s = .ok () t)
    (ended : t.state = .quit) (request : InputRequest) : s.state ≠ .awaiting request := by
  intro waits
  have stopped : ¬s.Proceeds 0 := fun h => by simp [h.2] at waits
  cases bound with
  | zero =>
      rw [runToDepth_zero] at ran
      cases ran
  | succ bound =>
      rcases runToDepth_stops stopped bound with done | failed
      · cases done.symm.trans ran
        cases waits.symm.trans ended
      · cases failed.symm.trans ran

/-- With one more frame `g` at the bottom, a run from `s` ends with what `t` has in its memory and
its host, and all states that it goes through are states of the run without. -/
def EndsUpon (g : Frame) (bound : Nat) (s t : Machine) : Prop :=
  ∃ v, runToDepth 1 bound (s.upon g) = .ok () v ∧ v.nested = 1 ∧ v.memory = t.memory ∧
    v.host = t.host ∧ ∀ w, Visits 1 (s.upon g) w → w.Proceeds 1 →
      ∃ u, Visits 0 s u ∧ u.Proceeds 0 ∧ w = u.upon g

theorem proceeds_upon (proceeds : s.Proceeds 0) : (s.upon g).Proceeds 1 := by
  refine ⟨?_, proceeds.2⟩
  rw [show (s.upon g).stack.depth = s.stack.depth + 1 from CallStack.depth_upon]
  exact Nat.succ_lt_succ proceeds.1

/-- A story that is over already stays where it is. -/
theorem endsUpon_quit (alone : s.nested = 0) (ended : s.state = .quit) (bound : Nat) :
    EndsUpon g (bound + 1) s s := by
  have ended' : (s.upon g).state = .quit := ended
  refine ⟨s.upon g, runToDepth_quit ended' bound, congrArg (· + 1) alone, rfl, rfl, ?_⟩
  intro w visits proceeds
  rcases visits.first with rfl | ⟨u, first, -⟩
  · cases proceeds.2.symm.trans ended'
  · cases first.2.symm.trans ended'

/-- A step that keeps the new frame out of it is one step of both runs. -/
theorem endsUpon_step {u : Machine} {bound : Nat} (proceeds : s.Proceeds 0)
    (next : step s = .ok () u)
    (stepped : step (s.upon g) = .ok () (u.upon g)) (rest : EndsUpon g bound u t) :
    EndsUpon g (bound + 1) s t := by
  obtain ⟨v, ran, nested, memory, host, passed⟩ := rest
  refine ⟨v, ?_, nested, memory, host, fun w visits going => ?_⟩
  · rw [runToDepth_step (proceeds_upon proceeds), stepped]
    exact ran
  · rcases visits.first with rfl | ⟨x, -, first, later⟩
    · exact ⟨s, .start, proceeds, rfl⟩
    · cases stepped.symm.trans first
      obtain ⟨y, visits', proceeds', same⟩ := passed w later going
      exact ⟨y, (Visits.start.step proceeds next).trans visits', proceeds', same⟩

/-- The step that leaves the oldest frame is the last one of both runs. -/
theorem endsUpon_back {v : Machine} (proceeds : s.Proceeds 0)
    (stepped : step (s.upon g) = .ok () v) (depth : v.stack.depth = 1) (nested : v.nested = 1)
    (memory : v.memory = t.memory) (host : v.host = t.host) (bound : Nat) :
    EndsUpon g (bound + 2) s t := by
  have low : ¬v.Proceeds 1 := fun h => Nat.lt_irrefl 1 (depth ▸ h.1)
  refine ⟨v, ?_, nested, memory, host, fun w visits going => ?_⟩
  · rw [runToDepth_step (proceeds_upon proceeds), stepped]
    exact runToDepth_low (Nat.le_of_eq depth) bound
  · rcases visits.first with rfl | ⟨x, -, first, rest⟩
    · exact ⟨s, .start, proceeds, rfl⟩
    · cases stepped.symm.trans first
      rcases rest.first with rfl | ⟨y, proceeds, -⟩
      · exact absurd going low
      · exact absurd proceeds low

/-- A story that is interpreted to its end runs the same way with one more frame at the bottom, from
state to state, until the story is over or its oldest frame is left. -/
theorem runToDepth_upon {bound : Nat} (store : f.store = none) (rests : s.stack.Rests f [] [])
    (alone : s.nested = 0) (ran : runToDepth 0 bound s = .ok () t) (ended : t.state = .quit)
    (translated : ∀ u, Visits 0 s u → u.Proceeds 0 →
      ∀ i, u.nextInstruction? = some i → i.opcode.interpreterOnly = false)
    (shallow : ∀ u, Visits 0 s u → u.stack.depth < maxCallDepth) : EndsUpon g bound s t := by
  -- By induction on the instructions left, which are as many for both.
  induction bound generalizing s with
  | zero =>
      rw [runToDepth_zero] at ran
      cases ran
  | succ bound ih =>
      cases state : s.state with
      | quit =>
          rw [runToDepth_quit state] at ran
          obtain rfl : s = t := (EStateM.Result.ok.inj ran).2
          exact endsUpon_quit alone state bound
      | awaiting request => exact absurd state (awake_of_ended ran ended request)
      | running =>
          have proceeds : s.Proceeds 0 := ⟨rests.length_lt_depth, state⟩
          rw [runToDepth_step proceeds] at ran
          cases next : step s with
          | error e u =>
              rw [next] at ran
              cases ran
          | ok _ u =>
              rw [next] at ran
              change runToDepth 0 bound u = .ok () t at ran
              have later (w : Machine) (visits : Visits 0 u w) : Visits 0 s w :=
                (Visits.start.step proceeds next).trans visits
              have accompanied :=
                accompanied_step (g := g) (translated s .start proceeds) store rests alone
                next (awake_of_ended ran ended) (shallow u (later u .start))
              generalize stepped : step (s.upon g) = result at accompanied
              cases accompanied with
              | onward rests' alone' =>
                  have rest := ih rests' alone' ran (fun w visits => translated w (later w visits))
                    fun w visits => shallow w (later w visits)
                  exact endsUpon_step proceeds next stepped rest
              | back ended' depth nested memory host =>
                  cases bound with
                  | zero =>
                      rw [runToDepth_zero] at ran
                      cases ran
                  | succ bound =>
                      rw [runToDepth_quit ended'] at ran
                      obtain rfl : u = t := (EStateM.Result.ok.inj ran).2
                      exact endsUpon_back proceeds stepped depth nested memory host bound

end Machine
end ZMachine
