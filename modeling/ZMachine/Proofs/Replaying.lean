/-
  Observers that follow a run.

  The machine is stepped, runs routines from outside, and is run as compiled
  code, in any order and with any end.  An observer that subscribes at some
  time can tell from the events which routines are active at any later time.
  Compiled code carries out no instructions of its own, so whether the story
  began anew is seen at the machines that interpreted ones were carried out
  from; a record of them is kept while the engine runs.
-/
import ZMachine.Proofs.Chronicle
import ZMachine.Proofs.Transparency

namespace ZMachine

open Machine

namespace Engine

variable {α β : Type} {e : Engine}

/-! ## What the engine does itself -/

/-- No step is made, and the observers are told what else happens. -/
def Reports (e e' : Engine) : Prop := Told e.machine e'.machine

instance : IsPreorder Engine Reports where
  refl e := refl_of Told e.machine
  trans _ _ _ h h' := trans_of Told h h'

/-- The machine is left alone. -/
theorem reports_of_eq {e e' : Engine} (machine : e'.machine = e.machine) : Reports e e' := by
  rw [Reports, machine]
  exact refl_of Told e.machine

theorem reports_act {x : MachineM α} (h : Leads Told x) : Leads Reports (act x) := by
  intro e
  rw [Reports, machine_act]
  exact h e.machine

theorem reports_values {x : MachineM α} (h : OnValues true x) : Leads Reports (act x) :=
  reports_act (Bears.values h)

theorem reports_count (f : EngineCounts → EngineCounts) : Leads Reports (count f) :=
  .modified fun _ => reports_of_eq rfl

theorem reports_prepare (a : Nat) : Leads Reports (prepare a) := by
  intro e
  obtain ⟨code, machine⟩ := machine_prepare a e
  rw [Reports, machine]
  exact told_still (.still rfl rfl rfl)

theorem reports_resultOf (result : Option Word) : Leads Reports (resultOf result) := by
  cases result with
  | none => exact .throw _
  | some w => exact .pure w

theorem reports_printLiteral (n : Nat) : Leads Reports (printLiteral n) := by
  refine Leads.get.bind fun e => ?_
  split
  · exact reports_values (.print _)
  · exact .throw _

theorem reports_quit : Leads Reports (act Machine.quit) := reports_act told_quit

/-- However code ended, what follows is told. -/
theorem reports_finish (r : EStateM.Result Halt Engine Word) :
    Reports (endState r) (endState (finishCompiled (fun _ => r) (endState r))) := by
  have leave (w : Word) : Leads Reports (do act (leaveCompiled w); return some w) :=
    (reports_act (told_leaveCompiled w)).bind fun _ => .pure _
  have stop : Leads Reports (do act Machine.quit; return none : EngineM (Option Word)) :=
    reports_quit.bind fun _ => .pure _
  unfold finishCompiled
  cases r with
  | ok w e => exact leave w e
  | error h e =>
      cases h with
      | quit => exact stop e
      | exhausted | miscounted => exact reports_of_eq rfl
      | fault f =>
          dsimp only
          split <;> exact reports_of_eq rfl

/-! ## A record of instructions -/

/-- A result of the engine, with a record. -/
def noting (record : List Machine) :
    EStateM.Result Halt Engine α → EStateM.Result Halt (Engine × List Machine) α
  | .ok a e => .ok a (e, record)
  | .error h e => .error h (e, record)

theorem unrecorded_eq (x : EngineM α) (e : Engine) (record : List Machine) :
    unrecorded x (e, record) = noting record (x e) := by
  rw [unrecorded]
  cases x e <;> rfl

/-- Run a routine by its tier, and record the machines from which instructions are carried out. -/
def watchTier (invoke : Nat → List Word → RecordM (Option Word)) (bound a : Nat)
    (args : List Word) :
    Tier → RecordM (Option Word)
  | .interpreted => do
      modify fun (e, record) => (e, record ++ e.machine.routineTrail bound a args)
      carryOut invoke bound a args .interpreted
  | .compiled code statistics => carryOut invoke bound a args (.compiled code statistics)

/-- Run the routine at an address as `invoke` does, and record the machines from which instructions
are carried out. -/
def invokeWatched : Nat → Nat → List Word → RecordM (Option Word)
  | 0, _, _ => throw .exhausted
  | bound + 1, a, args => do
      if (← get).1.machine.host.interrupted then throw (.fault .interrupted)
      if a = 0 then return some 0
      watchTier (fun a args => invokeWatched bound a args) bound a args (← unrecorded (prepare a))

/-- The machines from which instructions are carried out while the routine at an address is run, as
compiled code where there is some. -/
def watched (bound a : Nat) (args : List Word) (e : Engine) : List Machine :=
  (endState (invokeWatched bound a args (e, []))).2

theorem invokeWatched_succ (bound a : Nat) (args : List Word) (e : Engine) (record : List Machine) :
    invokeWatched (bound + 1) a args (e, record) =
      if e.machine.host.interrupted then .error (.fault .interrupted) (e, record)
      else if a = 0 then .ok (some 0) (e, record)
      else (unrecorded (prepare a) >>= watchTier (fun a args => invokeWatched bound a args)
        bound a args)
        (e, record) := by
  rw [invokeWatched]
  simp only [Bind.bind, EStateM.bind, run_get]
  by_cases interrupted : e.machine.host.interrupted = true
  · simp only [if_pos interrupted]
    rfl
  · simp only [if_neg interrupted]
    by_cases zero : a = 0
    · simp only [if_pos zero]
      rfl
    · simp only [if_neg zero]
      rfl

/-- With a record the same is done as without, and the machine passes what is recorded. -/
def Watches (x : RecordM α) (y : EngineM α) : Prop :=
  ∀ e record, ∃ us, x (e, record) = noting (record ++ us) (y e) ∧
    Traverses us e.machine (endState (y e)).machine

namespace Watches

theorem unrecorded {x : EngineM α} (h : Leads Reports x) : Watches (unrecorded x) x := by
  intro e record
  refine ⟨[], ?_, .nowhere (h e)⟩
  rw [unrecorded_eq, List.append_nil]

theorem pure (a : α) : Watches (Pure.pure a) (Pure.pure a) := unrecorded (.pure a)

theorem throw (h : Halt) :
    Watches (Engine.unrecorded (MonadExcept.throw h : EngineM α)) (MonadExcept.throw h) :=
  unrecorded (.throw h)

theorem bind {x : RecordM α} {y : EngineM α} {f : α → RecordM β} {g : α → EngineM β}
    (first : Watches x y) (rest : ∀ a, Watches (f a) (g a)) : Watches (x >>= f) (y >>= g) := by
  intro e record
  obtain ⟨us, same, passes⟩ := first e record
  rw [run_bind, run_bind, same]
  cases ran : y e with
  | error h e' =>
      rw [ran] at passes
      exact ⟨us, rfl, passes⟩
  | ok a e' =>
      rw [ran] at passes
      obtain ⟨vs, same', passes'⟩ := rest a e' (record ++ us)
      refine ⟨us ++ vs, ?_, passes.trans passes'⟩
      rw [← List.append_assoc]
      exact same'

instance : Compositional (Watches : {α : Type} → RecordM α → EngineM α → Prop) where
  pure := pure
  bind := bind

theorem of_values {x : MachineM α} (h : OnValues true x) :
    Watches (Engine.unrecorded (act x)) (act x) := unrecorded (reports_values h)

/-- The helpers of compiled code carry out no instructions, but for the calls. -/
theorem helpers {run : Nat → List Word → RecordM (Option Word)}
    {run' : Nat → List Word → EngineM (Option Word)}
    (calls : ∀ a args, Watches (run a args) (run' a args)) :
    Helpers.Alike Watches Eq (recordingHelpers run) (helpers run') where
  trap f := throw (.fault f)
  exhausted := throw .exhausted
  push w := of_values (.push w)
  pop := of_values .pop
  peek := of_values .peek
  replaceTop w := of_values (.replaceTop w)
  readGlobal i := of_values (.readGlobal i)
  writeGlobal i w := of_values (.writeGlobal i w)
  perform opcode args := of_values (.performed opcode args)
  call a args := (calls a args).bind fun result => unrecorded (reports_resultOf result)
  callPacked packed args := by
    have rest (a : Nat) : Watches (run a args >>= fun result => Engine.unrecorded (resultOf result))
        (run' a args >>= fun result => resultOf result) :=
      (calls a args).bind fun result => unrecorded (reports_resultOf result)
    by_cases zero : packed = 0
    · simp only [recordingHelpers, Engine.helpers, if_pos zero]
      exact pure 0
    · simp only [recordingHelpers, Engine.helpers, if_neg zero]
      exact fun e record => rest (e.machine.header.routineAddress packed) e record
  print same := same ▸ unrecorded (reports_printLiteral _)
  readLine textBuffer parseBuffer := of_values (onValues_readLine textBuffer parseBuffer)
  readChar := of_values onValues_readChar
  quit := unrecorded (reports_quit.bind fun _ => .throw Halt.quit)

theorem finish {x : RecordM Word} {y : EngineM Word} (h : Watches x y) :
    Watches (finishRecorded x) (finishCompiled y) := by
  intro e record
  obtain ⟨us, same, passes⟩ := h e record
  -- Once code has ended, nothing is recorded.
  have done : finishCompiled y e = finishCompiled (fun _ => y e) (endState (y e)) := rfl
  refine ⟨us, ?_, ?_⟩
  · rw [finishRecorded, same, done]
    cases ran : y e with
    | ok w e' => exact unrecorded_eq _ _ _
    | error h e' => exact unrecorded_eq _ _ _
  · rw [done, ← List.append_nil us]
    exact passes.trans (.nowhere (reports_finish (y e)))

theorem tier {bound : Nat} {run : Nat → List Word → RecordM (Option Word)}
    (calls : ∀ a args, Watches (run a args) (invoke bound a args)) (a : Nat) (args : List Word)
    (tier : Tier) : Watches (watchTier run bound a args tier) (runTier bound a args tier) := by
  cases tier with
  | interpreted =>
      intro e record
      -- The counts are of no account, so the record can be written beforehand.
      have ends : (endState (runTier bound a args .interpreted e)).machine
          = endState (runRoutine bound a args e.machine) :=
        machine_onMachine (runRoutine bound a args) { e with counts := _ }
      refine ⟨e.machine.routineTrail bound a args, unrecorded_eq _ e _, ?_⟩
      rw [ends]
      exact traverses_runRoutine bound a args e.machine
  | compiled code statistics =>
      have enters : Leads Reports (act (enterCompiled a (args.take Helpers.maxArguments))) :=
        reports_act (told_enterCompiled a _)
      refine (unrecorded enters).bind fun _ =>
        (unrecorded (reports_count _)).bind fun _ => finish ?_
      exact (helpers calls).runCode code.alike_refl bound _

/-- A routine is run the same with a record of instructions and without. -/
theorem invoke (bound a : Nat) (args : List Word) :
    Watches (invokeWatched bound a args) (invoke bound a args) := by
  induction bound generalizing a args with
  | zero => exact throw .exhausted
  | succ bound ih =>
      intro e record
      rw [invokeWatched_succ, invoke_succ]
      -- A call that comes to its end at once carries out no instruction.
      have stays (r : EStateM.Result Halt Engine (Option Word))
        (same : (endState r).machine = e.machine) :
          ∃ us, noting record r = noting (record ++ us) r ∧
            Traverses us e.machine (endState r).machine := by
        refine ⟨[], by rw [List.append_nil], ?_⟩
        rw [same]
        exact .nowhere (refl_of Told e.machine)
      by_cases interrupted : e.machine.host.interrupted = true
      · rw [if_pos interrupted, if_pos interrupted]
        exact stays (.error (.fault .interrupted) e) rfl
      rw [if_neg interrupted, if_neg interrupted]
      by_cases zero : a = 0
      · rw [if_pos zero, if_pos zero]
        exact stays (.ok (some 0) e) rfl
      rw [if_neg zero, if_neg zero]
      exact ((unrecorded (reports_prepare a)).bind fun found => tier ih a args found) e record

end Watches

theorem traverses_invoke (bound a : Nat) (args : List Word) (e : Engine) :
    Traverses (e.watched bound a args) e.machine (endState (invoke bound a args e)).machine := by
  obtain ⟨us, same, passes⟩ := Watches.invoke bound a args e []
  have recorded : e.watched bound a args = us := by
    rw [watched, same]
    cases invoke bound a args e <;> rfl
  rw [recorded]
  exact passes

/-! ## Calls -/

/-- Something that is asked of an engine. -/
inductive Call where
  | step
  | routine (bound a : Nat) (args : List Word)
  | invoke (bound a : Nat) (args : List Word)

/-- Answer a call. -/
def Call.run : Call → EngineM (Option Word)
  | .step => do
      act Machine.step
      return none
  | .routine bound a args => onMachine (runRoutine bound a args)
  | .invoke bound a args => Engine.invoke bound a args

/-- The machines from which instructions are carried out meanwhile. -/
def Call.steps : Call → Engine → List Machine
  | .step, e => if e.machine.state = .running then [e.machine] else []
  | .routine bound a args, e => e.machine.routineTrail bound a args
  | .invoke bound a args, e => e.watched bound a args

/-- The engine after a sequence of calls, whatever became of them. -/
def afterCalls (e : Engine) : List Call → Engine
  | [] => e
  | call :: rest => afterCalls (endState (call.run e)) rest

/-- The machines from which instructions are carried out in a sequence of calls. -/
def stepsOf (e : Engine) : List Call → List Machine
  | [] => []
  | call :: rest => call.steps e ++ stepsOf (endState (call.run e)) rest

theorem Call.traverses (call : Call) (e : Engine) :
    Traverses (call.steps e) e.machine (endState (call.run e)).machine := by
  cases call with
  | step =>
      have ends : (endState (Call.step.run e)).machine = endState (Machine.step e.machine) := by
        rw [← machine_act, Call.run, run_bind]
        cases act Machine.step e <;> rfl
      rw [ends, Call.steps]
      by_cases running : e.machine.state = .running
      · rw [if_pos running]
        exact traverses_step running
      · rw [if_neg running, endState_step_idle running]
        exact .nowhere (refl_of Told e.machine)
  | routine bound a args =>
      rw [Call.run, machine_onMachine]
      exact traverses_runRoutine bound a args e.machine
  | invoke bound a args => exact traverses_invoke bound a args e

theorem traverses_calls (e : Engine) (calls : List Call) :
    Traverses (e.stepsOf calls) e.machine (e.afterCalls calls).machine := by
  induction calls generalizing e with
  | nil => exact .nowhere (refl_of Told e.machine)
  | cons call rest ih => exact (call.traverses e).trans (ih _)

/-! ## Observers -/

/-- The engine after an observer subscribed. -/
def subscribed (e : Engine) : Engine :=
  { e with machine := { e.machine with events := e.machine.events.subscribe.2 } }

/-- Whoever subscribes to the events of an engine can follow its routines.  Let the engine then be
asked for anything, with the story not beginning anew: what is told leads from the routines that
were active at first to those that are active at last, a routine being left only if it is the
newest, and the end of the story is told no more than once.  The steps that are told of are those
that are made on the way.  Each is told of before anything else happens in it, and, if it succeeds,
after everything else; in between only routines are entered and left, or the story ends. -/
theorem events_replay (e : Engine) (calls : List Call)
    (noRestart : ∀ s ∈ e.subscribed.stepsOf calls, ¬s.Restarts) :
    (∃ told, e.subscribed.machine.events.Heard told (e.subscribed.afterCalls calls).machine.events ∧
      Event.replay e.machine.stack.trace told
        = some (e.subscribed.afterCalls calls).machine.stack.trace ∧
      told.count .quit ≤ 1 ∧
      told.filterMap Event.begun = (e.subscribed.stepsOf calls).map Machine.pc) ∧
    ∀ s ∈ e.subscribed.stepsOf calls, ∃ inner, (∀ event ∈ inner, event.Inner) ∧
      match Machine.step s with
      | .ok _ t => s.events.Heard (.stepping s.pc :: (inner ++ [.stepped s.pc t.pc])) t.events
      | .error _ t => s.events.Heard (.stepping s.pc :: inner) t.events := by
  have observed : e.subscribed.machine.events.observers ≠ [] := by
    simp [subscribed, EventLog.subscribe]
  obtain ⟨⟨told, begun, tells⟩, passed⟩ := traverses_calls e.subscribed calls noRestart
  refine ⟨⟨told, ?_, tells.frames, ?_, begun⟩, fun s mem => ?_⟩
  · rw [tells.events]
    exact EventLog.heard_foldl_emit observed told
  · have quits := tells.quits
    have most : (e.subscribed.afterCalls calls).machine.endings ≤ 1 := by
      unfold endings
      split <;> omega
    omega
  · obtain ⟨running, es, before⟩ := passed s mem
    -- The observer is still there when the step is made.
    have present : s.events.observers ≠ [] := by
      rw [before.events, EventLog.observers_foldl_emit]
      exact observed
    cases ran : Machine.step s with
    | ok _ t =>
        obtain ⟨inner, all, stepTells⟩ := tells_step (noRestart s mem) ran
        refine ⟨inner, all, ?_⟩
        show s.events.Heard _ t.events
        rw [stepTells.events]
        exact EventLog.heard_foldl_emit present _
    | error f t =>
        obtain ⟨inner, all, stepTells⟩ := tells_step_failed (noRestart s mem) running ran
        refine ⟨inner, all, ?_⟩
        show s.events.Heard _ t.events
        rw [stepTells.events]
        exact EventLog.heard_foldl_emit present _

/-- Code that prints carries out no instruction. -/
theorem watched_printing {a id : Nat} {statistics : CompileStatistics} {e' : Engine} (bound : Nat)
    (quiet : e.machine.host.interrupted = false) (nonzero : a ≠ 0)
    (prepared : prepare a e = .ok (.compiled (printing a id) statistics) e') :
    e.watched (bound + 2) a [] = [] := by
  rw [watched, invokeWatched_succ, if_neg (by simp [quiet]), if_neg nonzero]
  simp only [Bind.bind, EStateM.bind, unrecorded, prepared]
  exact unasking_printing statistics bound _ _

/-- The machine after a routine that prints was run with an observer. -/
def overheard : Machine :=
  endState (prints 72 "a\n" (discovered 72 (subscribed { machine := abbreviating }).machine.swept))

/-- The routine is run as compiled code and interpreted, and then a step is made that fails. -/
def overhearing : List Call := [.invoke 9 72 [], .routine 9 72 [], .step]

theorem stepsOf_overhearing : (subscribed { machine := abbreviating }).stepsOf overhearing
    = overheard.routineTrail 9 72 [] ++ [endState (runRoutine 9 72 [] overheard)] := by
  obtain ⟨statistics, e', prepared, machine, literals, -⟩ :=
    prepare_printer (e := subscribed { machine := abbreviating }) [0x8405] 0 rfl
      (.inl (by simp [subscribed])) (by decide +kernel) (by decide +kernel) (by decide +kernel)
  have quiet : (subscribed { machine := abbreviating }).machine.host.interrupted = false := by
    decide +kernel
  have pool : e'.literals[0]? = some "a\n" := by
    rw [literals]
    decide +kernel
  have ran : prints 72 "a\n" e'.machine = .ok () overheard := by
    rw [machine]
    exact eq_ok_of_value? (by decide +kernel)
  obtain ⟨counts, invoked⟩ := invoke_printing 7 quiet (by decide) prepared pool ran
  -- Compiled code carries out no steps; those that are seen come of the second call.
  have silent := watched_printing 7 quiet (by decide) prepared
  have compiled : Call.run (.invoke 9 72 []) (subscribed { machine := abbreviating })
      = .ok (some 1) { e' with machine := overheard, counts } := invoked
  have interpreted :
      (endState (Call.run (.routine 9 72 []) { e' with machine := overheard, counts })).machine
        = endState (runRoutine 9 72 [] overheard) := machine_onMachine _ _
  have running : (endState (runRoutine 9 72 [] overheard)).state = .running := by decide +kernel
  simp only [overhearing, stepsOf, Call.steps, silent, compiled, interpreted, running, if_true,
    endState_ok, List.nil_append, List.append_nil]

theorem events_replay_printing :
    (∀ s ∈ (subscribed { machine := abbreviating }).stepsOf overhearing, ¬s.Restarts) ∧
    ∃ told, (subscribed { machine := abbreviating }).machine.events.Heard told
        ((subscribed { machine := abbreviating }).afterCalls overhearing).machine.events ∧
      Event.replay abbreviating.stack.trace told
        = some ((subscribed { machine := abbreviating }).afterCalls
          overhearing).machine.stack.trace ∧
      told.count .quit ≤ 1 ∧ told.filterMap Event.begun = [73, 64] := by
  have noRestart : ∀ s ∈ (subscribed { machine := abbreviating }).stepsOf overhearing,
      ¬s.Restarts := by
    rw [stepsOf_overhearing]
    decide +kernel
  have places : ((subscribed { machine := abbreviating }).stepsOf overhearing).map pc
      = [73, 64] := by
    rw [stepsOf_overhearing]
    decide +kernel
  refine ⟨noRestart, ?_⟩
  rw [← places]
  exact (events_replay { machine := abbreviating } overhearing noRestart).1

end Engine

end ZMachine
