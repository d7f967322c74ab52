/-
  When the machine waits for input.

  Only an instruction that reads input makes the machine wait, with its last
  act, and only if no routine is run from outside.  So the machine does not
  wait after an instruction that failed, nor after a routine that was run
  from outside, interpreted or as compiled code.
-/
import ZMachine.Proofs.Nesting
import ZMachine.Proofs.StackDiscipline

namespace ZMachine

namespace Machine

variable {α : Type} {s t : Machine}

/-- The machine does not wait for input. -/
def Awake (s : Machine) : Prop := ∀ request, s.state ≠ .awaiting request

theorem awake_of_running (h : s.state = .running) : s.Awake := by simp [Awake, h]

theorem awake_of_quit (h : s.state = .quit) : s.Awake := by simp [Awake, h]

/-- An awake machine stays awake. -/
def StaysAwake (s t : Machine) : Prop := s.Awake → t.Awake

instance : IsPreorder Machine StaysAwake where
  refl _ := id
  trans _ _ _ h h' := h' ∘ h

/-! ## One instruction -/

theorem Sustains.staysAwake (h : Sustains false s t) : StaysAwake s t := by
  intro awake request awaiting
  rcases h.state with same | ended | ⟨permitted, -⟩
  · exact awake request (same ▸ awaiting)
  · exact awake_of_quit ended request awaiting
  · cases permitted

theorem staysAwake_of_sustains {x : MachineM α} (h : Leads (Sustains false) x) :
    Leads StaysAwake x :=
  h.mono fun _ _ => Sustains.staysAwake

theorem staysAwake_of_does (raw : Bool) {x : MachineM α} (h : Does raw false x) :
    Leads StaysAwake x :=
  staysAwake_of_sustains (sustains_of_respects (respects_of_does raw h))

theorem staysAwake_values {x : MachineM α} (h : OnValues true x) : Leads StaysAwake x :=
  staysAwake_of_does true h.does

theorem staysAwake_start : Leads StaysAwake start := by
  refine Leads.bind (.modified fun _ _ => awake_of_running rfl) fun _ => Leads.get.bind fun _ => ?_
  refine .ite _ ?_ (Leads.bind ?_ fun _ => .modified fun _ awake => awake)
  · exact staysAwake_of_sustains (sustains_of_respects (respects_callRoutine _ _ _ _))
  · intro s
    rw [run_onStack]
    split <;> exact fun awake => awake

theorem staysAwake_restart : Leads StaysAwake restart := by
  refine (staysAwake_of_does false (does_ask _)).bind fun _ => Leads.get.bind fun _ => ?_
  refine (staysAwake_of_does false (does_ask _)).bind fun _ => ?_
  refine Leads.bind (.modified fun _ awake => awake) fun _ => ?_
  refine (staysAwake_of_does false (does_ask _)).bind fun _ => ?_
  refine (staysAwake_of_does true (does_inMemory (MemoryM.tame_writeWord _ _).size)).bind
    fun _ => ?_
  refine Leads.bind (.modified fun _ awake => awake) fun _ => Leads.get.bind fun s => ?_
  refine (staysAwake_of_does true (does_inMemory (tame_describeInterpreter _ _).size)).bind
    fun _ => ?_
  exact staysAwake_start

theorem staysAwake_enterCompiled (a : Nat) (args : List Word) :
    Leads StaysAwake (enterCompiled a args) := by
  refine staysAwake_of_sustains
    (sustains_of_respects (Leads.get.bind fun _ => Leads.bind ?_ fun _ => ?_))
  · refine .discard (Leads.get.bind fun _ => (respects_of_does false (does_ask _)).bind fun _ => ?_)
    refine (respects_pushFrame fun _ => rfl).bind fun _ => Leads.bind ?_ fun _ => .pure _
    exact respects_modify (fun _ => rfl) (fun _ => rfl) (fun _ => .inl rfl)
  · exact respects_emit _

/-- After an instruction the machine waits only if no routine is run from outside. -/
theorem awake_or_alone (i : Instruction) (awake : s.Awake) :
    (endState (execute i s)).Awake ∨ (endState (execute i s)).nested = 0 := by
  by_cases restarts : i.opcode = .restart
  · rw [execute_restart restarts]
    exact .inl (staysAwake_restart s awake)
  · have sustains := sustains_execute restarts s
    rcases sustains.state with same | ended | ⟨-, alone, -⟩
    · exact .inl fun request awaiting => awake request (same ▸ awaiting)
    · exact .inl (awake_of_quit ended)
    · exact .inr (sustains.nested.trans alone)

/-- An instruction that fails does not make the machine wait. -/
theorem awake_of_failed {i : Instruction} {e : Fault} (awake : s.Awake)
    (failed : execute i s = .error e t) : t.Awake := by
  by_cases restarts : i.opcode = .restart
  · rw [execute_restart restarts] at failed
    exact staysAwake_restart.of_error failed awake
  cases reads : i.opcode.readsInput with
  | false =>
      have sustains := sustains_execute restarts
      rw [reads] at sustains
      exact (sustains.of_error failed).staysAwake awake
  | true =>
      -- Waiting is the last act of such an instruction, and does not fail.
      rw [execute_eq, wayOf_read reads, bind_assoc, run_bind] at failed
      have operands := staysAwake_of_does false (does_operandValues i) s awake
      cases read : operandValues i s with
      | error e u =>
          rw [read] at failed operands
          cases failed
          exact operands
      | ok args u =>
          rw [read] at operands
          simp only [read, run_bind] at failed
          have asking := staysAwake_values (.consult i args) u operands
          cases asked : consult i args u with
          | error e v =>
              rw [asked] at failed asking
              cases failed
              exact asking
          | ok p v =>
              rw [asked] at failed asking
              cases p with
              | inl request =>
                  simp only [proceed, run_bind, run_suspend] at failed
                  by_cases outside : 0 < v.nested
                  · simp only [if_pos outside] at failed
                    cases failed
                    exact asking
                  · simp only [if_neg outside] at failed
                    cases failed
              | inr answer =>
                  have finishes : Leads StaysAwake (proceed i (.inr answer) >>= go) :=
                    staysAwake_of_sustains
                      ((sustains_of_respects ((Bears.values (.finish answer)).bind fun w =>
                      Bears.closed.settle i (.value w))).bind sustains_go)
                  have done : (proceed i (.inr answer) >>= go) v = .error e t := by
                    rw [run_bind]
                    exact failed
                  exact finishes.of_error done asking

theorem awake_of_step_failed {e : Fault} (running : s.state = .running)
    (failed : step s = .error e t) : t.Awake := by
  have awake : s.Awake := awake_of_running running
  rcases hd : s.code.decoded.decode s.memory s.pc with ⟨r, decoded⟩
  cases r with
  | error e' =>
      rw [step_of_undecoded running hd] at failed
      cases failed
      exact awake
  | ok i =>
      rw [step_of_decoded running hd] at failed
      cases executed : execute i (s.fetched decoded i) with
      | ok _ u =>
          rw [executed] at failed
          cases failed
      | error e' u =>
          rw [executed] at failed
          cases failed
          exact awake_of_failed (s := s.fetched decoded i) awake executed

/-! ## Routines run from outside -/

/-- After a step the machine waits only if no routine is run from outside. -/
theorem awake_or_alone_step (awake : s.Awake) :
    (endState (step s)).Awake ∨ (endState (step s)).nested = 0 := by
  rcases endState_step s with same | ⟨_, _, -, same⟩ | ⟨i, decoded, events, -, -, same⟩
  · rw [same]
    exact .inl awake
  · rw [same]
    exact .inl awake
  · rw [same]
    exact awake_or_alone (s := s.fetched decoded i) i awake

theorem awake_or_alone_visits {floor : Nat} (awake : s.Awake) (visits : Visits floor s t) :
    t.Awake ∨ t.nested = 0 := by
  cases visits with
  | start => exact .inl awake
  | step _ proceeds ran =>
      have after := awake_or_alone_step (awake_of_running proceeds.2)
      rwa [ran] at after

/-- How an action of a run may end, if it comes to an end with its count: awake. -/
def EndsAwake {σ : Type} (machine : σ → Machine) : EStateM.Result Halt σ α → Prop
  | .ok _ e => (machine e).Awake
  | .error h e => h = .exhausted ∨ h = .miscounted ∨ (machine e).Awake

/-- A routine run from outside ends awake: where it would wait, its count is gone. -/
theorem endsAwake_runRoutine (bound a : Nat) (args : List Word) (awake : s.Awake) :
    EndsAwake id (runRoutine bound a args s) := by
  by_cases zero : a = 0
  · subst zero
    exact awake
  have call :=
    staysAwake_of_sustains (sustains_of_respects (respects_callRoutine a args none s.pc)) s awake
  cases called : callRoutine a args none s.pc s with
  | error e t =>
      rw [called] at call
      rw [runRoutine_of_uncalled zero called]
      exact .inr (.inr call)
  | ok _ t =>
      rw [called] at call
      rw [runRoutine_of_called zero called]
      -- The states on the way are awake, or their count is gone: the story began anew.
      have ended : (endState (runToDepth s.stack.depth bound t.deeper)).Awake ∨
          (endState (runToDepth s.stack.depth bound t.deeper)).nested = 0 := by
        refine endState_runToDepth_of (P := fun u => u.Awake ∨ u.nested = 0) bound ?_ ?_
        · exact fun u visits => awake_or_alone_visits (s := t.deeper) call visits
        · exact fun u _ proceeds => awake_or_alone_step (awake_of_running proceeds.2)
      generalize runToDepth s.stack.depth bound t.deeper = r at ended
      cases r with
      | ok _ u =>
          change u.Awake ∨ u.nested = 0 at ended
          by_cases alone : u.nested = 0
          · rw [surfaced, if_pos alone]
            exact .inr (.inl rfl)
          · have awake := ended.resolve_right alone
            rw [surfaced, if_neg alone]
            split <;> exact awake
      | error h u =>
          change u.Awake ∨ u.nested = 0 at ended
          cases h with
          | exhausted => exact .inl rfl
          | fault | quit | miscounted =>
              by_cases alone : u.nested = 0
              · simp only [surfaced, if_pos alone]
                exact .inr (.inl rfl)
              · simp only [surfaced, if_neg alone]
                exact .inr (.inr (ended.resolve_right alone))

end Machine

/-! ## Compiled code -/

namespace Engine

open Machine

variable {α β : Type}

/-- From an awake machine, an action of the engine ends awake. -/
def Wakes (x : EngineM α) : Prop := ∀ e : Engine, e.machine.Awake → EndsAwake machine (x e)

namespace Wakes

theorem pure (a : α) : Wakes (Pure.pure a) := fun _ awake => awake

theorem throw (h : Halt) : Wakes (MonadExcept.throw h : EngineM α) :=
  fun _ awake => .inr (.inr awake)

theorem bind {x : EngineM α} {f : α → EngineM β} (hx : Wakes x) (hf : ∀ a, Wakes (f a)) :
    Wakes (x >>= f) := by
  intro e awake
  have first := hx e awake
  rw [run_bind]
  cases ran : x e with
  | ok a e' =>
      rw [ran] at first
      exact hf a e' first
  | error h e' =>
      rw [ran] at first
      exact first

theorem ite {x y : EngineM α} (c : Prop) [Decidable c] (hx : Wakes x) (hy : Wakes y) :
    Wakes (if c then x else y) := by
  split
  · exact hx
  · exact hy

theorem get_bind {f : Engine → EngineM α} (hf : ∀ e, Wakes (f e)) : Wakes (get >>= f) :=
  fun e awake => hf e e awake

theorem modified {f : Engine → Engine} (h : ∀ e, (f e).machine.state = e.machine.state) :
    Wakes (modify f : EngineM PUnit) :=
  fun e awake request awaiting => awake request (h e ▸ awaiting)

theorem act {x : MachineM α} (h : Leads StaysAwake x) : Wakes (act x) := by
  intro e awake
  have kept := h e.machine awake
  rw [run_act]
  cases ran : x e.machine with
  | ok a s =>
      rw [ran] at kept
      exact kept
  | error f s =>
      rw [ran] at kept
      exact .inr (.inr kept)

theorem count (f : EngineCounts → EngineCounts) : Wakes (count f) := .modified fun _ => rfl

theorem prepare (a : Nat) : Wakes (prepare a) := by
  intro e awake
  obtain ⟨code, machine⟩ := machine_prepare a e
  have kept : (endState (Engine.prepare a e)).machine.Awake := by
    rw [machine]
    exact awake
  cases ran : Engine.prepare a e with
  | ok tier e' =>
      rw [ran] at kept
      exact kept
  | error h e' =>
      rw [ran] at kept
      exact .inr (.inr kept)

theorem resultOf (result : Option Word) : Wakes (resultOf result) := by
  cases result with
  | none => exact .throw _
  | some w => exact .pure w

instance : Compositional (fun {_} x (_ : EngineM _) => Wakes x :
    {α : Type} → EngineM α → EngineM α → Prop) where
  pure := .pure
  bind := .bind

theorem of_values {x : MachineM α} (h : OnValues true x) : Wakes (Engine.act x) :=
  act (staysAwake_values h)

theorem quit : Wakes (Engine.act Machine.quit) :=
  act (staysAwake_of_sustains (sustains_of_respects respects_quit))

/-- The helpers of compiled code end awake, if calls do. -/
theorem helpers {run : Nat → List Word → EngineM (Option Word)}
    (calls : ∀ a args, Wakes (run a args)) :
    Helpers.Alike (fun {_} x (_ : EngineM _) => Wakes x) Eq (helpers run) (helpers run) where
  trap f := .throw (.fault f)
  exhausted := .throw .exhausted
  push w := of_values (.push w)
  pop := of_values .pop
  peek := of_values .peek
  replaceTop w := of_values (.replaceTop w)
  readGlobal i := of_values (.readGlobal i)
  writeGlobal i w := of_values (.writeGlobal i w)
  perform opcode args := of_values (.performed opcode args)
  call a args := (calls a args).bind fun result => resultOf result
  callPacked packed args := by
    refine .ite _ (.pure 0) (.get_bind fun e => ?_)
    exact (calls _ args).bind fun result => resultOf result
  print {n _} _ := by
    refine .get_bind fun e => ?_
    split
    · exact of_values (.print _)
    · exact .throw _
  readLine textBuffer parseBuffer := of_values (onValues_readLine textBuffer parseBuffer)
  readChar := of_values onValues_readChar
  quit := quit.bind fun _ => .throw .quit

theorem finishCompiled {x : EngineM Word} (hx : Wakes x) : Wakes (finishCompiled x) := by
  have leave (w : Word) : Leads StaysAwake (leaveCompiled w) := by
    refine staysAwake_of_sustains (sustains_leaveFrame.bind fun _ => ?_)
    exact Leads.bind (.modified fun _ => ⟨rfl, .inl rfl⟩) fun _ => sustains_emit _
  intro e awake
  have first := hx e awake
  unfold Engine.finishCompiled
  cases ran : x e with
  | ok w e' =>
      rw [ran] at first
      exact ((act (leave w)).bind fun _ => .pure (some w)) e' first
  | error h e' =>
      rw [ran] at first
      cases h with
      | quit =>
          -- No bound was reached when the code quit, so the machine is awake.
          have awake := first.resolve_left nofun |>.resolve_left nofun
          exact (quit.bind fun _ => .pure none) e' awake
      | exhausted => exact .inl rfl
      | miscounted => exact .inr (.inl rfl)
      | fault f =>
          dsimp only
          split <;> exact first

/-- Running a routine, compiled or interpreted, ends awake. -/
theorem invoke (bound a : Nat) (args : List Word) : Wakes (invoke bound a args) := by
  induction bound generalizing a args with
  | zero => exact .throw _
  | succ bound ih =>
      unfold Engine.invoke
      refine .get_bind fun e => .ite _ (.throw (.fault .interrupted)) ?_
      refine .ite _ (.pure _) ((prepare a).bind fun tier => ?_)
      cases tier with
      | interpreted =>
          refine (count _).bind fun _ e awake => ?_
          have ends := endsAwake_runRoutine bound a args awake
          rw [run_onMachine]
          cases ran : runRoutine bound a args e.machine with
          | ok w s =>
              rw [ran] at ends
              exact ends
          | error h s =>
              rw [ran] at ends
              exact ends
      | compiled code statistics =>
          refine (act (staysAwake_enterCompiled a _)).bind fun _ => (count _).bind fun _ =>
            finishCompiled ?_
          exact (helpers ih).runCode code.alike_refl bound _

end Wakes

end Engine

end ZMachine
