/-
  The states that a run passes through.

  A run that keeps above a floor of frames goes from instruction to
  instruction.  What holds of every run is shown of the states that it
  visits, one instruction after the other.
-/
import ZMachine.Machine.Run
import ZMachine.Proofs.Actions

namespace ZMachine
namespace Machine

/-- Whether a run above `floor` frames carries out the next instruction. -/
def Proceeds (floor : Nat) (s : Machine) : Prop := floor < s.stack.depth ∧ s.state = .running

instance (floor : Nat) (s : Machine) : Decidable (s.Proceeds floor) :=
  inferInstanceAs (Decidable (_ ∧ _))

/-- A run above `floor` frames that begins in `s` comes to a state between two instructions. -/
inductive Visits (floor : Nat) (s : Machine) : Machine → Prop where
  | start : Visits floor s s
  | step {t u : Machine} (before : Visits floor s t) (proceeds : t.Proceeds floor)
      (ran : Machine.step t = .ok () u) : Visits floor s u

theorem Visits.trans {floor : Nat} {s t u : Machine} (h : Visits floor s t)
    (h' : Visits floor t u) : Visits floor s u := by
  induction h' with
  | start => exact h
  | step _ proceeds ran ih => exact ih.step proceeds ran

/-- A run visits the state that it begins in, and those that it visits from the next one on. -/
theorem Visits.first {floor : Nat} {s t : Machine} (h : Visits floor s t) :
    t = s ∨ ∃ u, s.Proceeds floor ∧ Machine.step s = .ok () u ∧ Visits floor u t := by
  induction h with
  | start => exact .inl rfl
  | step before proceeds ran ih =>
      rcases ih with rfl | ⟨v, first, ran', rest⟩
      · exact .inr ⟨_, proceeds, ran, .start⟩
      · exact .inr ⟨v, first, ran', rest.step proceeds ran⟩

/-! ## One instruction -/

/-- The instruction that the next step carries out, as far as it can be decoded. -/
def nextInstruction? (s : Machine) : Option Instruction :=
  (s.code.decoded.decode s.memory s.pc).1.toOption

/-- The machine when an instruction is about to be carried out: it is decoded, and the program
counter has passed it. -/
def fetched (s : Machine) (decoded : DecodeCache) (i : Instruction) : Machine :=
  { s with
    events := s.events.emit (.stepping s.pc)
    code := { s.code with decoded }
    pc := i.next }

/-- The observers are told that an instruction has run. -/
def stepped (s : Machine) (old : Nat) : Machine :=
  { s with events := s.events.emit (.stepped old s.pc) }

/-- A step decodes the instruction at the program counter and carries it out. -/
theorem step_of_decoded {s : Machine} {i : Instruction} {decoded : DecodeCache}
    (running : s.state = .running) (h : s.code.decoded.decode s.memory s.pc = (.ok i, decoded)) :
    step s =
      match execute i (s.fetched decoded i) with
      | .ok _ t => .ok () (t.stepped s.pc)
      | .error e t => .error (e.locate s.pc) t := by
  simp only [step, Bind.bind, EStateM.bind, run_get,
    running]
  simp only [emit, run_modify, locating,
    executeAt, fetch, Bind.bind, EStateM.bind, h, jumpTo, fetched]
  generalize execute i _ = result
  cases result <;> rfl

/-- A step fails if there is no instruction at the program counter. -/
theorem step_of_undecoded {s : Machine} {e : ImageError} {decoded : DecodeCache}
    (running : s.state = .running)
    (h : s.code.decoded.decode s.memory s.pc = (.error e, decoded)) :
    step s = .error (.located s.pc (.image e))
      { s with
        events := s.events.emit (.stepping s.pc)
        code := { s.code with decoded } } := by
  simp only [step, Bind.bind, EStateM.bind, run_get,
    running]
  simp only [emit, run_modify, locating,
    executeAt, fetch, Bind.bind, EStateM.bind, h, running]
  rfl

/-- A step that succeeds has decoded an instruction and carried it out. -/
theorem step_ok {s t : Machine} (ran : step s = .ok () t) :
    ∃ i decoded u, s.state = .running ∧
      s.code.decoded.decode s.memory s.pc = (.ok i, decoded) ∧
      execute i (s.fetched decoded i) = .ok () u ∧ t = u.stepped s.pc := by
  have running : s.state = .running := by
    simp only [step, Bind.bind, EStateM.bind, run_get] at ran
    cases hstate : s.state with
    | running => rfl
    | quit | awaiting =>
        rw [hstate] at ran
        cases ran
  rcases hd : s.code.decoded.decode s.memory s.pc with ⟨r, decoded⟩
  cases r with
  | error e =>
      rw [step_of_undecoded running hd] at ran
      cases ran
  | ok i =>
      rw [step_of_decoded running hd] at ran
      cases hx : execute i (s.fetched decoded i) with
      | error e u =>
          rw [hx] at ran
          cases ran
      | ok _ u =>
          rw [hx] at ran
          cases ran
          exact ⟨i, decoded, u, running, rfl, hx, rfl⟩

theorem nextInstruction?_eq {s : Machine} {i : Instruction} {decoded : DecodeCache}
    (h : s.code.decoded.decode s.memory s.pc = (.ok i, decoded)) : s.nextInstruction? = some i := by
  simp [nextInstruction?, h, Except.toOption]

/-- The next instruction begins anew. -/
def Restarts (s : Machine) : Prop := ∃ i, s.nextInstruction? = some i ∧ i.opcode = .restart

instance : DecidablePred Restarts := fun s =>
  decidable_of_iff (s.nextInstruction?.map Instruction.opcode = some .restart)
    Option.map_eq_some_iff

theorem not_restarts {s : Machine} (h : ¬s.Restarts) {i : Instruction}
    (next : s.nextInstruction? = some i) : i.opcode ≠ .restart :=
  fun opcode => h ⟨i, next, opcode⟩

/-! ## Runs by their first instruction -/

theorem runToDepth_zero (floor : Nat) (s : Machine) :
    runToDepth floor 0 s = .error .exhausted s := rfl

theorem runToDepth_low {floor : Nat} {s : Machine} (h : s.stack.depth ≤ floor) (bound : Nat) :
    runToDepth floor (bound + 1) s = .ok () s := by
  have low : ¬floor < s.stack.depth := Nat.not_lt.mpr h
  simp only [runToDepth, Bind.bind, EStateM.bind, run_get, low, if_false]
  rfl

theorem runToDepth_quit {floor : Nat} {s : Machine} (h : s.state = .quit) (bound : Nat) :
    runToDepth floor (bound + 1) s = .ok () s := by
  simp only [runToDepth, Bind.bind, EStateM.bind, run_get, h]
  split <;> rfl

theorem runToDepth_awaiting {floor : Nat} {s : Machine} {request : InputRequest}
    (high : floor < s.stack.depth) (h : s.state = .awaiting request) (bound : Nat) :
    runToDepth floor (bound + 1) s = .error (.fault .inputUnavailable) s := by
  simp only [runToDepth, Bind.bind, EStateM.bind, run_get, h, high, if_true]
  rfl

theorem runToDepth_step {floor : Nat} {s : Machine} (h : s.Proceeds floor) (bound : Nat) :
    runToDepth floor (bound + 1) s =
      match step s with
      | .ok _ t => runToDepth floor bound t
      | .error e t => .error (.fault e) t := by
  obtain ⟨high, running⟩ := h
  simp only [runToDepth, Bind.bind, EStateM.bind, run_get, running, high, if_true]
  cases hstep : step s <;> simp [liftM, monadLift, MonadLift.monadLift, hstep]

/-- A run that does not proceed is over, or waits for input in vain. -/
theorem runToDepth_stops {floor : Nat} {s : Machine} (h : ¬s.Proceeds floor) (bound : Nat) :
    runToDepth floor (bound + 1) s = .ok () s ∨
      runToDepth floor (bound + 1) s = .error (.fault .inputUnavailable) s := by
  by_cases high : floor < s.stack.depth
  · cases hstate : s.state with
    | running => exact absurd ⟨high, hstate⟩ h
    | quit => exact .inl (runToDepth_quit hstate bound)
    | awaiting request => exact .inr (runToDepth_awaiting high hstate bound)
  · exact .inl (runToDepth_low (Nat.not_lt.mp high) bound)

/-- A run that does not proceed has no use for its bound. -/
theorem runToDepth_stopped {floor : Nat} {s : Machine} (h : ¬s.Proceeds floor)
    (bound bound' : Nat) : runToDepth floor (bound + 1) s = runToDepth floor (bound' + 1) s := by
  by_cases high : floor < s.stack.depth
  · cases hstate : s.state with
    | running => exact absurd ⟨high, hstate⟩ h
    | quit => rw [runToDepth_quit hstate, runToDepth_quit hstate]
    | awaiting request => rw [runToDepth_awaiting high hstate, runToDepth_awaiting high hstate]
  · rw [runToDepth_low (Nat.not_lt.mp high), runToDepth_low (Nat.not_lt.mp high)]

/-! ## How a run ends -/

/-- How a run above `floor` frames ends in the state `t` that it visits. -/
inductive Ends (floor : Nat) (t : Machine) : EStateM.Result Halt Machine Unit → Prop where
  | exhausted : Ends floor t (.error .exhausted t)
  | done (h : t.stack.depth ≤ floor ∨ t.state = .quit) : Ends floor t (.ok () t)
  | awaiting (h : ¬t.Proceeds floor) : Ends floor t (.error (.fault .inputUnavailable) t)
  | failed {e : Fault} {u : Machine} (proceeds : t.Proceeds floor) (h : step t = .error e u) :
      Ends floor t (.error (.fault e) u)

theorem runToDepth_ends (floor bound : Nat) (s : Machine) :
    ∃ t, Visits floor s t ∧ Ends floor t (runToDepth floor bound s) := by
  induction bound generalizing s with
  | zero => exact ⟨s, .start, .exhausted⟩
  | succ bound ih =>
      by_cases high : floor < s.stack.depth
      · cases hstate : s.state with
        | running =>
            have proceeds : s.Proceeds floor := ⟨high, hstate⟩
            rw [runToDepth_step proceeds]
            cases hstep : step s with
            | error e u => exact ⟨s, .start, .failed proceeds hstep⟩
            | ok _ u =>
                obtain ⟨t, visits, ends⟩ := ih u
                exact ⟨t, (Visits.start.step proceeds hstep).trans visits, ends⟩
        | quit =>
            rw [runToDepth_quit hstate]
            exact ⟨s, .start, .done (.inr hstate)⟩
        | awaiting request =>
            rw [runToDepth_awaiting high hstate]
            exact ⟨s, .start, .awaiting fun h => by simp [h.2] at hstate⟩
      · rw [runToDepth_low (Nat.not_lt.mp high)]
        exact ⟨s, .start, .done (.inl (Nat.not_lt.mp high))⟩

/-- After its last instruction a run is where it visits, or where a step failed. -/
theorem endState_runToDepth_of {P : Machine → Prop} {floor : Nat} {s : Machine} (bound : Nat)
    (visited : ∀ u, Visits floor s u → P u)
    (failed : ∀ u, Visits floor s u → u.Proceeds floor → P (endState (step u))) :
    P (endState (runToDepth floor bound s)) := by
  obtain ⟨u, visits, ended⟩ := runToDepth_ends floor bound s
  generalize runToDepth floor bound s = r at ended
  cases ended with
  | exhausted | done | awaiting => exact visited u visits
  | failed proceeds h =>
      have := failed u visits proceeds
      rwa [h] at this

/-- A run goes on from every state that it visits. -/
theorem Visits.run {floor : Nat} {s t : Machine} (h : Visits floor s t) :
    ∃ n, ∀ bound, runToDepth floor (n + bound) s = runToDepth floor bound t := by
  induction h with
  | start => exact ⟨0, fun bound => by rw [Nat.zero_add]⟩
  | step _ proceeds ran ih =>
      obtain ⟨n, hn⟩ := ih
      refine ⟨n + 1, fun bound => ?_⟩
      rw [Nat.add_assoc, Nat.add_comm 1 bound, hn, runToDepth_step proceeds, ran]

/-- The states from which a run above `floor` frames carries out an instruction, up to the bound. -/
def trail (floor : Nat) : Nat → Machine → List Machine
  | 0, _ => []
  | bound + 1, s =>
      if s.Proceeds floor then
        s :: match step s with
          | .ok _ t => trail floor bound t
          | .error .. => []
      else []

/-- The trail of a run that its bound does not cut short is complete. -/
theorem Visits.mem_trail {floor bound : Nat} {s u : Machine} (h : Visits floor s u)
    (proceeds : u.Proceeds floor) (finite : ∀ t, runToDepth floor bound s ≠ .error .exhausted t) :
    u ∈ trail floor bound s := by
  induction bound generalizing s with
  | zero => exact absurd (runToDepth_zero floor s) (finite s)
  | succ bound ih =>
      rcases h.first with rfl | ⟨t, first, ran, later⟩
      · simp [trail, proceeds]
      · have rest : u ∈ trail floor bound t := by
          refine ih later fun v exhausted => finite v ?_
          rw [runToDepth_step first, ran]
          exact exhausted
        simp only [trail, if_pos first, ran]
        exact .tail _ rest

/-! ## Routines run from outside -/

/-- The machine with one more routine run from outside. -/
def deeper (s : Machine) : Machine := { s with nested := s.nested + 1 }

/-- The machine with one routine fewer run from outside. -/
def shallower (s : Machine) : Machine := { s with nested := s.nested - 1 }

theorem runRoutine_zero (bound : Nat) (args : List Word) (s : Machine) :
    runRoutine bound 0 args s = .ok (some 0) s := rfl

/-- A routine that cannot be called is not run. -/
theorem runRoutine_of_uncalled {bound a : Nat} {args : List Word} {s t : Machine} {e : Fault}
    (nonzero : a ≠ 0) (h : callRoutine a args none s.pc s = .error e t) :
    runRoutine bound a args s = .error (.fault e) t := by
  simp only [runRoutine, nonzero, if_false, Bind.bind, EStateM.bind, run_get, liftM, monadLift,
    MonadLift.monadLift, h]

/-- What the run of the instructions of a routine comes to for the one who runs it from outside and
wants to go on at `resume`. -/
def surfaced (resume : Nat) : EStateM.Result Halt Machine Unit →
    EStateM.Result Halt Machine (Option Word)
  | .error .exhausted u => .error .exhausted u
  | .error e u => if u.nested = 0 then .error .miscounted u else .error e u.shallower
  | .ok _ u =>
      if u.nested = 0 then .error .miscounted u
      else if u.state = .quit then .ok none u.shallower
      else .ok u.lastReturn { u.shallower with pc := resume }

theorem surfaced_exhausted {resume : Nat} {r : EStateM.Result Halt Machine Unit} {u : Machine}
    (h : surfaced resume r = .error .exhausted u) : r = .error .exhausted u := by
  unfold surfaced at h
  repeat' split at h
  all_goals simp_all

/-- A routine that is called is run until its frame is gone. -/
theorem runRoutine_of_called {bound a : Nat} {args : List Word} {s t : Machine}
    (nonzero : a ≠ 0) (h : callRoutine a args none s.pc s = .ok () t) :
    runRoutine bound a args s = surfaced s.pc (runToDepth s.stack.depth bound t.deeper) := by
  have ends (u : Machine) : countDown u =
      if u.nested = 0 then .error .miscounted u else .ok () u.shallower := by
    simp only [countDown, Bind.bind, EStateM.bind, run_get]
    split <;> rfl
  simp only [runRoutine, nonzero, if_false, Bind.bind, EStateM.bind, run_get, liftM, monadLift,
    MonadLift.monadLift, h, nesting]
  have deeper : { t with nested := t.nested + 1 } = t.deeper := rfl
  simp only [deeper]
  -- The count is taken back however the run ends, unless it never comes to an end.
  cases runToDepth s.stack.depth bound t.deeper with
  | error e u =>
      cases e with
      | exhausted => rfl
      | fault g | quit | miscounted =>
          simp only [ends, surfaced]
          by_cases zero : u.nested = 0
          · simp only [if_pos zero]
          · simp only [if_neg zero]
            rfl
  | ok _ u =>
      simp only [ends, surfaced]
      by_cases zero : u.nested = 0
      · simp only [if_pos zero]
      · simp only [if_neg zero]
        change (if u.state = RunState.quit then _ else _ : RunM (Option Word)) u.shallower
          = if u.state = RunState.quit then _ else _
        by_cases quit : u.state = .quit
        · rw [if_pos quit, if_pos quit]
          rfl
        · rw [if_neg quit, if_neg quit]
          rfl

end Machine
end ZMachine
