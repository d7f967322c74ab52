/-
  Routines run from outside.

  Whoever runs a routine from outside wants the machine back as it was.  The
  machine counts such runs, to know that a routine cannot wait for input and
  that its return is not the end of the story.  Two kinds of instructions do
  not keep to this: unwinding to a frame that was there before the run, and
  beginning anew, which takes away all frames and sets the count to zero.
-/
import ZMachine.Proofs.Coherence
import ZMachine.Proofs.Observation
import ZMachine.Proofs.Restarting

namespace ZMachine
namespace Machine

/-! ## What keeps the count -/

section Count

variable {waits : Bool} {α : Type}

theorem sustains_of_respects {x : MachineM α} (h : Leads (Respects waits) x) :
    Leads (Sustains waits) x := h.mono fun _ _ respects => respects.toSustains

theorem sustains_leaveFrame : Leads (Sustains waits) leaveFrame := by
  intro s
  rw [run_leaveFrame]
  cases s.stack.popFrame with
  | ok p => exact ⟨rfl, .inl rfl⟩
  | error e => exact ⟨rfl, .inl rfl⟩

theorem sustains_emit (e : Event) : Leads (Sustains waits) (emit e) :=
  sustains_of_respects (respects_emit e)

theorem sustains_returnFrom (w : Word) : Leads (Sustains waits) (returnFrom w) := by
  refine Leads.get.bind fun _ => sustains_leaveFrame.bind fun frame => Leads.bind ?_ fun _ => ?_
  · exact .modified fun _ => ⟨rfl, .inl rfl⟩
  · refine (sustains_emit _).bind fun _ => .ite _ (sustains_of_respects respects_quit) ?_
    refine (sustains_of_respects (respects_jumpTo _)).bind fun _ => ?_
    exact sustains_of_respects (Bears.closed.storeResult frame.store w)

theorem sustains_throwTo (w token : Word) : Leads (Sustains waits) (throwTo w token) := by
  have unwind (depth bound : Nat) : Leads (Sustains waits) (unwindTo depth bound) := by
    induction bound with
    | zero => exact .pure _
    | succ bound ih =>
        refine Leads.get.bind fun _ => .ite _ ?_ (.pure _)
        exact sustains_leaveFrame.bind fun _ => (sustains_emit _).bind fun _ => ih
  have return' (depth : Nat) :
      Leads (Sustains waits) (do unwindTo token.toNat depth; returnFrom w) :=
    (unwind _ _).bind fun _ => sustains_returnFrom w
  exact Leads.get.bind fun _ => .ite _ ((Leads.throw _).bind fun _ => return' _) (return' _)

theorem sustains_go (way : Way) : Leads (Sustains waits) (go way) := by
  cases way with
  | onward => exact .pure _
  | goto a => exact sustains_of_respects (respects_jumpTo a)
  | leave w => exact sustains_returnFrom w

/-- No instruction but one that begins anew changes the count. -/
theorem sustains_execute {i : Instruction} (noRestart : i.opcode ≠ .restart) :
    Leads (Sustains i.opcode.readsInput) (execute i) := by
  by_cases throws : i.opcode = .throwFrame
  · unfold execute
    simp only [throws]
    refine (sustains_of_respects (Bears.closed.operandValues i)).bind fun args => ?_
    exact (Leads.lift _).bind fun w => (Leads.lift _).bind fun token => sustains_throwTo w token
  · rw [execute_eq]
    exact (sustains_of_respects (respects_wayOf noRestart throws)).bind sustains_go

end Count

variable {s t : Machine}

theorem nested_step (noRestart : ∀ i, s.nextInstruction? = some i → i.opcode ≠ .restart) :
    (endState (step s)).nested = s.nested := by
  rcases endState_step s with same | ⟨e, decoded, -, same⟩ | ⟨i, decoded, events, -, hd, same⟩
  · rw [same]
  · rw [same]
  · rw [same]
    exact (sustains_execute (noRestart i (nextInstruction?_eq hd)) (s.fetched decoded i)).nested

/-! ## Beginning anew -/

theorem Roomy.step (roomy : s.Roomy) : (endState (step s)).Roomy := by
  rcases endState_step s with same | ⟨e, decoded, -, same⟩ | ⟨i, decoded, events, -, -, same⟩
  · rwa [same]
  · rw [same]
    exact ⟨roomy.header, roomy.pristine⟩
  · have fetched : (s.fetched decoded i).Roomy := ⟨roomy.header, roomy.pristine⟩
    have after := fetched.of_sheds (sheds_of_effects (does_execute i _))
    rw [same]
    exact ⟨after.header, after.pristine⟩

/-- The story begins with no routine run from outside, and does not wait, also if it fails to. -/
theorem endState_start (s : Machine) :
    (endState (start s)).nested = 0 ∧ (endState (start s)).state = .running := by
  have starts := s.run_start_opening
  cases opens : opening s.memory s.header with
  | ok p =>
      rw [opens] at starts
      obtain ⟨events, called, ran⟩ := starts
      rw [ran]
      exact ⟨rfl, rfl⟩
  | error e =>
      rw [opens] at starts
      rw [starts]
      exact ⟨rfl, rfl⟩

/-- Where there is room for the header, beginning anew comes to its end. -/
theorem endState_restart (roomy : s.Roomy) :
    ∃ t, endState (restart s) = endState (start t) := by
  have room : headerSize ≤ s.renewed.memory.size := by
    rw [renewed, Memory.size_renewed, roomy.pristine]
    exact roomy.header
  obtain ⟨_, d, _, described, -⟩ := keepsTo_describeInterpreter s.header.version s.options
    s.renewed.memory s.renewed.memory room (.refl _ _)
  rw [run_restart roomy, run_begin described]
  exact ⟨_, rfl⟩

theorem execute_restart {i : Instruction} (opcode : i.opcode = .restart) : execute i = restart := by
  simp only [execute, opcode]

/-- A step that begins anew sets the count to zero. -/
theorem nested_step_restart (roomy : s.Roomy) (running : s.state = .running) {i : Instruction}
    (next : s.nextInstruction? = some i) (opcode : i.opcode = .restart) :
    (endState (step s)).nested = 0 := by
  rcases hd : s.code.decoded.decode s.memory s.pc with ⟨r, decoded⟩
  cases r with
  | error e => simp [nextInstruction?, hd, Except.toOption] at next
  | ok j =>
      cases Option.some.inj ((nextInstruction?_eq hd).symm.trans next)
      have fetched : (s.fetched decoded i).Roomy := ⟨roomy.header, roomy.pristine⟩
      obtain ⟨t, anew⟩ := endState_restart fetched
      have zero := (endState_start t).1
      rw [← anew] at zero
      rw [step_of_decoded running hd, execute_restart opcode]
      cases h : restart (s.fetched decoded i) with
      | ok _ u =>
          rw [h] at zero
          exact zero
      | error e u =>
          rw [h] at zero
          exact zero

/-! ## The count along a run -/

/-- A run above `floor` frames that begins in `s` has begun anew before it comes to `t`. -/
def Restarted (floor : Nat) (s t : Machine) : Prop :=
  ∃ u v, Visits floor s u ∧ u.Proceeds floor ∧ u.Restarts ∧ step u = .ok () v ∧ Visits floor v t

theorem Roomy.visits {floor : Nat} (roomy : s.Roomy) (visits : Visits floor s t) : t.Roomy := by
  induction visits with
  | start => exact roomy
  | step _ _ ran ih =>
      have after := ih.step
      rwa [ran] at after

/-- Once there is no count, there is none. -/
theorem nested_step_zero (roomy : s.Roomy) (zero : s.nested = 0) :
    (endState (step s)).nested = 0 := by
  by_cases running : s.state = .running
  · by_cases restarts : s.Restarts
    · obtain ⟨i, next, opcode⟩ := restarts
      exact nested_step_restart roomy running next opcode
    · rw [nested_step fun i next => not_restarts restarts next, zero]
  · rcases endState_step s with same | ⟨e, decoded, -, same⟩ | ⟨i, decoded, events, run, -, -⟩
    · rw [same, zero]
    · rw [same, zero]
    · exact absurd run running

theorem nested_visits_zero {floor : Nat} (roomy : s.Roomy) (zero : s.nested = 0)
    (visits : Visits floor s t) : t.nested = 0 := by
  induction visits with
  | start => exact zero
  | step before _ ran ih =>
      have after := nested_step_zero (roomy.visits before) ih
      rwa [ran] at after

theorem nested_of_not_restarted {floor : Nat} (visits : Visits floor s t)
    (not : ¬Restarted floor s t) : t.nested = s.nested := by
  induction visits with
  | start => rfl
  | @step t u before proceeds ran ih =>
      have plain : ¬t.Restarts :=
        fun restarts => not ⟨t, u, before, proceeds, restarts, ran, .start⟩
      have kept := nested_step fun i next => not_restarts plain next
      rw [ran] at kept
      rw [← ih ?_]
      · exact kept
      · rintro ⟨v, w, visits, proceeds', restarts, ran', after⟩
        exact not ⟨v, w, visits, proceeds', restarts, ran', after.step proceeds ran⟩

/-- Along a run the count stays, until the run begins anew; from then on it is zero. -/
theorem nested_visits {floor : Nat} (roomy : s.Roomy) (visits : Visits floor s t) :
    (Restarted floor s t → t.nested = 0) ∧ (¬Restarted floor s t → t.nested = s.nested) := by
  constructor
  · rintro ⟨u, v, before, proceeds, ⟨i, next, opcode⟩, ran, after⟩
    have roomy := roomy.visits before
    have zero := nested_step_restart roomy proceeds.2 next opcode
    have roomy' := roomy.step
    rw [ran] at zero roomy'
    exact nested_visits_zero roomy' zero after
  · exact nested_of_not_restarted visits

/-! ## How a run from outside ends -/

/-- A run that is not exhausted is not changed by a greater bound. -/
theorem runToDepth_more {floor bound : Nat}
    (ends : ∀ u, runToDepth floor bound s ≠ .error .exhausted u)
    (more : Nat) : runToDepth floor (bound + more) s = runToDepth floor bound s := by
  induction bound generalizing s with
  | zero => exact absurd rfl (ends s)
  | succ bound ih =>
      rw [Nat.add_right_comm]
      by_cases proceeds : s.Proceeds floor
      · rw [runToDepth_step proceeds] at ends ⊢
        rw [runToDepth_step proceeds]
        cases hstep : step s with
        | error e u => rfl
        | ok _ u =>
            rw [hstep] at ends
            exact ih ends
      · exact runToDepth_stopped proceeds _ _

/-- A run that is not exhausted ends as it would from any state that it visits. -/
theorem Visits.same_end {floor bound : Nat} (visits : Visits floor s t)
    (ends : ∀ u, runToDepth floor bound s ≠ .error .exhausted u) :
    runToDepth floor bound t = runToDepth floor bound s := by
  obtain ⟨n, run⟩ := visits.run
  rw [← run bound, Nat.add_comm, runToDepth_more ends]

/-- What a run does next decides how it ends. -/
theorem Visits.next {floor bound : Nat} (visits : Visits floor s t) (proceeds : t.Proceeds floor)
    (ends : ∀ u, runToDepth floor bound s ≠ .error .exhausted u) :
    ∃ bound', runToDepth floor bound s =
      match Machine.step t with
      | .ok _ u => runToDepth floor bound' u
      | .error e u => .error (.fault e) u := by
  have same := visits.same_end ends
  cases bound with
  | zero => exact absurd rfl (ends s)
  | succ bound =>
      rw [runToDepth_step proceeds] at same
      exact ⟨bound, same.symm⟩

/-- Running the routine at `a` from outside carries out an instruction in the state `u`. -/
def CarriesOut (s : Machine) (a : Nat) (args : List Word) (u : Machine) : Prop :=
  ∃ t, callRoutine a args none s.pc s = .ok () t ∧ Visits s.stack.depth t.deeper u ∧
    u.Proceeds s.stack.depth

theorem surfaced_some {resume : Nat} {r : EStateM.Result Halt Machine Unit} {w : Word}
    (h : surfaced resume r = .ok (some w) t) :
    ∃ u, r = .ok () u ∧ u.state ≠ .quit ∧ u.lastReturn = some w ∧
      t = { u.shallower with pc := resume } := by
  unfold surfaced at h
  split at h
  · cases h
  · split at h <;> cases h
  · rename_i u
    split at h
    · cases h
    · split at h
      · cases h
      · rename_i going
        obtain ⟨last, same⟩ := EStateM.Result.ok.inj h
        exact ⟨u, rfl, going, last, same.symm⟩

/-- A routine that came to a result has run until no more frames were left than before. -/
theorem runRoutine_some {bound a : Nat} {args : List Word} {w : Word} (nonzero : a ≠ 0)
    (ran : runRoutine bound a args s = .ok (some w) t) :
    ∃ entered u, callRoutine a args none s.pc s = .ok () entered ∧
      runToDepth s.stack.depth bound entered.deeper = .ok () u ∧ u.stack.depth ≤ s.stack.depth ∧
      Visits s.stack.depth entered.deeper u ∧ t.stack = u.stack ∧ t.pc = s.pc := by
  cases called : callRoutine a args none s.pc s with
  | error e v =>
      rw [runRoutine_of_uncalled nonzero called] at ran
      cases ran
  | ok _ v =>
      rw [runRoutine_of_called nonzero called] at ran
      obtain ⟨u, visits, ends⟩ := runToDepth_ends s.stack.depth bound v.deeper
      obtain ⟨x, run, going, -, rfl⟩ := surfaced_some ran
      rw [run] at ends
      cases ends with
      | done low => exact ⟨v, u, rfl, run, low.resolve_right going, visits, rfl, rfl⟩

/-! ## What a routine run from outside leaves -/

/-- A step that unwinds to a token leaves one frame fewer than the token names. -/
theorem depth_of_thrown {token : Word} (counted : 0 < s.nested)
    (throws : s.throwToken? = some token)
    (ran : step s = .ok () t) : t.stack.depth + 1 = token.toNat := by
  obtain ⟨i, decoded, u, -, hd, executed, rfl⟩ := step_ok ran
  -- Only an instruction that unwinds has a token.
  have opcode : i.opcode = .throwFrame := by
    refine Classical.byContradiction fun other => ?_
    simp [throwToken?, hd, other] at throws
  obtain ⟨w, token', rest, v, read, thrown⟩ := execute_throw opcode executed
  have same : token' = token := by simpa [throwToken?, hd, opcode, read] using throws
  subst same
  obtain ⟨x, unwound, returned, positive, low⟩ := throwTo_ok thrown
  obtain ⟨depth, nested⟩ := unwindTo_ok unwound (by omega)
  have kept : Respects false (s.fetched decoded i) v := (Bears.closed.operandValues i).of_ok read
  have counted : 0 < x.nested := by
    rw [nested, kept.nested]
    exact counted
  -- Unwinding stops at the frame that the token names, and returning takes this one off as well.
  cases frames : x.stack.frames with
  | nil =>
      rw [CallStack.depth, frames, List.length_nil] at depth
      omega
  | cons f fs =>
      rw [run_returnFrom frames (.inr counted)] at returned
      have after : u.stack.depth = fs.length := (storeResult_ok returned).2.2.2
      have before : x.stack.depth = fs.length + 1 := by
        rw [CallStack.depth, frames, List.length_cons]
      change u.stack.depth + 1 = _
      omega

section Entered

variable {a : Nat} {args : List Word} {entered : Machine}
  (called : callRoutine a args none s.pc s = .ok () entered)
  (noRestart : ∀ u, s.CarriesOut a args u → ¬u.Restarts)

include called noRestart

/-- Without a restart every instruction finds the routine counted. -/
theorem counted_of_visits {v : Machine} (visits : Visits s.stack.depth entered.deeper v) :
    0 < v.nested := by
  induction visits with
  | start => exact Nat.succ_pos _
  | step before proceeds ran ih =>
      have here : s.CarriesOut a args _ := ⟨entered, called, before, proceeds⟩
      have kept := nested_step fun i next => not_restarts (noRestart _ here) next
      rw [ran] at kept
      exact kept.symm ▸ ih

/-- A step that unwinds to a frame of the callers is the last one, and leaves fewer frames
than there were. -/
theorem depth_of_thrown_last {bound : Nat} {token : Word} {u v : Machine}
    (run : runToDepth s.stack.depth bound entered.deeper = .ok () u)
    (carries : s.CarriesOut a args v) (throws : v.throwToken? = some token)
    (deep : token.toNat ≤ s.stack.depth) : u.stack.depth < s.stack.depth := by
  obtain ⟨entered', called', before, proceeds⟩ := carries
  cases called.symm.trans called'
  obtain ⟨bound', next⟩ := before.next proceeds (by rw [run]; simp)
  rw [run] at next
  cases stepped : step v with
  | error e x =>
      rw [stepped] at next
      cases next
  | ok _ x =>
      rw [stepped] at next
      dsimp only at next
      have left := depth_of_thrown (counted_of_visits called noRestart before) throws stepped
      -- A run does not go on once there are fewer frames than it is run above.
      have last : x = u := by
        cases bound' with
        | zero => cases next
        | succ bound' =>
            rw [runToDepth_low (by omega)] at next
            cases next
            rfl
      rw [last] at left
      omega

/-- A routine that never unwinds to a frame of the callers stands on their frames until it has
returned. -/
theorem rests_or_returned
    (above : ∀ u token, s.CarriesOut a args u → u.throwToken? = some token →
      s.stack.depth < token.toNat) :
    ∃ defaults, ∀ v, Visits s.stack.depth entered.deeper v →
      v.stack.Rests (.enter a s.pc none defaults args s.stack.size) s.stack.frames s.stack.values ∨
        v.Returned (.enter a s.pc none defaults args s.stack.size) s.stack.frames
          s.stack.values := by
  obtain ⟨defaults, -, values, frames⟩ := callRoutine_ok called
  have rests : entered.deeper.stack.Rests
      (.enter a s.pc none defaults args s.stack.size) s.stack.frames s.stack.values := by
    refine ⟨rfl, ⟨[], _, frames, by simp⟩, ?_⟩
    change s.stack.values <:+ entered.stack.values
    exact values ▸ List.suffix_refl _
  refine ⟨defaults, fun v visits => ?_⟩
  induction visits with
  | start => exact .inl rests
  | @step v x before proceeds ran ih =>
      have here : s.CarriesOut a args v := ⟨entered, called, before, proceeds⟩
      rcases ih with rests | returned
      · exact step_rests rests (.inr (counted_of_visits called noRestart before))
          (fun i next => not_restarts (noRestart v here) next)
          (fun token throws => above v token here throws) ran
      · -- No step follows the return.
        have depth : v.stack.depth = s.stack.depth := returned.depth
        have := proceeds.1
        omega

end Entered

/-- A routine that is run from outside and comes to a result leaves frames, words and program
counter as they were exactly if it never unwinds to a frame that was there before. -/
theorem runRoutine_restores_iff {bound a : Nat} {args : List Word} {w : Word} (nonzero : a ≠ 0)
    (ran : runRoutine bound a args s = .ok (some w) t)
    (noRestart : ∀ u, s.CarriesOut a args u → ¬u.Restarts) :
    (t.stack.frames = s.stack.frames ∧ t.stack.values = s.stack.values ∧ t.pc = s.pc) ↔
      ∀ u token, s.CarriesOut a args u → u.throwToken? = some token →
        s.stack.depth < token.toNat := by
  obtain ⟨entered, u, called, run, low, visits, stack, pc⟩ := runRoutine_some nonzero ran
  rw [stack]
  constructor
  · rintro ⟨same, -, -⟩ v token carries throws
    refine Classical.byContradiction fun deep => ?_
    have fewer := depth_of_thrown_last called noRestart run carries throws (Nat.le_of_not_lt deep)
    have depth : u.stack.depth = s.stack.depth := congrArg List.length same
    omega
  · intro above
    obtain ⟨defaults, course⟩ := rests_or_returned called noRestart above
    rcases course u visits with rests | returned
    · have : s.stack.depth < u.stack.depth := rests.length_lt_depth
      omega
    · obtain ⟨v, -, delivered⟩ := returned.result
      exact ⟨delivered.1, delivered.2, pc⟩

/-- A routine that ends with its first instruction carries out no other. -/
theorem carriesOut_first {a : Nat} {args : List Word} {entered u : Machine}
    (called : callRoutine a args none s.pc s = .ok () entered)
    (ends : ¬(endState (step entered.deeper)).Proceeds s.stack.depth)
    (h : s.CarriesOut a args u) : u = entered.deeper := by
  obtain ⟨entered', called', visits, proceeds⟩ := h
  cases called.symm.trans called'
  rcases visits.first with same | ⟨v, -, ran, later⟩
  · exact same
  · rw [ran] at ends
    rcases later.first with rfl | ⟨_, proceeds', -, -⟩
    · exact absurd proceeds ends
    · exact absurd proceeds' ends

/-- An image with a routine that unwinds with the value 5 to the frame that a token names. -/
def throwsTo (token : Byte) : Array Byte :=
  overwrite
    (overwrite (Array.replicate 80 0) 0 [5, 0, 0, 0, 0, 0, 0, 64, 0, 0, 0, 0, 0, 0, 255, 255])
    72 [0, 0x1c, 5, token]

/-- The machine after this story was loaded.  There is one frame. -/
def throwing (token : Byte) : Machine := (load (throwsTo token) {} {}).toOption.getD default

/-- The machine when this routine has been entered. -/
def thrower (token : Byte) : Machine :=
  (endState (callRoutine 72 [] none (throwing token).pc (throwing token))).deeper

theorem runRoutine_restores_own :
    (endState (runRoutine 9 72 [] (throwing 2))).stack.frames = (throwing 2).stack.frames ∧
      (endState (runRoutine 9 72 [] (throwing 2))).stack.values = (throwing 2).stack.values ∧
      (endState (runRoutine 9 72 [] (throwing 2))).pc = (throwing 2).pc := by
  have ran :
      runRoutine 9 72 [] (throwing 2) = .ok (some 5) (endState (runRoutine 9 72 [] (throwing 2))) :=
    eq_ok_of_value? (by decide +kernel)
  have called : callRoutine 72 [] none (throwing 2).pc (throwing 2) = .ok () _ :=
    eq_ok_of_value? (by decide +kernel)
  have first {u : Machine} : (throwing 2).CarriesOut 72 [] u → u = thrower 2 :=
    carriesOut_first called (by decide +kernel)
  have opcode : (thrower 2).nextInstruction?.map (·.opcode) = some .throwFrame := by decide +kernel
  have token : (thrower 2).throwToken? = some 2 := by decide +kernel
  refine (runRoutine_restores_iff (by decide) ran ?_).mpr ?_
  · rintro u carries ⟨i, next, restart⟩
    rw [first carries] at next
    simp [next, restart] at opcode
  · intro u token' carries throws
    rw [first carries, token] at throws
    cases throws
    decide +kernel

/-- Not every routine that is run from outside and comes to a result leaves the frames as
they were. -/
theorem exists_unrestored :
    ¬∀ image options host s bound a args w t, Reachable image options host s → s.state = .running →
      a ≠ 0 → (∀ u, s.CarriesOut a args u → ¬u.Restarts) →
      runRoutine bound a args s = .ok (some w) t →
      t.stack.frames = s.stack.frames ∧ t.stack.values = s.stack.values ∧ t.pc = s.pc := by
  intro restores
  -- The routine unwinds to the first frame, which is the one that it was run above.
  have reachable : Reachable (throwsTo 1) {} {} (throwing 1) := by
    refine .loaded ?_
    unfold throwing
    exact Except.eq_ok_getD _ (by decide +kernel)
  have ran :
      runRoutine 9 72 [] (throwing 1) = .ok (some 5) (endState (runRoutine 9 72 [] (throwing 1))) :=
    eq_ok_of_value? (by decide +kernel)
  have called : callRoutine 72 [] none (throwing 1).pc (throwing 1) = .ok () _ :=
    eq_ok_of_value? (by decide +kernel)
  have first {u : Machine} : (throwing 1).CarriesOut 72 [] u → u = thrower 1 :=
    carriesOut_first called (by decide +kernel)
  have opcode : (thrower 1).nextInstruction?.map (·.opcode) = some .throwFrame := by decide +kernel
  have plain (u : Machine) (carries : (throwing 1).CarriesOut 72 [] u) : ¬u.Restarts := by
    rintro ⟨i, next, restart⟩
    rw [first carries] at next
    simp [next, restart] at opcode
  have same := (restores _ _ _ _ _ _ _ _ _ reachable (by decide +kernel) (by decide) plain ran).1
  revert same
  decide +kernel

/-! ## Input -/

/-- The machine as if no routine were run from outside. -/
def uncounted (s : Machine) : Machine := { s with nested := 0 }

/-- Reading operands takes no notice of the count. -/
theorem blind_operandValues (i : Instruction) : Blind uncounted (operandValues i) := by
  have pops : Blind uncounted pop := by
    intro s t same
    have stack : s.uncounted.stack = t.uncounted.stack := congrArg Machine.stack same
    change s.stack = t.stack at stack
    have alike (stack : CallStack) : uncounted { s with stack } = uncounted { t with stack } := by
      change { uncounted s with stack } = { uncounted t with stack }
      rw [same]
    rw [run_pop, run_pop, stack]
    cases t.stack.pop with
    | ok p => exact congrArg (EStateM.Result.ok p.1) (alike p.2)
    | error e => exact congrArg (EStateM.Result.error e) same
  -- Only a word from the stack changes the machine.
  refine .mapM _ fun o => ?_
  cases o with
  | large w => exact .pure _
  | small b => exact .pure _
  | var v =>
      cases v with
      | stack => exact pops
      | localVar k => exact .get_bind (fun _ => rfl) fun _ => .lift _
      | globalVar k =>
          exact .get_bind (fun _ => rfl) fun _ => .get_bind (fun _ => rfl) fun _ => .lift _

/-- Input that the host has at once. -/
inductive Answer where
  | line (textBuffer parseBuffer : Nat) (text : String)
  | key (c : Char)

/-- Take input in, and return the code that the story gets. -/
def Answer.finish : Answer → MachineM Word
  | .line textBuffer parseBuffer text => finishLine textBuffer parseBuffer text
  | .key c => finishChar c

/-- Ask the host on behalf of an instruction that reads input. -/
def consult (i : Instruction) (args : List Word) : MachineM (InputRequest ⊕ Answer) :=
  if i.opcode = .readChar then do
    match ← hostChar with
    | some c => return .inr (.key c)
    | none => return .inl (.key i.store)
  else do
    let textBuffer := (← argument i.opcode args 0).toNat
    let parseBuffer := (args.getD 1 0).toNat
    showStatus
    match ← hostLine (← lineCapacity textBuffer) with
    | some line => return .inr (.line textBuffer parseBuffer line)
    | none => return .inl (.line textBuffer parseBuffer i.store)

/-- Wait for input, or go on with it. -/
def proceed (i : Instruction) : InputRequest ⊕ Answer → MachineM Way
  | .inl request => do
      suspend request
      return .onward
  | .inr answer => do settle i (.value (← answer.finish))

theorem wayOf_read {i : Instruction} (reads : i.opcode.readsInput = true) :
    wayOf i = operandValues i >>= fun args => consult i args >>= proceed i := by
  -- Up to the point where the host is asked both sides are one; then the cases are the answers.
  have line (plain : i.opcode ≠ .readChar) :
      readLineWay i = operandValues i >>= fun args => consult i args >>= proceed i := by
    unfold readLineWay consult
    simp only [plain, if_false, bind_assoc]
    congr 1; funext args
    congr 1; funext textBuffer
    congr 1; funext _
    congr 1; funext capacity
    congr 1; funext answer
    cases answer <;> rfl
  have char (opcode : i.opcode = .readChar) :
      readCharWay i = operandValues i >>= fun args => consult i args >>= proceed i := by
    unfold readCharWay consult
    simp only [opcode, if_true, bind_assoc]
    change ((fun _ => PUnit.unit) <$> operandValues i) >>= _ = _
    rw [map_eq_pure_bind, bind_assoc]
    congr 1; funext args
    rw [pure_bind]
    congr 1; funext answer
    cases answer <;> rfl
  unfold Opcode.readsInput at reads
  unfold wayOf
  cases opcode : i.opcode <;> rw [opcode] at reads <;> first | cases reads; done | skip
  · exact line (by simp [opcode])
  · exact line (by simp [opcode])
  · exact char opcode

theorem OnValues.consult {raw : Bool} (i : Instruction) (args : List Word) :
    OnValues raw (consult i args) := by
  refine .ite _ ?_ ?_
  · refine hostChar.bind fun c => ?_
    cases c <;> exact .pure _
  · refine (lift _).bind fun _ => showStatus.bind fun _ => (lineCapacity _).bind fun _ => ?_
    refine (hostLine _).bind fun line => ?_
    cases line <;> exact .pure _

theorem OnValues.finish (answer : Answer) : OnValues true answer.finish := by
  cases answer with
  | line textBuffer parseBuffer line => exact finishLine _ _ _
  | key c => exact finishChar c

/-- An instruction that has to wait if no routine is run from outside reads input, and the host has
none. -/
theorem waits_of_awaiting {i : Instruction} (roomy : s.Roomy) (running : s.state = .running)
    (ran : execute i s = .ok () t) {request : InputRequest}
    (awaiting : t.state = .awaiting request) :
    i.opcode.readsInput = true ∧ s.nested = 0 ∧ ∃ args u v asked,
      operandValues i s = .ok args u ∧ consult i args u = .ok (.inl asked) v := by
  -- Beginning anew leaves the machine running.
  have noRestart : i.opcode ≠ .restart := by
    intro opcode
    obtain ⟨u, anew⟩ := endState_restart roomy
    rw [← execute_restart opcode, ran, endState_ok] at anew
    have state := (endState_start u).2
    rw [← anew, awaiting] at state
    simp at state
  obtain ⟨reads, alone⟩ : i.opcode.readsInput = true ∧ s.nested = 0 := by
    rcases ((sustains_execute noRestart).of_ok ran).state with same | quit | ⟨reads, alone, -⟩
    · rw [same, running] at awaiting
      cases awaiting
    · rw [quit] at awaiting
      cases awaiting
    · exact ⟨reads, alone⟩
  refine ⟨reads, alone, ?_⟩
  rw [execute_eq, wayOf_read reads, bind_assoc, run_bind] at ran
  cases read : operandValues i s with
  | error e u =>
      rw [read] at ran
      cases ran
  | ok args u =>
      simp only [read, run_bind] at ran
      cases asked : consult i args u with
      | error e v =>
          rw [asked] at ran
          cases ran
      | ok p v =>
          cases p with
          | inl request => exact ⟨args, u, v, request, rfl, asked⟩
          | inr answer =>
              -- Taking input in does not make the machine wait.
              exfalso
              have kept : Respects false s u := (Bears.closed.operandValues i).of_ok read
              have kept' : Respects false u v := (Bears.values (.consult i args)).of_ok asked
              have finishes : Leads (Sustains false) (proceed i (.inr answer) >>= go) :=
                (sustains_of_respects ((Bears.values (.finish answer)).bind fun w =>
                  Bears.closed.settle i (.value w))).bind sustains_go
              have done : (proceed i (.inr answer) >>= go) v = .ok () t := by
                rw [run_bind]
                simpa only [asked] using ran
              have state := ((kept.trans kept'.toSustains).trans (finishes.of_ok done)).state
              rw [running, awaiting] at state
              simp at state

/-- A step does not wait for input as long as a routine is run from outside. -/
theorem step_never_waits (roomy : s.Roomy) (counted : 0 < s.nested) (ran : step s = .ok () t)
    (request : InputRequest) : t.state ≠ .awaiting request := by
  intro awaiting
  obtain ⟨i, decoded, u, running, -, executed, rfl⟩ := step_ok ran
  have fetched : (s.fetched decoded i).Roomy := ⟨roomy.header, roomy.pristine⟩
  have alone : s.nested = 0 := (waits_of_awaiting fetched running executed awaiting).2.1
  omega

/-- Where a step would wait for input, it fails if a routine is run from outside. -/
theorem step_unavailable (roomy : s.Roomy) (counted : 0 < s.nested)
    (ran : step s.uncounted = .ok () t)
    {request : InputRequest} (awaiting : t.state = .awaiting request) :
    ∃ u, step s = .error (.located s.pc .inputUnavailable) u := by
  obtain ⟨i, decoded, u, running, hd, executed, rfl⟩ := step_ok ran
  have fetched : (s.fetched decoded i).uncounted.Roomy := ⟨roomy.header, roomy.pristine⟩
  obtain ⟨reads, -, args, v, w, asked, read, consulted⟩ :=
    waits_of_awaiting (s := (s.fetched decoded i).uncounted) fetched running executed awaiting
  have running : s.state = .running := running
  -- The machine that counts the routine reads the same operands and gets the same answer.
  have alike := blind_operandValues i (s.fetched decoded i) (s.fetched decoded i).uncounted rfl
  rw [read] at alike
  cases read' : operandValues i (s.fetched decoded i) with
  | error e v' => simp [read', seen] at alike
  | ok args' v' =>
      rw [read'] at alike
      obtain ⟨rfl, same⟩ := EStateM.Result.ok.inj alike
      have bare : v'.uncounted.bare = v.uncounted.bare := congrArg bare same
      have alike := (OnValues.consult i args').plain v' v bare
      rw [consulted] at alike
      cases consulted' : consult i args' v' with
      | error e w' => simp [consulted', seen] at alike
      | ok p w' =>
          rw [consulted'] at alike
          obtain ⟨rfl, -⟩ := EStateM.Result.ok.inj alike
          have kept : Respects false (s.fetched decoded i) v' :=
            (Bears.closed.operandValues i).of_ok read'
          have kept' : Respects false v' w' := (Bears.values (.consult i args')).of_ok consulted'
          have counted : 0 < w'.nested := by
            rw [kept'.nested, kept.nested]
            exact counted
          have fails : execute i (s.fetched decoded i) = .error .inputUnavailable w' := by
            rw [execute_eq, wayOf_read reads]
            simp only [run_bind, read', consulted', proceed, run_suspend, if_pos counted]
          rw [step_of_decoded running hd, fails]
          exact ⟨w', rfl⟩

/-! ## Every run of a machine -/

variable {image : Array Byte} {options : MachineOptions} {host : Host}

theorem Header.size_of_read {m : Memory} {h : Header} (read : Header.read m = .ok h) :
    headerSize ≤ m.size := by
  refine Classical.byContradiction fun short => ?_
  simp only [Header.read, Bind.bind, Except.bind, if_pos (Nat.not_le.mp short)] at read
  cases read

/-- A story that was just loaded has room for its header, and nothing is run from outside. -/
theorem roomy_load (h : load image options host = .ok s) : s.Roomy ∧ s.nested = 0 := by
  obtain ⟨header, text, read, -, begun⟩ := load_eq_ok h
  have blank : (blank image options host header text).Roomy := ⟨Header.size_of_read read, rfl⟩
  refine ⟨blank.of_sheds (sheds_of_effects ((does_begin header.version options).of_ok begun)), ?_⟩
  -- Starting sets the count, whatever it was.
  rw [run_bind] at begun
  cases described : inMemory (describeInterpreter header.version options)
      (Machine.blank image options host header text) with
  | error e t =>
      rw [described] at begun
      cases begun
  | ok _ t =>
      rw [described] at begun
      dsimp only at begun
      have zero := (endState_start t).1
      rwa [begun] at zero

/-- A run that never begins anew keeps the count. -/
theorem nested_runToDepth {floor : Nat} (bound : Nat)
    (never : ¬∃ u, Visits floor s u ∧ u.Proceeds floor ∧ u.Restarts) :
    (endState (runToDepth floor bound s)).nested = s.nested := by
  have kept (u : Machine) (visits : Visits floor s u) : u.nested = s.nested := by
    refine nested_of_not_restarted visits ?_
    rintro ⟨v, _, visits', proceeds, restarts, -, -⟩
    exact never ⟨v, visits', proceeds, restarts⟩
  refine endState_runToDepth_of (P := fun u => u.nested = s.nested) bound kept
    fun u visits proceeds => ?_
  rw [nested_step fun i next opcode => never ⟨u, visits, proceeds, i, next, opcode⟩]
  exact kept u visits

/-- How a run ends, and where the count is then. -/
theorem endState_runToDepth {floor bound : Nat} (roomy : s.Roomy)
    (ends : ∀ u, runToDepth floor bound s ≠ .error .exhausted u) :
    (endState (runToDepth floor bound s)).Roomy ∧
      ((∃ u, Visits floor s u ∧ u.Proceeds floor ∧ u.Restarts) →
        (endState (runToDepth floor bound s)).nested = 0) ∧
      (¬(∃ u, Visits floor s u ∧ u.Proceeds floor ∧ u.Restarts) →
        (endState (runToDepth floor bound s)).nested = s.nested) := by
  refine ⟨endState_runToDepth_of bound (fun u => roomy.visits)
    fun u visits _ => (roomy.visits visits).step, ?_, nested_runToDepth bound⟩
  -- From the step that begins anew on, the count is zero and stays so.
  rintro ⟨u, visits, proceeds, i, next, opcode⟩
  have there := roomy.visits visits
  have zero := nested_step_restart there proceeds.2 next opcode
  have there' := there.step
  obtain ⟨bound', run⟩ := visits.next proceeds ends
  rw [run]
  cases hstep : step u with
  | error e v =>
      rw [hstep] at zero
      exact zero
  | ok _ v =>
      rw [hstep] at zero there'
      refine endState_runToDepth_of (P := fun u => u.nested = 0) bound'
        (fun u => nested_visits_zero there' zero) ?_
      intro w visits' _
      exact nested_step_zero (there'.visits visits') (nested_visits_zero there' zero visits')

/-- Where there are no more counts than one, none is left. -/
theorem nested_surfaced {resume : Nat} {r : EStateM.Result Halt Machine Unit}
    (few : (endState r).nested ≤ 1) (ends : ∀ u, r ≠ .error .exhausted u) :
    (endState (surfaced resume r)).nested = 0 := by
  unfold surfaced
  split
  · exact absurd rfl (ends _)
  all_goals
    rw [endState] at few
    repeat' split
    · assumption
    all_goals
      simp only [endState, shallower]
      omega

/-- A run ends out of count exactly if the count is zero at its end. -/
theorem surfaced_miscounted {floor bound resume : Nat}
    (ends : ∀ u, runToDepth floor bound s ≠ .error .exhausted u) :
    (∃ v, surfaced resume (runToDepth floor bound s) = .error .miscounted v) ↔
      (endState (runToDepth floor bound s)).nested = 0 := by
  obtain ⟨u, -, ended⟩ := runToDepth_ends floor bound s
  generalize runToDepth floor bound s = r at ended ends
  cases ended with
  | exhausted => exact absurd rfl (ends u)
  | done | awaiting | failed =>
      simp only [surfaced, endState]
      repeat' split
      all_goals simp_all

/-- Counts of routines run from outside alike. -/
def SameCount (s t : Machine) : Prop := t.nested = s.nested

instance : IsPreorder Machine SameCount where
  refl _ := rfl
  trans _ _ _ h h' := Eq.trans h' h

theorem sameCount_of_respects {α : Type} {x : MachineM α}
    (h : Leads (Respects false) x) : Leads SameCount x := h.mono fun _ _ respects => respects.nested

theorem sameCount_provideLine (line : String) : Leads SameCount (provideLine line) := by
  refine Leads.get.bind fun s => ?_
  split
  · refine Leads.bind (.modified fun _ => rfl) fun _ => sameCount_of_respects ?_
    exact (Bears.values (.finish (.line _ _ line))).bind fun _ => Bears.closed.storeResult _ _
  · exact .throw _

theorem sameCount_provideChar (c : Char) : Leads SameCount (provideChar c) := by
  refine Leads.get.bind fun s => ?_
  split
  · refine Leads.bind (.modified fun _ => rfl) fun _ => sameCount_of_respects ?_
    exact (Bears.values (.finish (.key c))).bind fun _ => Bears.closed.storeResult _ _
  · exact .throw _

/-- Nothing is run from outside between operations from outside. -/
theorem nested_reachable (h : Reachable image options host s) : s.Roomy ∧ s.nested = 0 := by
  -- Between operations the count is zero; only a routine run from outside changes it, and takes it
  -- back unless it began anew.
  induction h with
  | loaded h => exact roomy_load h
  | hosted _ host' ih => exact ⟨⟨ih.1.header, ih.1.pristine⟩, ih.2⟩
  | step _ ih => exact ⟨ih.1.step, nested_step_zero ih.1 ih.2⟩
  | @line s _ line ih =>
      refine ⟨ih.1.of_sheds (sheds_of_effects (does_provideLine line s)), ?_⟩
      exact (sameCount_provideLine line s).trans ih.2
  | @char s _ c ih =>
      have effects : Effects false true s _ := does_provideChar c s
      exact ⟨ih.1.of_sheds (sheds_of_effects effects), (sameCount_provideChar c s).trans ih.2⟩
  | @routine s _ bound a args terminates ih =>
      by_cases zero : a = 0
      · subst zero
        exact ih
      have effects : Effects false true s _ := does_callRoutine a args none s.pc s
      have roomy := ih.1.of_sheds (sheds_of_effects effects)
      have count : (endState (callRoutine a args none s.pc s)).nested = 0 :=
        (sameCount_of_respects (respects_callRoutine a args none s.pc) s).trans ih.2
      cases called : callRoutine a args none s.pc s with
      | error e t =>
          rw [called] at roomy count
          rw [runRoutine_of_uncalled zero called]
          exact ⟨roomy, count⟩
      | ok _ t =>
          rw [called] at roomy count
          rw [runRoutine_of_called zero called] at terminates ⊢
          have finite (u : Machine) :
              runToDepth s.stack.depth bound t.deeper ≠ .error .exhausted u :=
            fun run => terminates u (by rw [run]; rfl)
          have one : t.deeper.nested = 1 := congrArg (· + 1) count
          obtain ⟨roomy, anew, plain⟩ := endState_runToDepth
            (⟨roomy.header, roomy.pristine⟩ : t.deeper.Roomy) finite
          refine ⟨?_, nested_surfaced ?_ finite⟩
          · obtain ⟨pc, nested, surface⟩ :=
              endState_surfaced s.pc (runToDepth s.stack.depth bound t.deeper)
            rw [surface]
            exact ⟨roomy.header, roomy.pristine⟩
          · by_cases restarts : ∃ u, Visits s.stack.depth t.deeper u ∧ u.Proceeds s.stack.depth ∧
              u.Restarts
            · rw [anew restarts]
              exact Nat.zero_le 1
            · exact Nat.le_of_eq ((plain restarts).trans one)

/-- The count of routines run from outside is exact until such a routine begins the story anew.
From then on it is zero, and the run ends out of count.  As long as the count is right, no
instruction of the routine waits for input; where it would, it fails. -/
theorem nested_exact (reachable : Reachable image options host s) :
    s.nested = 0 ∧
      ∀ bound a args t, a ≠ 0 → callRoutine a args none s.pc s = .ok () t →
        (∀ u, Visits s.stack.depth t.deeper u →
          (Restarted s.stack.depth t.deeper u → u.nested = 0) ∧
          (¬Restarted s.stack.depth t.deeper u → u.nested = 1 ∧
            (∀ v request, step u = .ok () v → v.state ≠ .awaiting request) ∧
            ∀ v request, step u.uncounted = .ok () v → v.state = .awaiting request →
              ∃ w, step u = .error (.located u.pc .inputUnavailable) w)) ∧
        ((∀ v, runRoutine bound a args s ≠ .error .exhausted v) →
          ((∃ v, runRoutine bound a args s = .error .miscounted v) ↔
            ∃ u, s.CarriesOut a args u ∧ u.Restarts)) := by
  obtain ⟨roomy, zero⟩ := nested_reachable reachable
  refine ⟨zero, fun bound a args t nonzero called => ?_⟩
  have effects : Effects false true s t := (does_callRoutine a args none s.pc).of_ok called
  have entered : t.deeper.Roomy := by
    have := roomy.of_sheds (sheds_of_effects effects)
    exact ⟨this.header, this.pristine⟩
  -- The count is one from the call on, until the story begins anew.
  have one : t.deeper.nested = 1 := by
    obtain ⟨_, nested, -⟩ := callRoutine_ok called
    rw [deeper, nested, zero]
  refine ⟨fun u visits => ⟨(nested_visits entered visits).1, fun plain => ?_⟩, fun terminates => ?_⟩
  · have count : u.nested = 1 := ((nested_visits entered visits).2 plain).trans one
    have counted : 0 < u.nested := by omega
    have roomy := entered.visits visits
    exact ⟨count, fun v request ran => step_never_waits roomy counted ran request,
      fun v request ran => step_unavailable roomy counted ran⟩
  · rw [runRoutine_of_called nonzero called] at terminates ⊢
    -- The run is out of count exactly if its end is, and its end is known by whether it began anew.
    have finite (u : Machine) : runToDepth s.stack.depth bound t.deeper ≠ .error .exhausted u :=
      fun run => terminates u (by rw [run]; rfl)
    obtain ⟨-, anew, plain⟩ := endState_runToDepth entered finite
    rw [surfaced_miscounted finite]
    constructor
    · intro alone
      refine Classical.byContradiction fun never => ?_
      have := plain fun ⟨u, visits, proceeds, restarts⟩ =>
        never ⟨u, ⟨t, called, visits, proceeds⟩, restarts⟩
      omega
    · rintro ⟨u, ⟨t', called', visits, proceeds⟩, restarts⟩
      cases called.symm.trans called'
      exact anew ⟨u, visits, proceeds, restarts⟩

/-- An image with a routine that begins the story anew. -/
def beginsAnew : Array Byte :=
  overwrite
    (overwrite (Array.replicate 80 0) 0 [3, 0, 0, 0, 0, 0, 0, 64, 0, 0, 0, 0, 0, 0, 255, 255])
    72 [0, 0xb7]

/-- The machine after this story was loaded. -/
def beginning : Machine := (load beginsAnew {} {}).toOption.getD default

theorem reachable_beginning : Reachable beginsAnew {} {} beginning := by
  refine .loaded ?_
  unfold beginning
  exact Except.eq_ok_getD _ (by decide +kernel)

theorem beginning_miscounted :
    runRoutine 9 72 [] beginning = .error .miscounted (endState (runRoutine 9 72 [] beginning)) :=
  eq_error_of_fault? (by decide +kernel)

theorem nested_exact_anew :
    beginning.nested = 0 ∧ ∃ u, beginning.CarriesOut 72 [] u ∧ u.Restarts := by
  have called : callRoutine 72 [] none beginning.pc beginning = .ok () _ :=
    eq_ok_of_value? (by decide +kernel)
  obtain ⟨zero, inside⟩ := nested_exact reachable_beginning
  have counts := (inside 9 72 [] _ (by decide) called).2 fun v run => by
    cases beginning_miscounted.symm.trans run
  exact ⟨zero, counts.mp ⟨_, beginning_miscounted⟩⟩

/-- Not every run from outside ends with its count. -/
theorem exists_miscounted :
    ¬∀ image options host s bound a args v, Reachable image options host s →
      runRoutine bound a args s ≠ .error .miscounted v := by
  intro exact'
  exact exact' _ _ _ _ _ _ _ _ reachable_beginning beginning_miscounted

end Machine
end ZMachine
