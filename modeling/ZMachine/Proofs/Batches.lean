/-
  Sessions and the size of their batches.

  An interpreting session carries out the instructions of its story a batch
  at a time and yields in between.  Where the batches end is nothing that the
  story can tell: as long as no stop is requested, the instructions that come
  one after the other and what brings them to a halt depend on the machine
  alone.  A fault, the end of the story or a request for input that falls on
  the last instruction of a batch is met there as anywhere else.
-/
import ZMachine.Proofs.Beginnings

namespace ZMachine

open Machine

namespace Machine

variable {m u v w : Machine} {k n : Nat} {outcome outcome' : SessionOutcome}

/-! ## Instructions one after the other -/

/-- So many instructions are carried out one after the other, each of them without a fault. -/
inductive Steps : Nat → Machine → Machine → Prop where
  | none (m : Machine) : Steps 0 m m
  | next {n : Nat} {m u v : Machine} (ran : step m = .ok () u) (rest : Steps n u v) :
      Steps (n + 1) m v

theorem Steps.trans (h : Steps k m u) (h' : Steps n u v) : Steps (n + k) m v := by
  induction h with
  | none => exact h'
  | next ran _ ih => exact .next ran (ih h')

/-- Of two runs from one machine the longer one goes on where the shorter one ends. -/
theorem Steps.goOn (h : Steps k m u) (h' : Steps (k + n) m v) : Steps n u v := by
  induction h with
  | none =>
      rw [Nat.zero_add] at h'
      exact h'
  | next ran _ ih =>
      rw [Nat.succ_add] at h'
      cases h' with
      | next ran' rest =>
          cases ran.symm.trans ran'
          exact ih rest

/-- What brings a machine to a halt, and the machine as it is left. -/
inductive Halts (m : Machine) : SessionOutcome → Machine → Prop where
  | awaiting {request : InputRequest} (state : m.state = .awaiting request) :
      Halts m (.awaiting request) m
  | quit (state : m.state = .quit) : Halts m .quit m
  | faulted {f : Fault} {v : Machine} (running : m.state = .running)
      (failed : step m = .error f v) :
      Halts m (.faulted f) v

/-- A machine that is brought to a halt carries out nothing more. -/
theorem Halts.still (halts : m.Halts outcome w) (steps : Steps n m v) : n = 0 := by
  cases steps with
  | none => rfl
  | next ran _ =>
      obtain ⟨_, _, _, running, -⟩ := step_ok ran
      cases halts with
      | awaiting state | quit state => cases state.symm.trans running
      | faulted _ failed => cases failed.symm.trans ran

theorem Halts.unique (halts : m.Halts outcome v) (halts' : m.Halts outcome' w) :
    outcome = outcome' ∧ v = w := by
  cases halts with
  | awaiting state =>
      cases halts' with
      | awaiting state' =>
          cases state.symm.trans state'
          exact ⟨rfl, rfl⟩
      | quit other | faulted other => cases state.symm.trans other
  | quit state =>
      cases halts' with
      | quit => exact ⟨rfl, rfl⟩
      | awaiting other | faulted other => cases state.symm.trans other
  | faulted running failed =>
      cases halts' with
      | awaiting other | quit other => cases running.symm.trans other
      | faulted _ failed' =>
          cases failed.symm.trans failed'
          exact ⟨rfl, rfl⟩

/-- The story by itself comes to a halt after so many instructions. -/
def Comes (m : Machine) (n : Nat) (outcome : SessionOutcome) (v : Machine) : Prop :=
  ∃ u, Steps n m u ∧ u.Halts outcome v

/-- No run goes on beyond the halt. -/
theorem Comes.le (comes : m.Comes n outcome v) (steps : Steps k m u) : k ≤ n := by
  obtain ⟨w, first, halts⟩ := comes
  by_contra beyond
  obtain ⟨d, rfl⟩ := Nat.exists_eq_add_of_lt (Nat.not_le.mp beyond)
  have surplus : d + 1 = 0 := halts.still (first.goOn steps)
  omega

/-- Carrying out some instructions brings the halt so much nearer. -/
theorem Comes.after (comes : m.Comes n outcome v) (steps : Steps k m u) :
    u.Comes (n - k) outcome v := by
  have le := comes.le steps
  obtain ⟨w, whole, halts⟩ := comes
  rw [← Nat.add_sub_of_le le] at whole
  exact ⟨w, steps.goOn whole, halts⟩

theorem Comes.unique (comes : m.Comes n outcome v) (comes' : m.Comes k outcome' w) :
    outcome = outcome' ∧ v = w := by
  obtain ⟨u, steps, halts⟩ := comes'
  obtain ⟨u', rest, halts'⟩ := comes.after steps
  -- Where the one run halts the other has nothing left to carry out.
  rw [halts.still rest] at rest
  cases rest
  exact halts'.unique halts

/-- At no time between two instructions is a stop requested. -/
def Undisturbed (m : Machine) : Prop := ∀ n u, Steps n m u → u.host.interrupted = false

theorem Undisturbed.after (undisturbed : m.Undisturbed) (steps : Steps k m u) : u.Undisturbed :=
  fun _ _ later => undisturbed _ _ (steps.trans later)

/-- Where no text asks for a stop, none is ever requested. -/
theorem undisturbed_of_calm (calm : m.host.Calm) : m.Undisturbed := by
  intro n u steps
  induction steps with
  | none => exact calm.2
  | next ran _ ih =>
      obtain ⟨i, decoded, t, -, -, executed, rfl⟩ := step_ok ran
      exact ih ((sheds_of_effects ((does_execute i).of_ok executed)).calm calm)

end Machine

/-- Where an outcome leaves a session. -/
def SessionOutcome.state : SessionOutcome → SessionState
  | .yielded _ => .running
  | .awaiting request => .awaiting request
  | .quit => .quit
  | .stopped => .stopped
  | .faulted f => .faulted f

namespace Session

variable {s t : Session} {m v : Machine} {outcome : SessionOutcome} {n bound : Nat}
    {yields : List Nat}

/-! ## One batch -/

/-- The session and its machine as an outcome leaves them. -/
def left (s : Session) (outcome : SessionOutcome) (m : Machine) : Session :=
  { s.withMachine m with state := outcome.state }

/-- A machine that does not run any longer ends a batch, however many instructions it had left. -/
theorem endBatch_halts (idle : s.machine.state ≠ .running) (executed : Nat) :
    ∃ outcome, s.machine.Halts outcome s.machine ∧
      s.endBatch executed = (outcome, s.left outcome s.machine) := by
  unfold endBatch
  cases now : s.machine.state with
  | running => exact absurd now idle
  | awaiting request => exact ⟨.awaiting request, .awaiting now, rfl⟩
  | quit => exact ⟨.quit, .quit now, rfl⟩

/-- A batch carries out as many instructions as it may and yields, or it meets what brings the
machine to a halt. -/
theorem runBatch_cases (running : s.state = .running) (undisturbed : s.machine.Undisturbed)
    (executed limit : Nat) :
    (∃ u, Steps limit s.machine u ∧
      s.runBatch executed limit
        = (.yielded (executed + limit), s.left (.yielded (executed + limit)) u)) ∨
    ∃ k outcome v, s.machine.Comes k outcome v ∧
      s.runBatch executed limit = (outcome, s.left outcome v) := by
  induction limit generalizing s executed with
  | zero =>
      rw [runBatch]
      by_cases going : s.machine.state = .running
      · refine .inl ⟨s.machine, .none _, ?_⟩
        simp only [endBatch, going, Nat.add_zero, left, SessionOutcome.state, ← running]
        rfl
      · obtain ⟨outcome, halts, ends⟩ := endBatch_halts going executed
        exact .inr ⟨0, outcome, _, ⟨_, .none _, halts⟩, ends⟩
  | succ limit ih =>
      rw [runBatch]
      by_cases going : s.machine.state = .running
      · have clear : ¬s.isInterrupted = true := by
          rw [isInterrupted, undisturbed 0 _ (.none _)]
          exact Bool.false_ne_true
        rw [if_neg (not_not.mpr going), if_neg clear, act_eq]
        cases ran : Machine.step s.machine with
        | error f v => exact .inr ⟨0, .faulted f, v, ⟨_, .none _, .faulted going ran⟩, rfl⟩
        | ok _ m =>
            -- What is left of the batch is a batch of its own.
            have first : Steps 1 s.machine m := .next ran (.none m)
            rcases ih (s := s.withMachine m) running (undisturbed.after first) (executed + 1) with
              ⟨u, steps, yields⟩ | ⟨k, outcome, v, ⟨u, steps, halts⟩, ends⟩
            · refine .inl ⟨u, .next ran steps, ?_⟩
              rw [Nat.add_right_comm, Nat.add_assoc] at yields
              exact yields
            · exact .inr ⟨k + 1, outcome, v, ⟨u, .next ran steps, halts⟩, ends⟩
      · rw [if_pos going]
        obtain ⟨outcome, halts, ends⟩ := endBatch_halts going executed
        exact .inr ⟨0, outcome, _, ⟨_, .none _, halts⟩, ends⟩

/-- The session interprets, is not over, and no stop is ever requested. -/
structure Interpreting (s : Session) : Prop where
  interpreted : s.options.mode = .interpreted
  fresh : s.state = .ready ∨ s.state = .running
  undisturbed : s.machine.Undisturbed

/-- Running such a session carries out one batch. -/
theorem Interpreting.run_eq (interpreting : s.Interpreting) (bound : Nat) :
    s.run bound = some ({ s with state := .running }.runBatch 0 s.options.batchSize) := by
  have clear : ¬s.isInterrupted = true := by
    rw [isInterrupted, interpreting.undisturbed 0 _ (.none _)]
    exact Bool.false_ne_true
  rcases interpreting.fresh with state | state <;>
    simp only [run, state, if_neg clear, interpreting.interpreted]

/-- It yields after exactly one batch of instructions, or comes to the halt of its story. -/
theorem Interpreting.run_cases (interpreting : s.Interpreting) (bound : Nat) :
    (∃ u, Steps s.options.batchSize s.machine u ∧
      s.run bound = some (.yielded s.options.batchSize, s.left (.yielded s.options.batchSize) u)) ∨
    ∃ k outcome v, s.machine.Comes k outcome v ∧
      s.run bound = some (outcome, s.left outcome v) := by
  rw [interpreting.run_eq bound]
  have batch := runBatch_cases (s := { s with state := .running }) rfl interpreting.undisturbed 0
    s.options.batchSize
  rw [Nat.zero_add] at batch
  rcases batch with ⟨u, steps, yields⟩ | ⟨k, outcome, v, comes, ends⟩
  · exact .inl ⟨u, steps, congrArg some yields⟩
  · exact .inr ⟨k, outcome, v, comes, congrArg some ends⟩

theorem Interpreting.after (interpreting : s.Interpreting) (steps : Steps n s.machine m) :
    (s.left (.yielded n) m).Interpreting :=
  ⟨interpreting.interpreted, .inr rfl, interpreting.undisturbed.after steps⟩

/-! ## Batch after batch -/

/-- The session is run again and again and yields every time; the numbers are those that it
reports. -/
inductive Yields : Session → List Nat → Session → Prop where
  | none (s : Session) : Yields s [] s
  | again {s t u : Session} {n bound : Nat} {yields : List Nat}
      (ran : s.run bound = some (.yielded n, t)) (rest : Yields t yields u) :
      Yields s (n :: yields) u

/-- The session is run until it does not yield any longer. -/
def Concludes (s : Session) (outcome : SessionOutcome) (t : Session) : Prop :=
  ∃ yields u bound, Yields s yields u ∧ u.run bound = some (outcome, t) ∧ ∀ n, outcome ≠ .yielded n

theorem Concludes.again {u : Session} (ran : s.run bound = some (.yielded n, t))
    (concludes : t.Concludes outcome u) : s.Concludes outcome u := by
  obtain ⟨yields, last, bound', before, ends⟩ := concludes
  exact ⟨n :: yields, last, bound', .again ran before, ends⟩

theorem not_yielded_of_comes (comes : m.Comes n outcome v) (k : Nat) : outcome ≠ .yielded k := by
  obtain ⟨u, -, halts⟩ := comes
  rintro rfl
  cases halts

/-- However often the session has yielded, it has carried out whole batches. -/
theorem Yields.steps (yields' : Yields s yields t) (interpreting : s.Interpreting) :
    (∀ n ∈ yields, n = s.options.batchSize) ∧ t.Interpreting ∧
      ∃ k, Steps k s.machine t.machine := by
  induction yields' with
  | none => exact ⟨by simp, interpreting, 0, .none _⟩
  | @again s t u n bound yields ran rest ih =>
      rcases interpreting.run_cases bound with ⟨m, steps, yielded⟩ | ⟨k, outcome, v, comes, ends⟩
      · cases ran.symm.trans yielded
        obtain ⟨sizes, interpreting', k, steps'⟩ := ih (interpreting.after steps)
        refine ⟨?_, interpreting', _, steps.trans steps'⟩
        rintro n (_ | ⟨_, later⟩)
        · rfl
        · exact sizes n later
      · cases ran.symm.trans ends
        exact absurd rfl (not_yielded_of_comes comes n)

/-- Run to the end, the session comes to the halt of its story. -/
theorem Concludes.comes (concludes : s.Concludes outcome t) (interpreting : s.Interpreting) :
    ∃ k v, s.machine.Comes k outcome v ∧ t.machine = v ∧ t.state = outcome.state := by
  obtain ⟨yields, u, bound, before, last, ended⟩ := concludes
  obtain ⟨-, interpreting', k, steps⟩ := before.steps interpreting
  rcases interpreting'.run_cases bound with
    ⟨m, -, yielded⟩ | ⟨n, outcome', v, ⟨w, steps', halts⟩, ends⟩
  · cases last.symm.trans yielded
    exact absurd rfl (ended _)
  · cases last.symm.trans ends
    exact ⟨n + k, v, ⟨w, steps.trans steps', halts⟩, rfl, rfl⟩

/-- Batches of any size but zero come to the halt of the story. -/
theorem concludes_of_comes (interpreting : s.Interpreting) (positive : 1 ≤ s.options.batchSize)
    (comes : s.machine.Comes n outcome v) : s.Concludes outcome (s.left outcome v) := by
  -- Every batch that yields carries out an instruction, so the halt comes nearer.
  induction n using Nat.strongRecOn generalizing s with
  | ind n ih =>
      rcases interpreting.run_cases 0 with ⟨u, steps, yielded⟩ | ⟨k, outcome', w, comes', ends⟩
      · have le : s.options.batchSize ≤ n := comes.le steps
        have rest := ih (n - s.options.batchSize) (by omega) (interpreting.after steps) positive
          (comes.after steps)
        exact rest.again yielded
      · obtain ⟨rfl, rfl⟩ := comes.unique comes'
        exact ⟨[], s, 0, .none s, ends, not_yielded_of_comes comes⟩

/-- Two sessions that interpret one story with one host differ in the size of their batches alone,
and no stop is ever requested.  Whenever they ask the system for a seed, at the beginning for want
of one or later on behalf of the story, it answers both alike.  If the one comes to an end, the
other does with the same outcome, and leaves the same machine, its host and its random numbers
included; and whenever one of them yields, it has carried out a whole batch. -/
theorem batchSize_unobservable {image : Array Byte} (options : SessionOptions) {host : Host}
    {b₁ b₂ : Nat} {entropy₁ entropy₂ : Entropy} {s₁ s₂ : Session} (positive : 1 ≤ b₂)
    (answers : entropy₁ = entropy₂)
    (loads₁ : load image { options with
      mode := .interpreted, batchSize := b₁, machine.entropy := entropy₁ } host = .ok s₁)
    (loads₂ : load image { options with
      mode := .interpreted, batchSize := b₂, machine.entropy := entropy₂ } host = .ok s₂)
    (undisturbed : s₁.machine.Undisturbed) :
    (∀ outcome t₁, s₁.Concludes outcome t₁ →
      ∃ t₂, s₂.Concludes outcome t₂ ∧ t₂.machine = t₁.machine ∧ t₂.state = t₁.state) ∧
    (∀ yields t, s₁.Yields yields t → ∀ n ∈ yields, n = b₁) ∧
    (∀ yields t, s₂.Yields yields t → ∀ n ∈ yields, n = b₂) := by
  subst answers
  obtain ⟨m, read, rfl⟩ := opened_of_load loads₁
  obtain ⟨m', read', rfl⟩ := opened_of_load loads₂
  obtain rfl : m = m' := Except.ok.inj (read.symm.trans read')
  have interpreting (b : Nat) : (opened m { options with
      mode := .interpreted, batchSize := b, machine.entropy := entropy₁ }).Interpreting :=
    ⟨rfl, .inl rfl, undisturbed⟩
  refine ⟨?_, fun _ _ yields => (yields.steps (interpreting b₁)).1,
    fun _ _ yields => (yields.steps (interpreting b₂)).1⟩
  intro outcome t₁ concludes
  obtain ⟨k, v, comes, machine, state⟩ := concludes.comes (interpreting b₁)
  exact ⟨_, concludes_of_comes (interpreting b₂) positive comes, machine.symm, state.symm⟩

/-- The story of four instructions that prints 7 ends with the last instruction of the second batch
of two, and with the first one of the second batch of three. -/
theorem batchSize_unobservable_seven :
    ∃ t, (opened telling { batchSize := 2 }).Concludes .quit t ∧ t.machine.host.output = "7" ∧
      ∃ t', (opened telling { batchSize := 3 }).Concludes .quit t' ∧ t'.machine = t.machine := by
  have loads : Machine.load tellsSeven {} {} = .ok telling := by
    unfold telling
    exact Except.eq_ok_getD _ (by decide +kernel)
  have yields : ((opened telling { batchSize := 2 }).run 0).map Prod.fst = some (.yielded 2) := by
    decide +kernel
  obtain ⟨⟨_, u⟩, first, rfl⟩ := Option.map_eq_some_iff.mp yields
  have ends : ((opened telling { batchSize := 2 }).run 0).bind (fun p =>
      (p.2.run 0).map fun q => (q.1, q.2.machine.host.output)) = some (.quit, "7") := by
    decide +kernel
  rw [first] at ends
  obtain ⟨⟨_, t⟩, last, told⟩ := Option.map_eq_some_iff.mp ends
  obtain ⟨rfl, output⟩ := Prod.mk.inj told
  have concludes : (opened telling { batchSize := 2 }).Concludes .quit t :=
    ⟨[2], u, 0, .again first (.none u), last, by simp⟩
  have twos : load tellsSeven { batchSize := 2 } {} = .ok (opened telling { batchSize := 2 }) :=
    load_opened loads
  have threes : load tellsSeven { batchSize := 3 } {} = .ok (opened telling { batchSize := 3 }) :=
    load_opened loads
  have undisturbed : telling.Undisturbed := undisturbed_of_calm (calm_load loads ⟨rfl, rfl⟩)
  obtain ⟨t', concludes', machine, -⟩ :=
    (batchSize_unobservable {} (by decide) rfl twos threes undisturbed).1 .quit t concludes
  exact ⟨t, concludes, output, t', concludes', machine⟩

end Session
end ZMachine
