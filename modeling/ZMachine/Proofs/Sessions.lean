/-
  Sessions over all that can be asked of them.

  A session and its machine each remember whether the story waits, runs or
  is over.  Every operation is one step of both, so what holds of the pair is
  shown operation by operation.  A session that is over stays as it is for
  ever.  A session that interprets agrees with its machine on the request that
  is outstanding, until an answer to it cannot be taken in: the machine then
  takes the request for answered and the session does not, and from there on
  neither goes on.
-/
import ZMachine.Engine.Session
import ZMachine.Proofs.Equivalence
import ZMachine.Proofs.Waiting

namespace ZMachine

open Machine

namespace Session

/-! ## Operations -/

/-- What can be asked of a session, and what the world may do to its host in between. -/
inductive Operation where
  | run (bound : Nat)
  | line (text : String)
  | char (c : Char)
  | interrupt
  | clear
  | hosted (host : Host)

/-- The session with another machine. -/
def withMachine (s : Session) (m : Machine) : Session :=
  { s with engine := { s.engine with machine := m } }

/-- The session with another host. -/
def withHost (s : Session) (host : Host) : Session := s.withMachine { s.machine with host }

/-- The session after an operation.  Nothing if running it does not come to an end. -/
def Operation.apply : Operation → Session → Option Session
  | .run bound, s => (s.run bound).map Prod.snd
  | .line text, s => some (s.provideLine text).2
  | .char c, s => some (s.provideChar c).2
  | .interrupt, s => some (s.setInterrupt true)
  | .clear, s => some s.clearInterrupt
  | .hosted host, s => some (s.withHost host)

/-- The session after one operation and another. -/
def after (s : Session) : List Operation → Option Session
  | [] => some s
  | o :: os => (o.apply s).bind fun t => t.after os

/-- What an operation does to the host by itself: it raises or clears the stop request. -/
def Operation.disturb : Operation → Host → Host
  | .run _, h | .line _, h | .char _, h => h
  | .interrupt, h => { h with interrupted := true }
  | .clear, h => { h with interrupted := false }
  | .hosted host, _ => host

variable {s t : Session}

theorem act_eq {α : Type} (s : Session) (x : MachineM α) :
    s.act x =
      match x s.machine with
      | .ok a m => (.ok a, s.withMachine m)
      | .error f m => (.error f, s.withMachine m) := by
  unfold act
  dsimp only
  cases x s.machine <;> rfl

/-! ## Answers -/

/-- An answer that nobody asked for is refused, and nothing changes. -/
theorem provideLine_refused (text : String)
    (other : ∀ textBuffer parseBuffer store, s.machine.state
      ≠ .awaiting (.line textBuffer parseBuffer store)) :
    s.provideLine text = (.error (.inputState .noLineRequested), s) := by
  have refused : Machine.provideLine text s.machine
      = .error (.inputState .noLineRequested) s.machine := by
    simp only [Machine.provideLine, Bind.bind, EStateM.bind, run_get]
    rfl
  simp only [provideLine, provide, act_eq, refused]
  rfl

theorem provideChar_refused (c : Char) (other : ∀ store, s.machine.state ≠ .awaiting (.key store)) :
    s.provideChar c = (.error (.inputState .noCharRequested), s) := by
  have refused : Machine.provideChar c s.machine
      = .error (.inputState .noCharRequested) s.machine := by
    simp only [Machine.provideChar, Bind.bind, EStateM.bind, run_get]
    rfl
  simp only [provideChar, provide, act_eq, refused]
  rfl

/-- What an answer that is taken, or not taken in, does: the machine goes on in either case, the
session only if the answer was taken in. -/
theorem provide_answered {x : MachineM Unit} (running : (endState (x s.machine)).state = .running) :
    (s.provide x).2.machine.state = .running ∧ (s.provide x).2.options = s.options ∧
      ((s.provide x).1 = .ok () ∧ (s.provide x).2.state = .running ∨
        (∃ f, (s.provide x).1 = .error f) ∧ (s.provide x).2.state = s.state) := by
  simp only [provide, act_eq]
  cases ran : x s.machine with
  | ok _ m =>
      rw [ran] at running
      exact ⟨running, rfl, .inl ⟨rfl, rfl⟩⟩
  | error f m =>
      rw [ran] at running
      exact ⟨running, rfl, .inr ⟨⟨f, rfl⟩, rfl⟩⟩

end Session

namespace Machine

/-- States in which the machine is equally far. -/
def SameState (s t : Machine) : Prop := t.state = s.state

instance : IsPreorder Machine SameState where
  refl _ := rfl
  trans _ _ _ h h' := Eq.trans h' h

instance : Bears SameState where
  does _ _ _ h s := (stays_of_effects (h s)).state
  writeLocal i w s := by
    change SameState s (endState (onStack (·.writeLocal i w) s))
    rw [run_onStack]
    split <;> rfl

/-- As soon as a request is answered the machine goes on, also if the answer cannot be taken in. -/
theorem running_provideLine {s : Machine} {textBuffer parseBuffer : Nat} {store : Option Variable}
    (state : s.state = .awaiting (.line textBuffer parseBuffer store)) (text : String) :
    (endState (provideLine text s)).state = .running := by
  have completes : Leads SameState (finishLine textBuffer parseBuffer text >>= storeResult store) :=
    (Bears.values (.finishLine _ _ _)).bind fun _ => Bears.closed.storeResult _ _
  have answered :
      provideLine text s = (finishLine textBuffer parseBuffer text >>= storeResult store)
      { s with state := .running } := by
    simp only [provideLine, Bind.bind, EStateM.bind, run_get, state]
    rfl
  rw [answered]
  exact completes { s with state := .running }

theorem running_provideChar {s : Machine} {store : Option Variable}
    (state : s.state = .awaiting (.key store)) (c : Char) :
    (endState (provideChar c s)).state = .running := by
  have completes : Leads SameState (finishChar c >>= storeResult store) :=
    (Bears.values (.finishChar c)).bind fun _ => Bears.closed.storeResult _ _
  have answered :
      provideChar c s = (finishChar c >>= storeResult store) { s with state := .running } := by
    simp only [provideChar, Bind.bind, EStateM.bind, run_get, state]
    rfl
  rw [answered]
  exact completes { s with state := .running }

/-- Outside of version 6, the story begins in a frame without locals at the instruction that the
header names. -/
theorem run_start {s : Machine} (version : s.header.version ≠ 6) :
    start s = .ok () { s with
      stack := { s.stack with values := [], frames := [.enter s.header.mainRoutine 0 none [] [] 0] }
      nested := 0, lastReturn := none, state := .running, pc := s.header.initialPc.toNat
      code := s.code.recordCall s.header.mainRoutine } := by
  change (if s.header.version = 6 then _ else _ : MachineM Unit) _ = _
  rw [if_neg version]
  rfl

theorem running_start {s t : Machine} (begun : start s = .ok () t) : t.state = .running := by
  by_cases version : s.header.version = 6
  · change (if s.header.version = 6 then callRoutine s.header.mainRoutine [] none 0
      else _ : MachineM Unit)
      { s with
        stack := s.stack.clear, nested := 0, lastReturn := none, state := .running
        code := s.code.recordCall s.header.mainRoutine } = .ok () t at begun
    rw [if_pos version] at begun
    exact state_of_callRoutine begun
  · rw [run_start version] at begun
    cases begun
    rfl

end Machine

namespace Session

variable {s t : Session}

/-! ## Interpreting -/

/-- How the states of an interpreting session and of its machine go together. -/
def Coupled (s : Session) : Prop :=
  match s.state with
  | .ready | .running | .stopped => s.machine.state = .running
  | .awaiting request => s.machine.state = .awaiting request
  | .quit => s.machine.state = .quit
  | .faulted _ => s.machine.Awake

/-- The session waits for an answer that its machine takes for given. -/
def Stuck (s : Session) : Prop :=
  ∃ request, s.state = .awaiting request ∧ s.machine.state = .running

/-- Instructions that are carried out one after the other, each of them while no stop is
requested. -/
inductive Unhindered (m : Machine) : Machine → Prop where
  | start : Unhindered m m
  | step {u : Machine} (before : Unhindered m u) (clear : u.host.interrupted = false) :
      Unhindered m (endState (Machine.step u))

theorem Unhindered.trans {m u v : Machine} (h : Unhindered m u) (h' : Unhindered u v) :
    Unhindered m v := by
  induction h' with
  | start => exact h
  | step _ clear ih => exact ih.step clear

theorem endBatch_coupled (running : s.state = .running) (executed : Nat) :
    (s.endBatch executed).2.Coupled ∧ (s.endBatch executed).2.options = s.options ∧
      (s.endBatch executed).2.machine = s.machine := by
  unfold endBatch
  cases state : s.machine.state with
  | running =>
      refine ⟨?_, rfl, rfl⟩
      rw [Coupled, running]
      exact state
  | awaiting request => exact ⟨state, rfl, rfl⟩
  | quit => exact ⟨state, rfl, rfl⟩

/-- A batch leaves session and machine in states that go together. -/
theorem runBatch_coupled (running : s.state = .running) (executed limit : Nat) :
    (s.runBatch executed limit).2.Coupled ∧ (s.runBatch executed limit).2.options = s.options ∧
      Unhindered s.machine (s.runBatch executed limit).2.machine := by
  induction limit generalizing s executed with
  | zero =>
      obtain ⟨coupled, options, machine⟩ := endBatch_coupled running executed
      refine ⟨coupled, options, ?_⟩
      rw [runBatch, machine]
      exact .start
  | succ limit ih =>
      rw [runBatch]
      by_cases going : s.machine.state = .running
      · rw [if_neg (not_not.mpr going)]
        -- A request to stop is noticed before the step, which is not made then.
        by_cases interrupted : s.isInterrupted = true
        · rw [if_pos interrupted]
          exact ⟨going, rfl, .start⟩
        · have clear : s.machine.host.interrupted = false := by
            simpa [isInterrupted] using interrupted
          rw [if_neg interrupted, act_eq]
          have first : Unhindered s.machine (endState (Machine.step s.machine)) :=
            .step .start clear
          cases ran : Machine.step s.machine with
          | error f m =>
              rw [ran] at first
              exact ⟨awake_of_step_failed going ran, rfl, first⟩
          | ok _ m =>
              rw [ran] at first
              obtain ⟨coupled, options, rest⟩ := ih (s := s.withMachine m) running (executed + 1)
              exact ⟨coupled, options, first.trans rest⟩
      · rw [if_pos going]
        obtain ⟨coupled, options, machine⟩ := endBatch_coupled running executed
        exact ⟨coupled, options, machine ▸ .start⟩

/-- Running an interpreting session: it comes to an end, and carries out instructions only while no
stop is requested. -/
theorem run_coupled (interpreted : s.options.mode = .interpreted) (coupled : s.Coupled)
    (bound : Nat) :
    ∃ outcome t, s.run bound = some (outcome, t) ∧ t.Coupled ∧ t.options = s.options ∧
      Unhindered s.machine t.machine := by
  have begins (running : s.machine.state = .running) (h : s.run bound =
      if s.isInterrupted then some s.stop
      else some ({ s with state := .running }.runBatch 0 s.options.batchSize)) :
      ∃ outcome t, s.run bound = some (outcome, t) ∧ t.Coupled ∧ t.options = s.options ∧
        Unhindered s.machine t.machine := by
    rw [h]
    split
    · exact ⟨_, _, rfl, running, rfl, .start⟩
    · exact ⟨_, _, rfl, runBatch_coupled (s := { s with state := .running }) rfl 0
        s.options.batchSize⟩
  unfold Coupled at coupled
  cases state : s.state with
  | ready | running =>
      rw [state] at coupled
      refine begins coupled ?_
      simp only [run, state, interpreted]
  | awaiting | quit | stopped | faulted =>
      refine ⟨_, s, by simp only [run, state]; rfl, ?_, rfl, .start⟩
      rw [Coupled, state]
      rwa [state] at coupled

/-- The operation answers the request that the machine waits for, and the answer cannot be
taken in. -/
def Operation.Botches (s : Session) : Operation → Prop
  | .line text =>
      (∃ textBuffer parseBuffer store,
        s.machine.state = .awaiting (.line textBuffer parseBuffer store)) ∧
      ∃ f, (s.provideLine text).1 = .error f
  | .char c =>
      (∃ store, s.machine.state = .awaiting (.key store)) ∧ ∃ f, (s.provideChar c).1 = .error f
  | _ => False

theorem state_of_awaiting (coupled : s.Coupled) {request : InputRequest}
    (awaiting : s.machine.state = .awaiting request) : s.state = .awaiting request := by
  unfold Coupled at coupled
  split at coupled
  case h_4 =>
    rw [coupled] at awaiting
    cases awaiting
    assumption
  case h_6 => exact absurd awaiting (coupled request)
  all_goals
    rw [coupled] at awaiting
    cases awaiting

theorem agreed_of_coupled (coupled : s.Coupled) (request : InputRequest) :
    s.state = .awaiting request ↔ s.machine.state = .awaiting request := by
  refine ⟨fun state => ?_, state_of_awaiting coupled⟩
  rw [Coupled, state] at coupled
  exact coupled

/-- An answer to the request that the machine waits for is taken in, or it leaves the
session stuck. -/
theorem answered_coupled (coupled : s.Coupled) {x : MachineM Unit} {request : InputRequest}
    (awaiting : s.machine.state = .awaiting request)
    (running : (endState (x s.machine)).state = .running) :
    (s.provide x).2.options = s.options ∧
      ((∃ f, (s.provide x).1 = .error f) ∧ (s.provide x).2.Stuck ∨
        (¬∃ f, (s.provide x).1 = .error f) ∧ (s.provide x).2.Coupled) := by
  obtain ⟨machine, options, ⟨ok, state⟩ | ⟨failed, state⟩⟩ := provide_answered running
  · refine ⟨options, .inr ⟨by simp [ok], ?_⟩⟩
    rw [Coupled, state]
    exact machine
  · exact ⟨options,
      .inl ⟨failed, request, state.trans (state_of_awaiting coupled awaiting), machine⟩⟩

/-- Clearing the request to stop does no more, unless the session had stopped for it. -/
theorem clearInterrupt_of_not_stopped
    (goesOn : ¬(s.state = .stopped ∧ s.options.mode = .interpreted)) :
    s.clearInterrupt = s.setInterrupt false := if_neg goesOn

theorem options_clearInterrupt (s : Session) : s.clearInterrupt.options = s.options := by
  unfold clearInterrupt
  dsimp only
  split <;> rfl

/-- Only a session that was stopped is made ready again, and its machine was left running. -/
theorem coupled_clearInterrupt (coupled : s.Coupled) : s.clearInterrupt.Coupled := by
  unfold clearInterrupt
  dsimp only
  split
  · rename_i stopped
    have state : s.state = .stopped := stopped.1
    unfold Coupled at coupled
    rw [state] at coupled
    exact coupled
  · exact coupled

/-- One operation on a session that interprets.  It comes to an end, and session and machine go
together after it, unless it is an answer that cannot be taken in. -/
theorem apply_coupled (interpreted : s.options.mode = .interpreted) (coupled : s.Coupled)
    (o : Operation) :
    ∃ t, o.apply s = some t ∧ t.options = s.options ∧
      (o.Botches s ∧ t.Stuck ∨ ¬o.Botches s ∧ t.Coupled) := by
  cases o with
  | run bound =>
      obtain ⟨outcome, t, ran, after, options, -⟩ := run_coupled interpreted coupled bound
      exact ⟨t, by simp [Operation.apply, ran], options, .inr ⟨id, after⟩⟩
  | line text =>
      -- Nobody is asked for an answer that was not waited for; it is refused and changes nothing.
      by_cases asked : ∃ textBuffer parseBuffer store,
          s.machine.state = .awaiting (.line textBuffer parseBuffer store)
      · obtain ⟨textBuffer, parseBuffer, store, awaiting⟩ := asked
        obtain ⟨options, stuck | going⟩ :=
          answered_coupled coupled awaiting (running_provideLine awaiting text)
        · exact ⟨_, rfl, options, .inl ⟨⟨⟨_, _, _, awaiting⟩, stuck.1⟩, stuck.2⟩⟩
        · exact ⟨_, rfl, options, .inr ⟨fun botches => going.1 botches.2, going.2⟩⟩
      · have refused := provideLine_refused (s := s) text fun _ _ _ state => asked ⟨_, _, _, state⟩
        refine ⟨s, ?_, rfl, .inr ⟨fun botches => asked botches.1, coupled⟩⟩
        rw [Operation.apply, refused]
  | char c =>
      by_cases asked : ∃ store, s.machine.state = .awaiting (.key store)
      · obtain ⟨store, awaiting⟩ := asked
        obtain ⟨options, stuck | going⟩ :=
          answered_coupled coupled awaiting (running_provideChar awaiting c)
        · exact ⟨_, rfl, options, .inl ⟨⟨⟨_, awaiting⟩, stuck.1⟩, stuck.2⟩⟩
        · exact ⟨_, rfl, options, .inr ⟨fun botches => going.1 botches.2, going.2⟩⟩
      · have refused := provideChar_refused (s := s) c fun _ state => asked ⟨_, state⟩
        refine ⟨s, ?_, rfl, .inr ⟨fun botches => asked botches.1, coupled⟩⟩
        rw [Operation.apply, refused]
  | interrupt | hosted => exact ⟨_, rfl, rfl, .inr ⟨id, coupled⟩⟩
  | clear =>
      exact ⟨_, rfl, options_clearInterrupt s, .inr ⟨id, coupled_clearInterrupt coupled⟩⟩

/-- Nothing moves a session that is stuck. -/
theorem apply_stuck (stuck : s.Stuck) (o : Operation) :
    ∃ t, o.apply s = some t ∧ t.Stuck ∧ ¬o.Botches s := by
  -- A session is stuck if it waits while its machine does not, so that no answer is taken.
  obtain ⟨request, state, machine⟩ := stuck
  cases o with
  | run bound => exact ⟨s, by simp [Operation.apply, run, state], ⟨request, state, machine⟩, id⟩
  | line text =>
      have refused := provideLine_refused (s := s) text (by simp [machine])
      refine ⟨s, by rw [Operation.apply, refused], ⟨request, state, machine⟩, ?_⟩
      rintro ⟨⟨_, _, _, awaiting⟩, -⟩
      simp [machine] at awaiting
  | char c =>
      have refused := provideChar_refused (s := s) c (by simp [machine])
      refine ⟨s, by rw [Operation.apply, refused], ⟨request, state, machine⟩, ?_⟩
      rintro ⟨⟨_, awaiting⟩, -⟩
      simp [machine] at awaiting
  | interrupt | hosted => exact ⟨_, rfl, ⟨request, state, machine⟩, id⟩
  | clear =>
      refine ⟨_, rfl, ?_, id⟩
      have waits : ¬(s.state = .stopped ∧ s.options.mode = .interpreted) := by simp [state]
      rw [clearInterrupt_of_not_stopped waits]
      exact ⟨request, state, machine⟩

/-- Some answer to an outstanding request could not be taken in. -/
def Botched (s : Session) : List Operation → Prop
  | [] => False
  | o :: os => o.Botches s ∨ ∃ t, o.apply s = some t ∧ t.Botched os

theorem after_stuck (stuck : s.Stuck) (os : List Operation) :
    ∃ t, s.after os = some t ∧ t.Stuck := by
  induction os generalizing s with
  | nil => exact ⟨s, rfl, stuck⟩
  | cons o os ih =>
      obtain ⟨t, applied, stuck', -⟩ := apply_stuck stuck o
      obtain ⟨u, rest, stuck''⟩ := ih stuck'
      exact ⟨u, by rw [after, applied]; exact rest, stuck''⟩

/-- Any operations on a session that interprets. -/
theorem after_coupled (interpreted : s.options.mode = .interpreted) (coupled : s.Coupled)
    (os : List Operation) :
    ∃ t, s.after os = some t ∧
      (s.Botched os ∧ t.Stuck ∨ ¬s.Botched os ∧ t.Coupled ∧ t.options = s.options) := by
  induction os generalizing s with
  | nil => exact ⟨s, rfl, .inr ⟨id, coupled, rfl⟩⟩
  | cons o os ih =>
      obtain ⟨t, applied, options, ⟨botches, stuck⟩ | ⟨clean, coupled'⟩⟩ :=
        apply_coupled interpreted coupled o
      · obtain ⟨u, rest, stuck'⟩ := after_stuck stuck os
        exact ⟨u, by rw [after, applied]; exact rest, .inl ⟨.inl botches, stuck'⟩⟩
      · obtain ⟨u, rest, ends⟩ := ih (options ▸ interpreted) coupled'
        -- A clean first operation leaves it to the others.
        have botched : s.Botched (o :: os) ↔ t.Botched os := by
          constructor
          · rintro (botches | ⟨t', applied', botched⟩)
            · exact absurd botches clean
            · cases applied.symm.trans applied'
              exact botched
          · exact fun botched => .inr ⟨t, applied, botched⟩
        refine ⟨u, by rw [after, applied]; exact rest, ?_⟩
        rw [botched, ← options]
        exact ends

/-- A session that was just loaded. -/
def opened (m : Machine) (options : SessionOptions) : Session :=
  { engine := { machine := m, fallback := options.fallback }, options }

theorem load_eq {image : Array Byte} {options : SessionOptions} {host : Host} :
    load image options host = (Machine.load image options.machine host).map (opened · options) := by
  cases read : Machine.load image options.machine host with
  | error f => simp [load, read, Bind.bind, Except.bind, Except.map]
  | ok m =>
      simp only [load, read, Bind.bind, Except.bind, Except.map]
      rfl

theorem load_opened {image : Array Byte} {options : SessionOptions} {host : Host} {m : Machine}
    (loads : Machine.load image options.machine host = .ok m) :
    load image options host = .ok (opened m options) := by
  rw [load_eq, loads]
  rfl

theorem opened_of_load {image : Array Byte} {options : SessionOptions} {host : Host}
    (loads : load image options host = .ok s) :
    ∃ m, Machine.load image options.machine host = .ok m ∧ s = opened m options := by
  rw [load_eq] at loads
  cases read : Machine.load image options.machine host with
  | error f =>
      rw [read] at loads
      cases loads
  | ok m =>
      rw [read] at loads
      cases loads
      exact ⟨m, rfl, rfl⟩

/-- A session begins with a machine that runs. -/
theorem begins_of_load {image : Array Byte} {options : SessionOptions} {host : Host}
    (loaded : load image options host = .ok s) :
    s.options = options ∧ s.state = .ready ∧ s.machine.state = .running := by
  obtain ⟨m, read, rfl⟩ := opened_of_load loaded
  obtain ⟨header, text, -, -, begun⟩ := Machine.load_eq_ok read
  refine ⟨rfl, rfl, ?_⟩
  rw [run_bind] at begun
  split at begun
  · exact running_start begun
  · cases begun

theorem coupled_of_load {image : Array Byte} {options : SessionOptions} {host : Host}
    (loaded : load image options host = .ok s) : s.Coupled := by
  obtain ⟨-, state, running⟩ := begins_of_load loaded
  rw [Coupled, state]
  exact running

/-! ## Outstanding requests -/

/-- Session and machine agree on the request that is outstanding, whatever was asked of the session,
exactly if no answer to a request failed when it was to be taken in.  After such a failure the
session is stuck: it waits for ever, and its machine refuses every answer.  Every other answer that
fails changes nothing. -/
theorem request_agreed_iff {image : Array Byte} {options : SessionOptions} {host : Host}
    (loaded : load image options host = .ok s) (interpreted : options.mode = .interpreted)
    (os : List Operation) :
    ∃ t, s.after os = some t ∧
      ((∀ request, t.state = .awaiting request ↔ t.machine.state = .awaiting request) ↔
        ¬s.Botched os) ∧
      (s.Botched os → ∃ request, t.state = .awaiting request ∧ t.machine.state = .running ∧
        (∀ bound, t.run bound = some (.awaiting request, t)) ∧
        (∀ text, t.provideLine text = (.error (.inputState .noLineRequested), t)) ∧
        ∀ c, t.provideChar c = (.error (.inputState .noCharRequested), t)) ∧
      (∀ text f, (t.provideLine text).1 = .error f → ¬(Operation.line text).Botches t →
        (t.provideLine text).2 = t) ∧
      ∀ c f, (t.provideChar c).1 = .error f → ¬(Operation.char c).Botches t →
        (t.provideChar c).2 = t := by
  have interpreted : s.options.mode = .interpreted := (begins_of_load loaded).1 ▸ interpreted
  -- In the end the session is stuck after such a failure, or it goes together with its machine.
  obtain ⟨t, ran, ends⟩ := after_coupled interpreted (coupled_of_load loaded) os
  refine ⟨t, ran, ?_, fun botched => ?_, fun text f failed clean => ?_, fun c f failed clean => ?_⟩
  · rcases ends with ⟨botched, request, state, machine⟩ | ⟨clean, coupled, -⟩
    · refine iff_of_false (fun agreed => ?_) (not_not.mpr botched)
      rw [(agreed request).mp state] at machine
      cases machine
    · exact iff_of_true (agreed_of_coupled coupled) clean
  · obtain ⟨-, request, state, machine⟩ := ends.resolve_right fun clean => clean.1 botched
    refine ⟨request, state, machine, fun bound => by simp only [run, state], fun text => ?_,
      fun c => ?_⟩
    · exact provideLine_refused text (by simp [machine])
    · exact provideChar_refused c (by simp [machine])
  · have refused := provideLine_refused (s := t) text fun _ _ _ state =>
      clean ⟨⟨_, _, _, state⟩, f, failed⟩
    rw [refused]
  · have refused := provideChar_refused (s := t) c fun _ state => clean ⟨⟨_, state⟩, f, failed⟩
    rw [refused]

/-- An image that reads a line into a buffer at its end, which says that it has room for nine
letters and has room for two. -/
def shortBuffer : Array Byte :=
  overwrite (overwrite (overwrite (Array.replicate 80 0) 0
    [4, 0, 0, 0, 0, 0, 0, 64, 0, 0, 0, 0, 0, 0, 255, 255]) 64 [0xe4, 0x5f, 76, 0, 0xba]) 76 [10]

/-- The session of a story that can be loaded. -/
def loaded (image : Array Byte) : Session := (load image {} {}).toOption.getD default

/-- Operations after which session and machine of this story disagree. -/
def tooLong : List Operation := [.run 0, .line "abcdef"]

theorem tooLong_states :
    ((loaded shortBuffer).after tooLong).map (fun t => (t.state, t.machine.state)) =
      some (.awaiting (.line 76 0 none), .running) := by decide +kernel

theorem request_agreed_iff_short :
    (loaded shortBuffer).Botched tooLong ∧ ¬(loaded shortBuffer).Botched [.run 0, .line "ab"] := by
  have loads : load shortBuffer {} {} = .ok (loaded shortBuffer) :=
    Except.eq_ok_getD _ (by decide +kernel)
  constructor
  · obtain ⟨t, ran, agreed, -⟩ := request_agreed_iff loads rfl tooLong
    have states := tooLong_states
    rw [ran] at states
    obtain ⟨state, machine⟩ := Prod.mk.inj (Option.some.inj states)
    refine Classical.not_not.mp fun clean => ?_
    rw [(agreed.mpr clean _).mp state] at machine
    cases machine
  · obtain ⟨t, ran, agreed, -⟩ := request_agreed_iff loads rfl [.run 0, .line "ab"]
    have states : ((loaded shortBuffer).after [.run 0, .line "ab"]).map
        (fun t => (t.state, t.machine.state)) = some (.running, .running) := by decide +kernel
    rw [ran] at states
    obtain ⟨state, machine⟩ := Prod.mk.inj (Option.some.inj states)
    refine agreed.mp fun request => ?_
    rw [state, machine]
    simp

/-- Not every session that interprets agrees with its machine on the request that is outstanding. -/
theorem exists_disagreement :
    ¬∀ image options host s os t, load image options host = .ok s → options.mode = .interpreted →
      s.after os = some t →
        ∀ request, t.state = .awaiting request ↔ t.machine.state = .awaiting request := by
  intro agree
  have loads : load shortBuffer {} {} = .ok (loaded shortBuffer) :=
    Except.eq_ok_getD _ (by decide +kernel)
  have states := tooLong_states
  obtain ⟨t, ran, same⟩ := Option.map_eq_some_iff.mp states
  obtain ⟨state, machine⟩ := Prod.mk.inj same
  rw [(agree _ _ _ _ _ _ loads rfl ran _).mp state] at machine
  cases machine

/-! ## Sessions that are over -/

/-- What a session tells that will not go on: it quit, it failed, or compiled code was stopped. -/
def over? (s : Session) : Option SessionOutcome :=
  match s.state with
  | .quit => some .quit
  | .faulted f => some (.faulted f)
  | .stopped => if s.options.mode = .compiled then some .stopped else none
  | _ => none

theorem over_cases {outcome : SessionOutcome} (ended : s.over? = some outcome) :
    s.state = .quit ∧ outcome = .quit ∨ (∃ f, s.state = .faulted f ∧ outcome = .faulted f) ∨
      s.state = .stopped ∧ s.options.mode = .compiled ∧ outcome = .stopped := by
  unfold over? at ended
  cases state : s.state <;> rw [state] at ended
  case quit => exact .inl ⟨rfl, (Option.some.inj ended).symm⟩
  case faulted f => exact .inr (.inl ⟨f, rfl, (Option.some.inj ended).symm⟩)
  case stopped =>
    by_cases compiled : s.options.mode = .compiled
    · rw [if_pos compiled] at ended
      exact .inr (.inr ⟨rfl, compiled, (Option.some.inj ended).symm⟩)
    · rw [if_neg compiled] at ended
      cases ended
  all_goals cases ended

theorem run_over {outcome : SessionOutcome} (ended : s.over? = some outcome) (bound : Nat) :
    s.run bound = some (outcome, s) := by
  rcases over_cases ended with ⟨state, rfl⟩ | ⟨f, state, rfl⟩ | ⟨state, -, rfl⟩ <;>
    simp only [run, state]

/-- A session that is over takes notice of nothing; only the stop request is raised and cleared. -/
theorem apply_over {outcome : SessionOutcome} (ended : s.over? = some outcome)
    (awake : s.machine.Awake)
    (o : Operation) : o.apply s = some (s.withHost (o.disturb s.machine.host)) := by
  cases o with
  | run bound => rw [Operation.apply, run_over ended]; rfl
  | line text =>
      rw [Operation.apply, provideLine_refused text fun _ _ _ => awake _]
      rfl
  | char c =>
      rw [Operation.apply, provideChar_refused c fun _ => awake _]
      rfl
  | interrupt | hosted => rfl
  | clear =>
      -- What is over was not merely stopped while interpreting, so clearing the request does not
      -- bring it back.
      have final : ¬(s.state = .stopped ∧ s.options.mode = .interpreted) := by
        rintro ⟨stopped, interpreted⟩
        rcases over_cases ended with ⟨state, -⟩ | ⟨f, state, -⟩ | ⟨-, compiled, -⟩
        · rw [stopped] at state
          cases state
        · rw [stopped] at state
          cases state
        · rw [interpreted] at compiled
          cases compiled
      rw [Operation.apply, clearInterrupt_of_not_stopped final]
      rfl

/-- What operations do to the host by themselves. -/
def disturbed (host : Host) (os : List Operation) : Host := os.foldl (fun h o => o.disturb h) host

theorem after_over {outcome : SessionOutcome} (ended : s.over? = some outcome)
    (awake : s.machine.Awake)
    (os : List Operation) : s.after os = some (s.withHost (disturbed s.machine.host os)) := by
  induction os generalizing s with
  | nil => rfl
  | cons o os ih =>
      rw [after, apply_over ended awake o]
      exact ih (s := s.withHost (o.disturb s.machine.host)) ended awake

/-! ## Compiled code -/

/-- The operation runs the main routine as compiled code. -/
def Operation.entersMain (s : Session) : Operation → Bool
  | .run _ =>
      s.options.mode = .compiled && (s.state = .ready || s.state = .running) && !s.isInterrupted
  | _ => false

/-- How often operations run the main routine as compiled code. -/
def mainEntries (s : Session) : List Operation → Nat
  | [] => 0
  | o :: os =>
      (o.entersMain s).toNat +
        match o.apply s with
        | some t => t.mainEntries os
        | none => 0

theorem runMain_over (compiled : s.options.mode = .compiled) (awake : s.machine.Awake) {bound : Nat}
    {outcome : SessionOutcome} (ran : s.runMain bound = some (outcome, t)) :
    t.over? = some outcome ∧ t.machine.Awake ∧ t.options = s.options := by
  have ends := Engine.Wakes.invoke bound s.machine.header.mainRoutine [] s.engine awake
  unfold runMain at ran
  cases invoked : Engine.invoke bound s.machine.header.mainRoutine [] s.engine with
  | ok w e =>
      rw [invoked] at ran
      -- A main routine that returns ends the story.
      have quits : ∃ m, Machine.quit e.machine = .ok () m ∧ m.state = .quit := by
        rw [run_quit]
        split
        · exact ⟨_, rfl, by assumption⟩
        · exact ⟨_, rfl, rfl⟩
      obtain ⟨m, quits, state⟩ := quits
      have same : { s with engine := e }.machine = e.machine := rfl
      simp only [act_eq, same, quits] at ran
      cases ran
      exact ⟨rfl, awake_of_quit state, rfl⟩
  | error h e =>
      rw [invoked] at ends ran
      cases h with
      | exhausted | miscounted => cases ran
      | quit =>
          cases ran
          exact ⟨rfl, (ends.resolve_left nofun).resolve_left nofun, rfl⟩
      | fault f =>
          have awake := (ends.resolve_left nofun).resolve_left nofun
          dsimp only at ran
          split at ran
          · cases ran
            exact ⟨by simp only [over?, compiled, if_true], awake, rfl⟩
          · cases ran
            exact ⟨rfl, awake, rfl⟩

theorem run_entering {bound : Nat} (enters : (Operation.run bound).entersMain s = true) :
    s.run bound = { s with state := .running }.runMain bound := by
  simp only [Operation.entersMain, Bool.and_eq_true, Bool.or_eq_true, decide_eq_true_eq,
    Bool.not_eq_true'] at enters
  obtain ⟨⟨compiled, ready | running⟩, clear⟩ := enters
  · simp only [run, ready, clear, compiled]
    rfl
  · simp only [run, running, clear, compiled]
    rfl

/-- A session that runs compiled code was not yet run, or is over, and its machine does not wait. -/
structure Compiled (s : Session) : Prop where
  mode : s.options.mode = .compiled
  state : s.state = .ready ∨ ∃ outcome, s.over? = some outcome
  awake : s.machine.Awake

theorem Compiled.of_host (h : s.Compiled) (host : Host) : (s.withHost host).Compiled :=
  ⟨h.mode, h.state, h.awake⟩

/-- One operation on a session that runs compiled code: after the main routine has been run, the
session is over. -/
theorem apply_compiled (h : s.Compiled) (o : Operation) (applied : o.apply s = some t) :
    t.Compiled ∧ (o.entersMain s = true → ∃ outcome, t.over? = some outcome) := by
  have compiled := h
  obtain ⟨mode, ready | ⟨outcome, ended⟩, awake⟩ := h
  · cases o with
    | run bound =>
        obtain ⟨⟨outcome, u⟩, ran, rfl⟩ := Option.map_eq_some_iff.mp applied
        -- A run that is interrupted before it begins never enters the main routine.
        by_cases interrupted : s.isInterrupted = true
        · have stops : s.run bound = some s.stop := by simp only [run, ready, interrupted, if_true]
          rw [stops] at ran
          cases ran
          refine ⟨⟨mode, .inr ⟨.stopped, by simp only [over?, mode, if_true]⟩, awake⟩,
            fun enters => ?_⟩
          simp [Operation.entersMain, interrupted] at enters
        · have enters : (Operation.run bound).entersMain s = true := by
            simp [Operation.entersMain, mode, ready, interrupted]
          rw [run_entering enters] at ran
          obtain ⟨ended, awake', options⟩ :=
            runMain_over (s := { s with state := .running }) mode awake ran
          exact ⟨⟨options ▸ mode, .inr ⟨outcome, ended⟩, awake'⟩, fun _ => ⟨outcome, ended⟩⟩
    | line text =>
        rw [Operation.apply, provideLine_refused text fun _ _ _ => awake _] at applied
        cases applied
        exact ⟨compiled, nofun⟩
    | char c =>
        rw [Operation.apply, provideChar_refused c fun _ => awake _] at applied
        cases applied
        exact ⟨compiled, nofun⟩
    | interrupt | hosted =>
        cases applied
        exact ⟨compiled.of_host _, nofun⟩
    | clear =>
        have goesOn : ¬(s.state = .stopped ∧ s.options.mode = .interpreted) := by simp [ready]
        rw [Operation.apply, clearInterrupt_of_not_stopped goesOn] at applied
        cases applied
        exact ⟨compiled.of_host _, nofun⟩
  -- What is over takes no operation any more.
  · rw [apply_over ended awake o] at applied
    cases applied
    exact ⟨⟨mode, .inr ⟨outcome, ended⟩, awake⟩, fun _ => ⟨outcome, ended⟩⟩

theorem not_entersMain_of_over {outcome : SessionOutcome} (ended : s.over? = some outcome)
    (o : Operation) : o.entersMain s = false := by
  cases o with
  | run bound => rcases over_cases ended with ⟨state, -⟩ | ⟨f, state, -⟩ | ⟨state, -⟩ <;>
      simp [Operation.entersMain, state]
  | _ => rfl

/-- A session that is over does not run its main routine any more. -/
theorem mainEntries_over {outcome : SessionOutcome} (ended : s.over? = some outcome)
    (awake : s.machine.Awake) (os : List Operation) : s.mainEntries os = 0 := by
  induction os generalizing s with
  | nil => rfl
  | cons o os ih =>
      rw [mainEntries, apply_over ended awake o, not_entersMain_of_over ended o]
      exact (Nat.zero_add _).trans (ih (s := s.withHost _) ended awake)

/-- Compiled code runs the main routine once at most. -/
theorem mainEntries_le_one (h : s.Compiled) (os : List Operation) : s.mainEntries os ≤ 1 := by
  induction os generalizing s with
  | nil => exact Nat.zero_le 1
  | cons o os ih =>
      rw [mainEntries]
      cases applied : o.apply s with
      | none => exact Bool.toNat_le _
      | some t =>
          obtain ⟨compiled, ended⟩ := apply_compiled h o applied
          cases enters : o.entersMain s with
          | false => simpa using ih compiled
          | true =>
              obtain ⟨outcome, ended⟩ := ended enters
              simp [mainEntries_over ended compiled.awake os]

theorem after_compiled (h : s.Compiled) {os : List Operation} (ran : s.after os = some t) :
    t.Compiled := by
  induction os generalizing s with
  | nil =>
      cases ran
      exact h
  | cons o os ih =>
      obtain ⟨u, applied, rest⟩ := Option.bind_eq_some_iff.mp ran
      exact ih (apply_compiled h o applied).1 rest

/-- While a stop is requested, running a session leaves its engine alone. -/
theorem run_interrupted (interrupted : s.isInterrupted = true) {bound : Nat}
    {outcome : SessionOutcome} (ran : s.run bound = some (outcome, t)) : t.engine = s.engine := by
  unfold run at ran
  split at ran
  case h_5 | h_6 =>
    rw [if_pos interrupted] at ran
    cases ran
    rfl
  all_goals
    cases ran
    rfl

theorem awake_of_over (coupled : s.Coupled) (interpreted : s.options.mode = .interpreted)
    {outcome : SessionOutcome} (ended : s.over? = some outcome) : s.machine.Awake := by
  unfold Coupled at coupled
  rcases over_cases ended with ⟨state, -⟩ | ⟨f, state, -⟩ | ⟨-, compiled, -⟩
  · rw [state] at coupled
    exact awake_of_quit coupled
  · rw [state] at coupled
    exact coupled
  · rw [interpreted] at compiled
    cases compiled

/-- A session that interprets, whatever was asked of it before: if it is over its machine does not
wait, and running it carries out instructions only while no stop is requested. -/
theorem after_interpreted (interpreted : s.options.mode = .interpreted) (coupled : s.Coupled)
    {os : List Operation} (ran : s.after os = some t) :
    (∀ outcome, t.over? = some outcome → t.machine.Awake) ∧
      ∀ bound, ∃ outcome u, t.run bound = some (outcome, u) ∧ Unhindered t.machine u.machine := by
  obtain ⟨t', ran', ends⟩ := after_coupled interpreted coupled os
  cases ran.symm.trans ran'
  rcases ends with ⟨-, request, state, -⟩ | ⟨-, coupled, options⟩
  · constructor
    · intro outcome ended
      rw [over?, state] at ended
      cases ended
    · exact fun bound => ⟨.awaiting request, t, by simp only [run, state], .start⟩
  · have interpreted : t.options.mode = .interpreted := options ▸ interpreted
    refine ⟨fun outcome ended => awake_of_over coupled interpreted ended, fun bound => ?_⟩
    obtain ⟨outcome, u, ran, -, -, unhindered⟩ := run_coupled interpreted coupled bound
    exact ⟨outcome, u, ran, unhindered⟩

/-- A session that is over, because the story quit, failed or was stopped in compiled code, is over
for ever: whatever is asked of it, it stays as it is, but for the stop request and what is done to
its host from outside, and tells the same.  Compiled code runs the main routine once at most.  A
session that interprets carries out instructions only while no stop is requested. -/
theorem over_for_ever {image : Array Byte} {options : SessionOptions} {host : Host}
    (loaded : load image options host = .ok s) {os : List Operation} (ran : s.after os = some t) :
    (∀ outcome, t.over? = some outcome → ∀ later,
      t.after later = some (t.withHost (disturbed t.machine.host later)) ∧
        ∀ bound, (t.withHost (disturbed t.machine.host later)).run bound =
          some (outcome, t.withHost (disturbed t.machine.host later))) ∧
      (options.mode = .compiled → ∀ all, s.mainEntries all ≤ 1) ∧
      (options.mode = .interpreted → ∀ bound, ∃ outcome u, t.run bound = some (outcome, u) ∧
        Unhindered t.machine u.machine ∧ (t.isInterrupted = true → u.engine = t.engine)) := by
  obtain ⟨same, ready, running⟩ := begins_of_load loaded
  have compiled (mode : options.mode = .compiled) : s.Compiled :=
    ⟨same ▸ mode, .inl ready, awake_of_running running⟩
  have interpreted (mode : options.mode = .interpreted) :=
    after_interpreted (same ▸ mode) (coupled_of_load loaded) ran
  refine ⟨fun outcome ended later => ?_, fun mode => mainEntries_le_one (compiled mode),
    fun mode bound => ?_⟩
  -- A session that is over does not wait for input.
  · have awake : t.machine.Awake := by
      cases mode : options.mode with
      | compiled => exact (after_compiled (compiled mode) ran).awake
      | interpreted => exact (interpreted mode).1 outcome ended
    exact ⟨after_over ended awake later, run_over (s := t.withHost _) ended⟩
  · obtain ⟨outcome, u, ran, unhindered⟩ := (interpreted mode).2 bound
    exact ⟨outcome, u, ran, unhindered, fun interrupted => run_interrupted interrupted ran⟩

/-- Operations after which this story is over. -/
def shortEnough : List Operation := [.run 0, .line "ab", .run 0]

theorem over_for_ever_short :
    ∃ t, (loaded shortBuffer).after shortEnough = some t ∧ t.state = .quit ∧
      t.after [.interrupt, .char 'a', .run 7] =
        some (t.withHost { t.machine.host with interrupted := true }) := by
  have loads : load shortBuffer {} {} = .ok (loaded shortBuffer) :=
    Except.eq_ok_getD _ (by decide +kernel)
  have states : ((loaded shortBuffer).after shortEnough).map (fun t => t.state) = some .quit := by
    decide +kernel
  obtain ⟨t, ran, state⟩ := Option.map_eq_some_iff.mp states
  have ended : t.over? = some .quit := by simp only [over?, state]
  exact ⟨t, ran, state, ((over_for_ever loads ran).1 .quit ended _).1⟩

end Session

end ZMachine
