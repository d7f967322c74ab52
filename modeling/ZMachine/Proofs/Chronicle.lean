/-
  What observers are told.

  An observer that keeps its own list of active routines has nothing to go by
  but the events: it adds a routine when it is told that one was entered, and
  takes the newest away when it is told that it was left.  The machine changes
  its frames in many places, and sometimes gives up half way; whatever it does,
  the list of such an observer agrees with the frames afterwards, unless the
  story began anew.
-/
import ZMachine.Proofs.Calls
import ZMachine.Proofs.Coherence
import ZMachine.Proofs.WordsBelow

namespace ZMachine

/-! ## Observers -/

/-- Address and return address of every active routine, the newest first. -/
def CallStack.trace (k : CallStack) : List (Nat × Nat) :=
  k.frames.map fun f => (f.address, f.returnAddress)

namespace Event

/-- What an observer makes of its list of routines on an event.  A routine can be left only if it is
the newest of them. -/
def follow (calls : List (Nat × Nat)) : Event → Option (List (Nat × Nat))
  | entered a r => some ((a, r) :: calls)
  | exited a r =>
      match calls with
      | [] => none
      | call :: rest => if call = (a, r) then some rest else none
  | stepping _ | stepped .. | quit => some calls

/-- What it makes of its list on events one after the other. -/
def replay (calls : List (Nat × Nat)) (es : List Event) : Option (List (Nat × Nat)) :=
  es.foldlM follow calls

theorem replay_append (calls : List (Nat × Nat)) (es fs : List Event) :
    replay calls (es ++ fs) = (replay calls es).bind fun calls => replay calls fs :=
  List.foldlM_append

/-- Events of frames and of the end of the story, which stand between those of a step. -/
def Inner : Event → Prop
  | entered .. | exited .. | quit => True
  | stepping _ | stepped .. => False

/-- Where the step is made of which an event tells beforehand. -/
def begun : Event → Option Nat
  | stepping pc => some pc
  | stepped .. | entered .. | exited .. | quit => none

theorem filterMap_begun_inner {es : List Event} (inner : ∀ e ∈ es, e.Inner) :
    es.filterMap begun = [] := by
  rw [List.filterMap_eq_nil_iff]
  intro e mem
  cases e with
  | stepping pc => exact (inner _ mem).elim
  | stepped | entered | exited | quit => rfl

end Event

namespace EventLog

variable {l : EventLog}

/-- From `l` to `l'` all observers are told of these events, one after the other, and of no
others. -/
def Heard (l : EventLog) (es : List Event) (l' : EventLog) : Prop :=
  ∀ fs, l' = fs.foldl emit l ↔ fs = es

theorem observers_foldl_emit (l : EventLog) (es : List Event) :
    (es.foldl emit l).observers = l.observers := by
  induction es generalizing l with
  | nil => rfl
  | cons e es ih => exact ih (l.emit e)

theorem entries_emit (l : EventLog) (e : Event) :
    (l.emit e).entries.toList = l.entries.toList ++ l.observers.map fun id => (id, e) := by
  simp [emit]

theorem entries_foldl_emit (l : EventLog) (es : List Event) : (es.foldl emit l).entries.toList
    = l.entries.toList ++ es.flatMap fun e => l.observers.map fun id => (id, e) := by
  induction es generalizing l with
  | nil => simp
  | cons e es ih =>
      rw [List.foldl_cons, ih (l.emit e), entries_emit, List.flatMap_cons, List.append_assoc]
      rfl

/-- Entries of the same observers tell events apart. -/
theorem flatMap_entries_inj {observers : List UInt32} (observed : observers ≠ [])
    {es fs : List Event} (same : es.flatMap (fun e => observers.map fun id => (id, e))
      = fs.flatMap fun e => observers.map fun id => (id, e)) : es = fs := by
  obtain ⟨first, others, rfl⟩ := List.exists_cons_of_ne_nil observed
  induction es generalizing fs with
  | nil =>
      cases fs with
      | nil => rfl
      | cons f fs => simp at same
  | cons e es ih =>
      cases fs with
      | nil => simp at same
      | cons f fs =>
          rw [List.flatMap_cons, List.flatMap_cons] at same
          obtain ⟨told, rest⟩ := List.append_inj same (by simp)
          obtain rfl : e = f := congrArg Prod.snd (List.cons.inj told).1
          rw [ih rest]

/-- A log with an observer shows what was told. -/
theorem heard_foldl_emit (observed : l.observers ≠ []) (es : List Event) :
    l.Heard es (es.foldl emit l) := by
  intro fs
  refine ⟨fun same => ?_, fun same => same ▸ rfl⟩
  have entries := congrArg (fun l => l.entries.toList) same
  simp only [entries_foldl_emit] at entries
  exact (flatMap_entries_inj observed (List.append_cancel_left entries)).symm

end EventLog

theorem Opcode.others_of_readsInput {opcode : Opcode} (reads : opcode.readsInput = true) :
    opcode ≠ .quit ∧ opcode ≠ .throwFrame ∧ ¬opcode.isCall = true := by
  unfold Opcode.readsInput at reads
  split at reads
  case h_4 => cases reads
  all_goals exact ⟨nofun, nofun, nofun⟩

namespace Machine

variable {s t u : Machine} {α : Type}

/-! ## Telling -/

/-- How often the end of the story has been told: once if the story has ended. -/
def endings (s : Machine) : Nat := if s.state = .quit then 1 else 0

/-- From `s` to `t` the observers are told of `es`.  Whoever follows them comes from the frames of
`s` to those of `t`, and the end of the story is told if it comes. -/
structure Tells (es : List Event) (s t : Machine) : Prop where
  events : t.events = es.foldl EventLog.emit s.events
  frames : Event.replay s.stack.trace es = some t.stack.trace
  quits : es.count .quit + s.endings = t.endings

theorem Tells.trans {es fs : List Event} (h : Tells es s t) (h' : Tells fs t u) :
    Tells (es ++ fs) s u where
  events := by rw [h'.events, h.events, List.foldl_append]
  frames := by rw [Event.replay_append, h.frames]; exact h'.frames
  quits := by
    have := h.quits
    have := h'.quits
    rw [List.count_append]
    omega

/-- Nothing is told where the log, the frames and the state stay, but for what frames hold. -/
theorem Tells.still (events : t.events = s.events) (trace : t.stack.trace = s.stack.trace)
    (state : t.state = s.state) : Tells [] s t where
  events := events
  frames := congrArg some trace.symm
  quits := by rw [endings, endings, state, List.count_nil, Nat.zero_add]

/-- An event that changes neither frames nor state is told. -/
theorem Tells.single {e : Event} (events : t.events = s.events.emit e)
    (frames : Event.follow s.stack.trace e = some t.stack.trace) (other : e ≠ .quit)
    (state : t.state = s.state) : Tells [e] s t where
  events := events
  frames := by
    show (Event.follow s.stack.trace e).bind some = _
    rw [frames]
    rfl
  quits := by
    rw [endings, endings, state, List.count_singleton, if_neg (by simpa using other), Nat.zero_add]

instance : IsPreorder Machine (Tells []) where
  refl _ := .still rfl rfl rfl
  trans _ _ _ h h' := h.trans h'

instance : Bears (Tells []) where
  does raw _ _ h s := by
    have stays := stays_of_effects (h s)
    refine .still (events_of_effects (h s)) ?_ stays.state
    rw [CallStack.trace, stays.frames, CallStack.trace]
  writeLocal i w s := by
    change Tells [] s (endState (onStack (·.writeLocal i w) s))
    rw [run_onStack]
    cases h : s.stack.writeLocal i w with
    | error e => exact refl_of (Tells []) s
    | ok stack =>
        obtain ⟨f, fs, locals, frames, -, rfl⟩ := CallStack.writeLocal_ok h
        refine .still rfl ?_ rfl
        rw [CallStack.trace, CallStack.trace, frames]
        rfl

/-! ## Entering and leaving -/

/-- From `s` to `t` the observers are told of frames and of the end of the story, and of no
steps. -/
def Told (s t : Machine) : Prop := ∃ es, (∀ e ∈ es, e.Inner) ∧ Tells es s t

theorem told_still (h : Tells [] s t) : Told s t := ⟨[], by simp, h⟩

theorem told_single {e : Event} (h : Tells [e] s t) (inner : e.Inner) : Told s t :=
  ⟨[e], fun _ mem => List.mem_singleton.mp mem ▸ inner, h⟩

instance : IsPreorder Machine Told where
  refl s := told_still (refl_of (Tells []) s)
  trans s t u := by
    rintro ⟨es, inner, tells⟩ ⟨fs, inner', tells'⟩
    refine ⟨es ++ fs, fun e mem => ?_, tells.trans tells'⟩
    exact (List.mem_append.mp mem).elim (inner e) (inner' e)

instance : Bears Told where
  does raw _ _ h := (Bears.does (R := Tells []) raw h).mono fun _ _ => told_still
  writeLocal i w := (Bears.writeLocal (R := Tells []) i w).mono fun _ _ => told_still

theorem told_jumpTo (a : Nat) : Leads Told (jumpTo a) :=
  .modified fun _ => told_still (.still rfl rfl rfl)

theorem told_quit : Leads Told quit := by
  intro s
  rw [run_quit]
  by_cases ended : s.state = .quit
  · rw [if_pos ended]
    exact refl_of Told s
  · rw [if_neg ended]
    refine ⟨[.quit], by simp [Event.Inner], rfl, rfl, ?_⟩
    rw [endings, if_neg ended]
    rfl

/-- A frame was added, and the observers were told. -/
theorem told_entered {f : Frame} (frames : t.stack.frames = f :: s.stack.frames)
    (events : t.events = s.events.emit (.entered f.address f.returnAddress))
    (state : t.state = s.state) : Told s t := by
  refine told_single (.single events ?_ (by simp) state) trivial
  rw [CallStack.trace, CallStack.trace, frames]
  rfl

theorem told_callRoutine (a : Nat) (args : List Word) (store : Option Variable)
    (returnAddress : Nat) : Leads Told (callRoutine a args store returnAddress) := by
  intro s
  cases header : routineHeader s.memory s.header.version a with
  | error e =>
      rw [run_callRoutine_error header]
      exact refl_of Told s
  | ok p =>
      rw [run_callRoutine header]
      split
      · exact refl_of Told s
      · exact told_entered rfl rfl rfl

theorem told_callPacked (packed : Word) (args : List Word) (store : Option Variable)
    (returnAddress : Nat) : Leads Told (callPacked packed args store returnAddress) :=
  .ite _ (Bears.closed.storeResult store 0) (Leads.get.bind fun _ => told_callRoutine _ _ _ _)

theorem told_enterCompiled (a : Nat) (args : List Word) : Leads Told (enterCompiled a args) := by
  intro s
  cases header : routineHeader s.memory s.header.version a with
  | error e =>
      have refused : enterCompiled a args s = .error e s := by
        have asked : ask (fun m => routineHeader m s.header.version a) s = .error e s := by
          rw [run_ask, header]
          rfl
        simp only [enterCompiled, enterFrame, Functor.discard, Functor.mapConst, Function.comp,
          Bind.bind, EStateM.bind, EStateM.map, run_get, asked]
      rw [refused]
      exact refl_of Told s
  | ok p =>
      rw [run_enterCompiled header]
      split
      · exact refl_of Told s
      · exact told_entered rfl rfl rfl

/-- The newest frame was taken, and the observers were told. -/
theorem told_left {f : Frame} {fs : List Frame} (frames : s.stack.frames = f :: fs)
    (left : t.stack.frames = fs)
    (events : t.events = s.events.emit (.exited f.address f.returnAddress))
    (state : t.state = s.state) : Told s t := by
  refine told_single (.single events ?_ (by simp) state) trivial
  rw [CallStack.trace, CallStack.trace, frames, left]
  exact if_pos rfl

theorem leaveFrame_nil (frameless : s.stack.frames = []) : leaveFrame s = .error .noFrame s := by
  rw [run_leaveFrame, CallStack.popFrame, frameless]

theorem told_leaveCompiled (w : Word) : Leads Told (leaveCompiled w) := by
  intro s
  cases frames : s.stack.frames with
  | nil =>
      rw [leaveCompiled, run_bind, leaveFrame_nil frames]
      exact refl_of Told s
  | cons f fs =>
      rw [run_leaveCompiled frames]
      exact told_left frames rfl rfl rfl

/-- A return takes the newest frame; then the story ends, or the caller goes on with the value. -/
theorem run_returnFrom_cons {f : Frame} {fs : List Frame} (frames : s.stack.frames = f :: fs)
    (w : Word) :
    returnFrom w s = (if (decide (s.stack.depth ≤ 1) && s.nested == 0) = true then quit
      else do jumpTo f.returnAddress; storeResult f.store w : MachineM Unit) (s.left f fs w) := by
  simp only [returnFrom, Bind.bind, EStateM.bind, run_get, run_leaveFrame,
    CallStack.popFrame, frames]
  rfl

theorem told_returnFrom (w : Word) : Leads Told (returnFrom w) := by
  intro s
  cases frames : s.stack.frames with
  | nil =>
      have refused : returnFrom w s = .error .noFrame s := by
        simp only [returnFrom, Bind.bind, EStateM.bind, run_get, leaveFrame_nil frames]
      rw [refused]
      exact refl_of Told s
  | cons f fs =>
      have goesOn : Leads Told (if (decide (s.stack.depth ≤ 1) && s.nested == 0) = true then quit
          else do jumpTo f.returnAddress; storeResult f.store w : MachineM Unit) :=
        .ite _ told_quit ((told_jumpTo _).bind fun _ => Bears.closed.storeResult _ _)
      -- That the frame is left is told before the story ends or the caller stores the value.
      have first : Told s (s.left f fs w) := told_left frames rfl rfl rfl
      rw [run_returnFrom_cons frames]
      exact trans_of Told first (goesOn _)

theorem told_unwindTo (depth bound : Nat) : Leads Told (unwindTo depth bound) := by
  intro s
  induction bound generalizing s with
  | zero => exact refl_of Told s
  | succ bound ih =>
      by_cases deep : depth < s.stack.depth
      · cases frames : s.stack.frames with
        | nil =>
            rw [CallStack.depth, frames] at deep
            cases deep
        | cons f fs =>
            rw [run_unwindTo frames deep]
            refine trans_of Told ?_ (ih _)
            exact told_left frames rfl rfl rfl
      · rw [run_unwindTo_low (Nat.not_lt.mp deep)]
        exact refl_of Told s

theorem told_throwTo (w token : Word) : Leads Told (throwTo w token) := by
  have unwind (depth : Nat) : Leads Told (do unwindTo token.toNat depth; returnFrom w) :=
    (told_unwindTo _ _).bind fun _ => told_returnFrom w
  exact Leads.get.bind fun _ => .ite _ ((Leads.throw _).bind fun _ => unwind _) (unwind _)

theorem told_go (way : Way) : Leads Told (go way) := by
  cases way with
  | onward => exact .pure _
  | goto a => exact told_jumpTo a
  | leave w => exact told_returnFrom w

/-! ## Instructions -/

/-- As long as the story goes on, nothing is told, and it goes on. -/
def Wary (s t : Machine) : Prop := s.state ≠ .quit → Tells [] s t

theorem Tells.goesOn (h : Tells [] s t) (going : s.state ≠ .quit) : t.state ≠ .quit := by
  intro ended
  have quits := h.quits
  rw [endings, endings, if_neg going, if_pos ended] at quits
  cases quits

instance : IsPreorder Machine Wary where
  refl s _ := refl_of (Tells []) s
  trans _ _ _ h h' going := (h going).trans (h' ((h going).goesOn going))

instance : Bears Wary where
  does raw _ _ h := (Bears.does (R := Tells []) raw h).mono fun _ _ tells _ => tells
  writeLocal i w := (Bears.writeLocal (R := Tells []) i w).mono fun _ _ tells _ => tells

/-- Only a story that goes on waits for input: to wait would undo its end. -/
theorem wary_suspend (request : InputRequest) : Leads Wary (suspend request) := by
  intro s going
  rw [run_suspend]
  split
  · exact refl_of (Tells []) s
  · refine ⟨rfl, rfl, ?_⟩
    rw [endings, if_neg going]
    rfl

theorem told_wayOf {i : Instruction} (noRestart : i.opcode ≠ .restart) (going : s.state ≠ .quit) :
    Told s (endState (wayOf i s)) := by
  -- Instructions that read input may make the machine wait, and need that the story goes on; the
  -- others may end it.
  by_cases reads : i.opcode.readsInput = true
  · obtain ⟨noQuit, noThrow, noCall⟩ := Opcode.others_of_readsInput reads
    have wary : Leads Wary (wayOf i) :=
      Bears.wayOf (fun quit => absurd quit noQuit) (fun restart => absurd restart noRestart)
        (fun throws => absurd throws noThrow) (fun _ => wary_suspend)
        (fun call => absurd call noCall)
    exact told_still (wary s going)
  · have told : Leads Told (wayOf i) :=
      Bears.wayOf (fun _ => told_quit) (fun restart => absurd restart noRestart)
        (fun _ => told_throwTo)
        (fun input => absurd input reads) fun _ _ _ => told_callPacked _ _ _ _
    exact told s

theorem told_execute {i : Instruction} (noRestart : i.opcode ≠ .restart) (going : s.state ≠ .quit) :
    Told s (endState (execute i s)) := by
  rw [execute_eq]
  exact Leads.after (told_wayOf noRestart going) told_go

/-! ## Steps -/

theorem tells_fetched (s : Machine) (decoded : DecodeCache) (i : Instruction) :
    Tells [.stepping s.pc] s (s.fetched decoded i) := .single rfl rfl (by simp) rfl

theorem tells_stepped (s : Machine) (old : Nat) : Tells [.stepped old s.pc] s (s.stepped old) :=
  .single rfl rfl (by simp) rfl

/-- Once an instruction was read, what it does is told. -/
theorem told_fetched {decoded : DecodeCache} {i : Instruction} (noRestart : ¬s.Restarts)
    (running : s.state = .running)
    (found : s.code.decoded.decode s.memory s.pc = (.ok i, decoded)) :
    Told (s.fetched decoded i) (endState (execute i (s.fetched decoded i))) := by
  refine told_execute (not_restarts noRestart (nextInstruction?_eq found)) ?_
  show s.state ≠ .quit
  rw [running]
  nofun

/-- A step that succeeds is told before and after, with events of frames and of the end in
between. -/
theorem tells_step (noRestart : ¬s.Restarts) (ran : step s = .ok () t) :
    ∃ es, (∀ e ∈ es, e.Inner) ∧ Tells (.stepping s.pc :: (es ++ [.stepped s.pc t.pc])) s t := by
  obtain ⟨i, decoded, u, running, found, executed, rfl⟩ := step_ok ran
  have told := told_fetched noRestart running found
  rw [executed] at told
  obtain ⟨es, inner, tells⟩ := told
  exact ⟨es, inner, (tells_fetched s decoded i).trans (tells.trans (tells_stepped u s.pc))⟩

/-- A step that begins and fails is told before, and not after. -/
theorem tells_step_failed (noRestart : ¬s.Restarts) (running : s.state = .running) {f : Fault}
    (failed : step s = .error f t) :
    ∃ es, (∀ e ∈ es, e.Inner) ∧ Tells (.stepping s.pc :: es) s t := by
  rcases found : s.code.decoded.decode s.memory s.pc with ⟨r, decoded⟩
  cases r with
  | error e =>
      -- The step is told of before the instruction is read.
      rw [step_of_undecoded running found] at failed
      cases failed
      exact ⟨[], by simp, .single rfl rfl (by simp) rfl⟩
  | ok i =>
      have told := told_fetched noRestart running found
      rw [step_of_decoded running found] at failed
      cases executed : execute i (s.fetched decoded i) with
      | ok _ u =>
          rw [executed] at failed
          cases failed
      | error e u =>
          rw [executed] at failed told
          cases failed
          obtain ⟨es, inner, tells⟩ := told
          exact ⟨es, inner, (tells_fetched s decoded i).trans tells⟩

/-- A machine that does not run is left as it is. -/
theorem endState_step_idle (idle : s.state ≠ .running) : endState (step s) = s := by
  cases state : s.state with
  | running => exact absurd state idle
  | quit | awaiting => simp only [step, Bind.bind, EStateM.bind, run_get, state]; rfl

/-! ## Runs -/

/-- From `s` the machine gets to `t`, and makes steps at `us` on its way.  If none of them begins
the story anew, the observers are told how it got there, and how it got to each of the steps. -/
def Traverses (us : List Machine) (s t : Machine) : Prop :=
  (∀ u ∈ us, ¬u.Restarts) →
    (∃ es, es.filterMap Event.begun = us.map pc ∧ Tells es s t) ∧
      ∀ u ∈ us, u.state = .running ∧ ∃ es, Tells es s u

/-- No step is made. -/
theorem Traverses.nowhere (h : Told s t) : Traverses [] s t := by
  obtain ⟨es, inner, tells⟩ := h
  exact fun _ => ⟨⟨es, Event.filterMap_begun_inner inner, tells⟩, by simp⟩

theorem Traverses.trans {us vs : List Machine} (h : Traverses us s t) (h' : Traverses vs t u) :
    Traverses (us ++ vs) s u := by
  intro noRestart
  rw [List.forall_mem_append] at noRestart ⊢
  obtain ⟨⟨es, begun, tells⟩, passed⟩ := h noRestart.1
  obtain ⟨⟨fs, begun', tells'⟩, passed'⟩ := h' noRestart.2
  refine ⟨⟨es ++ fs, ?_, tells.trans tells'⟩, passed, fun v mem => ?_⟩
  · rw [List.filterMap_append, List.map_append, begun, begun']
  · obtain ⟨running, gs, before⟩ := passed' v mem
    exact ⟨running, es ++ gs, tells.trans before⟩

theorem traverses_step (running : s.state = .running) : Traverses [s] s (endState (step s)) := by
  intro noRestart
  have plain := noRestart s (.head _)
  refine ⟨?_, fun u mem => ?_⟩
  · cases ran : step s with
    | ok _ t =>
        obtain ⟨es, inner, tells⟩ := tells_step plain ran
        refine ⟨_, ?_, tells⟩
        show s.pc :: (es ++ [Event.stepped s.pc t.pc]).filterMap Event.begun = [s.pc]
        rw [List.filterMap_append, Event.filterMap_begun_inner inner]
        rfl
    | error f t =>
        obtain ⟨es, inner, tells⟩ := tells_step_failed plain running ran
        refine ⟨_, ?_, tells⟩
        show s.pc :: es.filterMap Event.begun = [s.pc]
        rw [Event.filterMap_begun_inner inner]
  · obtain rfl := List.mem_singleton.mp mem
    exact ⟨running, [], refl_of (Tells []) u⟩

theorem traverses_runToDepth (floor bound : Nat) (s : Machine) :
    Traverses (trail floor bound s) s (endState (runToDepth floor bound s)) := by
  -- By induction on the bound: the trail begins where the run takes a step, and ends
  -- where it stops.
  induction bound generalizing s with
  | zero => exact .nowhere (refl_of Told s)
  | succ bound ih =>
      by_cases proceeds : s.Proceeds floor
      · have first := traverses_step proceeds.2
        rw [trail, if_pos proceeds, runToDepth_step proceeds]
        cases ran : step s with
        | error f t =>
            rw [ran] at first
            exact first
        | ok _ t =>
            rw [ran] at first
            exact first.trans (ih t)
      · rw [trail, if_neg proceeds]
        rcases runToDepth_stops proceeds bound with stops | stops
        · rw [stops]
          exact .nowhere (refl_of Told s)
        · rw [stops]
          exact .nowhere (refl_of Told s)

/-- The machines from which an instruction is carried out while the routine at an address is run. -/
def routineTrail (bound a : Nat) (args : List Word) (s : Machine) : List Machine :=
  if a = 0 then []
  else match callRoutine a args none s.pc s with
    | .ok _ t => trail s.stack.depth bound t.deeper
    | .error .. => []

theorem traverses_runRoutine (bound a : Nat) (args : List Word) (s : Machine) :
    Traverses (s.routineTrail bound a args) s (endState (runRoutine bound a args s)) := by
  unfold routineTrail
  by_cases zero : a = 0
  · rw [if_pos zero, zero, runRoutine_zero]
    exact .nowhere (refl_of Told s)
  rw [if_neg zero]
  have entered := told_callRoutine a args none s.pc s
  cases called : callRoutine a args none s.pc s with
  | error f t =>
      rw [called] at entered
      rw [runRoutine_of_uncalled zero called]
      exact .nowhere entered
  | ok _ t =>
      rw [called] at entered
      -- Counting runs and going on elsewhere is not told.
      have quiet {u v : Machine} (events : v.events = u.events) (stack : v.stack = u.stack)
          (state : v.state = u.state) : Traverses [] u v :=
        .nowhere (told_still (.still events (by rw [stack]) state))
      have begins : Traverses [] s t.deeper := (Traverses.nowhere entered).trans (quiet rfl rfl rfl)
      have runs := begins.trans (traverses_runToDepth s.stack.depth bound t.deeper)
      rw [runRoutine_of_called zero called]
      obtain ⟨pc, nested, same⟩ := endState_surfaced s.pc (runToDepth s.stack.depth bound t.deeper)
      have whole := runs.trans (quiet (v := endState (surfaced s.pc _))
        (by rw [same]) (by rw [same]) (by rw [same]))
      rwa [List.nil_append, List.append_nil] at whole

end Machine

end ZMachine
