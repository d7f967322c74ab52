/-
  What an operation can do to the machine.

  Whatever an operation does is a sequence of effects: quiet changes that
  concern neither code nor image, writes that drop what was decoded from the
  bytes written, writes that do not, changes of control, and reloads.  Every
  later statement about runs, that something stays as it is or only shrinks,
  is checked on these effects alone.
-/
import Mathlib.Logic.Relation
import ZMachine.Machine.Run
import ZMachine.Proofs.Instructions

namespace ZMachine

/-! ## Effects on the machine -/

namespace CallStack

/-- Words that may take the place of those on the stack: whatever lies below the words of the
running routine is left alone. -/
def Spares (s : CallStack) (values : List Word) : Prop :=
  ∀ ws : List Word, ws.length ≤ s.base → ws <:+ s.values → ws <:+ values

theorem Spares.refl (s : CallStack) : s.Spares s.values := fun _ _ h => h

/-- The newest word belongs to the running routine. -/
theorem top_eq_ok {s : CallStack} {w : Word} {ws : List Word} (h : s.top = .ok (w, ws)) :
    s.values = w :: ws ∧ s.base ≤ ws.length := by
  unfold top at h
  split at h
  · cases h
  · rename_i values
    split at h
    · cases h
    · rename_i own
      cases h
      rw [size, values, List.length_cons] at own
      exact ⟨values, by omega⟩

/-- Under the newest word of the running routine lies all that it has to spare. -/
theorem spares_of_top {s : CallStack} {w : Word} {ws : List Word} (h : s.top = .ok (w, ws)) :
    s.Spares ws := by
  obtain ⟨values, own⟩ := top_eq_ok h
  intro below short under
  rw [values] at under
  rcases List.suffix_cons_iff.mp under with whole | under
  · rw [whole, List.length_cons] at short
    omega
  · exact under

end CallStack

/-- One effect of an operation.  `raw` permits writes that drop nothing of what was decoded, and
`control` permits changes of control, of which the observers are told. -/
inductive Effect (raw control : Bool) : Machine → Machine → Prop where
  /-- Words on the stack, streams, random numbers, events and the host. -/
  | quiet (s : Machine) (values : List Word) (streams : OutputStreams) (random : RandomSource)
      (events : EventLog) (host : Host) (calm : s.host.Calm → host.Calm)
      (spares : s.stack.Spares values) (told : events = s.events ∨ control = true) :
      Effect raw control s
        { s with stack := { s.stack with values }, streams, random, events, host }
  /-- A write on behalf of the story.  The story names the place by a word, give or take an
  index. -/
  | store (s : Machine) (a : Nat) (bs : List Byte) (fits : a + bs.length ≤ s.memory.size)
      (near : a + bs.length ≤ DecodeCache.lastAddress) :
      Effect raw control s
        { s with memory := s.memory.commit a bs, code := s.code.invalidate a bs.length }
  | raw (s : Machine) (memory : Memory) (permitted : raw = true)
      (size : memory.size = s.memory.size) : Effect raw control s { s with memory }
  /-- Frames, the program counter, and whether the machine can go on. -/
  | control (s : Machine) (frames : List Frame) (values : List Word) (pc nested : Nat)
      (lastReturn : Option Word) (state : RunState) (called : Ascending)
      (permitted : control = true) :
      Effect raw control s
        { s with
          stack := { s.stack with frames, values }, pc, nested, lastReturn, state
          code := { s.code with routines := { s.code.routines with called } } }
  /-- A new image, with nothing decoded from the old one. -/
  | reload (s : Machine) (memory : Memory) (permitted : control = true)
      (size : memory.size = s.memory.size) :
      Effect raw control s
        { s with
          memory
          code := {
            decoded := s.code.decoded.clear
            routines := (s.code.routines.invalidate 0 s.header.staticMemoryBase.toNat).2 }
          streams := {} }

/-- Any number of effects. -/
abbrev Effects (raw control : Bool) : Machine → Machine → Prop :=
  Relation.ReflTransGen (Effect raw control)

theorem Effect.mono {raw raw' control control' : Bool} (hraw : raw → raw')
    (hcontrol : control → control') {s s' : Machine} (h : Effect raw control s s') :
    Effect raw' control' s s' := by
  cases h with
  | quiet values streams random events host calm spares told =>
      exact .quiet s values streams random events host calm spares (told.imp_right hcontrol)
  | store a bs fits near => exact .store s a bs fits near
  | raw memory permitted size => exact .raw s memory (hraw permitted) size
  | control frames values pc nested lastReturn state called permitted =>
      exact .control s frames values pc nested lastReturn state called (hcontrol permitted)
  | reload memory permitted size => exact .reload s memory (hcontrol permitted) size

theorem Effects.mono {raw raw' control control' : Bool} (hraw : raw → raw')
    (hcontrol : control → control') {s s' : Machine} (h : Effects raw control s s') :
    Effects raw' control' s s' :=
  Relation.ReflTransGen.mono (fun _ _ => Effect.mono hraw hcontrol) _ _ h

namespace Machine

variable {raw control : Bool} {α : Type}

/-- An operation whose effects are permitted. -/
abbrev Does (raw control : Bool) (x : MachineM α) : Prop := Leads (Effects raw control) x

theorem does_modify {f : Machine → Machine} (h : ∀ s, Effect raw control s (f s)) :
    Does raw control (modify f) := .modified fun s => .single (h s)

theorem does_ask {ε : Type} [MonadLiftT (Except ε) (Except Fault)]
    (f : Memory → Except ε α) : Does raw control (ask f) := by
  refine Leads.get.bind fun s => ?_
  exact .lift _

theorem run_inMemory (x : MemoryM α) (s : Machine) :
    inMemory x s =
      match x s.memory with
      | .ok a m => .ok a { s with memory := m }
      | .error e m => .error e { s with memory := m } := by
  cases h : x s.memory <;> simp [inMemory, h]

/-- An action on the image is a write that drops nothing. -/
theorem does_inMemory {x : MemoryM α} (h : Leads Memory.SameSize x) :
    Does true control (inMemory x) := by
  intro s
  have size := h s.memory
  rw [run_inMemory]
  cases hx : x s.memory with
  | ok a m =>
      rw [hx] at size
      exact .single (.raw s m rfl size)
  | error e m =>
      rw [hx] at size
      exact .single (.raw s m rfl size)

theorem run_onStack (f : CallStack → Except Fault CallStack) (s : Machine) :
    onStack f s =
      match f s.stack with
      | .ok stack => .ok () { s with stack }
      | .error e => .error e s := by
  unfold onStack
  simp only [Bind.bind, EStateM.bind, run_get]
  cases f s.stack <;> rfl

/-- The stack changes only words of the running routine. -/
theorem does_onStack {f : CallStack → Except Fault CallStack}
    (h : ∀ stack stack', f stack = .ok stack' →
      ∃ values, stack' = { stack with values } ∧ stack.Spares values) :
    Does raw control (onStack f) := by
  intro s
  rw [run_onStack]
  cases hf : f s.stack with
  | error e => exact .refl
  | ok stack =>
      obtain ⟨values, rfl, spares⟩ := h _ _ hf
      exact .single (.quiet s values s.streams s.random s.events s.host id spares (.inl rfl))

theorem does_push (w : Word) : Does raw control (push w) := by
  refine does_onStack fun stack stack' h => ?_
  unfold CallStack.push at h
  split at h
  · cases h
  · cases h
    exact ⟨_, rfl, fun ws _ below => below.trans (List.suffix_cons w _)⟩

theorem run_pop (s : Machine) :
    pop s =
      match s.stack.pop with
      | .ok (w, stack) => .ok w { s with stack }
      | .error e => .error e s := by
  unfold pop
  simp only [Bind.bind, EStateM.bind, run_get]
  cases s.stack.pop <;> rfl

theorem does_pop : Does raw control pop := by
  intro s
  rw [run_pop]
  cases h : s.stack.pop with
  | error e => exact .refl
  | ok p =>
      unfold CallStack.pop at h
      cases htop : s.stack.top with
      | error e => rw [htop] at h; cases h
      | ok t =>
          rw [htop] at h
          cases h
          exact .single (.quiet s t.2 s.streams s.random s.events s.host id
            (CallStack.spares_of_top htop) (.inl rfl))

theorem does_replaceTop (w : Word) : Does raw control (onStack (·.replaceTop w)) := by
  refine does_onStack fun stack stack' h => ?_
  unfold CallStack.replaceTop at h
  cases htop : stack.top with
  | error e => rw [htop] at h; cases h
  | ok t =>
      rw [htop] at h
      cases h
      refine ⟨_, rfl, fun ws short below => ?_⟩
      exact (CallStack.spares_of_top htop ws short below).trans (List.suffix_cons w _)

theorem does_emit (e : Event) : Does raw true (emit e) :=
  does_modify fun s => .quiet s s.stack.values s.streams s.random (s.events.emit e) s.host
    id (.refl _) (.inr rfl)

/-! ## Memory and variables -/

/-- A write on behalf of the story. -/
theorem does_write (a : Nat) (bs : List Byte) (len : Nat) (hlen : bs.length = len)
    (nonempty : bs ≠ []) (near : a + len ≤ DecodeCache.lastAddress) :
    Does raw control (do inMemory (MemoryM.writeBytes a bs); touched a len) := by
  intro s
  subst hlen
  have isEmpty : bs.isEmpty = false := by simpa using nonempty
  simp only [Bind.bind, EStateM.bind, run_inMemory, MemoryM.writeBytes, isEmpty, Bool.false_eq_true,
    if_false]
  by_cases fits : s.memory.fits a bs.length
  · rw [if_pos fits]
    exact .single (.store s a bs (by simpa [Memory.fits] using fits) near)
  · rw [if_neg fits]
    exact .refl

/-- Operations on values leave control alone. -/
theorem OnValues.does {x : MachineM α} (h : OnValues raw x) : Does raw control x := by
  induction h with
  | pure a => exact .pure a
  | throw e => exact .throw e
  | bind _ _ ihx ihf => exact ihx.bind ihf
  | look _ _ ih => exact Leads.get.bind ih
  | argumentCount _ ih => exact Leads.get.bind fun _ => (Leads.lift _).bind fun _ => ih _
  | push w => exact does_push w
  | pop => exact does_pop
  | peek => exact Leads.get.bind fun _ => .lift _
  | replaceTop w => exact does_replaceTop w
  | inMemory permitted tame =>
      subst permitted
      exact does_inMemory tame.size
  | write a bs nonempty near => exact does_write a bs _ rfl nonempty near
  | host f calm =>
      exact fun s => .single (.quiet s s.stack.values s.streams s.random s.events (f s.host).2
        (calm s.host) (.refl _) (.inl rfl))
  | setStreams streams =>
      exact does_modify fun s => .quiet s s.stack.values streams s.random s.events s.host
        id (.refl _) (.inl rfl)
  | setRandom random =>
      exact does_modify fun s => .quiet s s.stack.values s.streams random s.events s.host
        id (.refl _) (.inl rfl)

/-- So does reading locals. -/
theorem closedReading_does : ClosedReading raw (Does raw control) where
  values h := h.does
  bind := Leads.bind
  readLocal _ := Leads.get.bind fun _ => .lift _

theorem does_operandValues (i : Instruction) : Does raw control (operandValues i) :=
  closedReading_does.operandValues i

/-- An operation on values writes untracked only if its opcode is one that does so. -/
theorem does_perform (opcode : Opcode) (args : List Word) :
    Does opcode.writesUntracked control (perform opcode args) := (OnValues.perform opcode args).does

/-- A local is written into its frame. -/
theorem does_writeLocal (i : Byte) (w : Word) : Does raw true (onStack (·.writeLocal i w)) := by
  intro s
  rw [run_onStack]
  cases h : s.stack.writeLocal i w with
  | error e => exact .refl
  | ok stack =>
      obtain ⟨frames, rfl⟩ : ∃ frames, stack = { s.stack with frames } := by
        simp only [CallStack.writeLocal, Bind.bind, Except.bind] at h
        repeat' split at h
        all_goals cases h
        exact ⟨_, rfl⟩
      exact .single (.control s frames s.stack.values s.pc s.nested s.lastReturn s.state
        s.code.routines.called rfl)

theorem closedWriting_does : ClosedWriting raw (Does raw true) where
  toClosedReading := closedReading_does
  writeLocal := does_writeLocal

/-! ## Control -/

/-- Frames, the program counter and the state are set. -/
theorem does_control {f : Machine → Machine}
    (h : ∀ s, ∃ frames values pc nested lastReturn state called, f s =
      { s with
        stack := { s.stack with frames, values }, pc, nested, lastReturn, state
        code := { s.code with routines := { s.code.routines with called } } }) :
    Does raw true (modify f) := by
  refine does_modify fun s => ?_
  obtain ⟨frames, values, pc, nested, lastReturn, state, called, h⟩ := h s
  rw [h]
  exact .control s frames values pc nested lastReturn state called rfl

theorem does_jumpTo (a : Nat) : Does raw true (jumpTo a) :=
  does_control fun s => ⟨s.stack.frames, s.stack.values, a, s.nested, s.lastReturn, s.state,
    s.code.routines.called, rfl⟩

theorem does_quit : Does raw true quit := by
  refine Leads.get.bind fun _ => .ite _ (.pure _) (Leads.bind ?_ fun _ => does_emit _)
  exact does_control fun s => ⟨s.stack.frames, s.stack.values, s.pc, s.nested, s.lastReturn, .quit,
    s.code.routines.called, rfl⟩

theorem does_setState (state : RunState) : Does raw true (modify fun s => { s with state }) :=
  does_control fun s => ⟨s.stack.frames, s.stack.values, s.pc, s.nested, s.lastReturn, state,
    s.code.routines.called, rfl⟩

theorem run_suspend (request : InputRequest) (s : Machine) :
    suspend request s =
      if 0 < s.nested then .error .inputUnavailable s
      else .ok () { s with state := .awaiting request } := by
  simp only [suspend, Bind.bind, EStateM.bind, run_get]
  split <;> rfl

theorem run_quit (s : Machine) :
    quit s =
      if s.state = .quit then .ok () s
      else .ok () { s with state := .quit, events := s.events.emit .quit } := by
  change (if s.state = .quit then _ else _ : MachineM Unit) s = _
  by_cases ended : s.state = .quit
  · rw [if_pos ended, if_pos ended]
    rfl
  · rw [if_neg ended, if_neg ended]
    rfl

theorem does_suspend (request : InputRequest) : Does raw true (suspend request) :=
  Leads.get.bind fun _ => .ite _ ((Leads.throw _).bind fun _ => does_setState _) (does_setState _)

theorem does_pushFrame (f : CallStack → Frame) :
    Does raw true (onStack fun stack => stack.pushFrame (f stack)) := by
  intro s
  rw [run_onStack]
  unfold CallStack.pushFrame
  by_cases deep : maxCallDepth ≤ s.stack.depth
  · rw [if_pos deep]
    exact .refl
  · rw [if_neg deep]
    exact .single (.control s (f s.stack :: s.stack.frames) s.stack.values s.pc s.nested
      s.lastReturn s.state s.code.routines.called rfl)

theorem does_enterFrame (a : Nat) (args : List Word) (store : Option Variable)
    (returnAddress : Nat) : Does raw true (enterFrame a args store returnAddress) := by
  refine Leads.get.bind fun _ => (does_ask _).bind fun p => ?_
  refine (does_pushFrame _).bind fun _ => Leads.bind ?_ fun _ => .pure _
  exact does_control fun s =>
    ⟨s.stack.frames, s.stack.values, s.pc, s.nested, s.lastReturn, s.state,
    (s.code.routines.recordCall a).2.called, rfl⟩

theorem does_callRoutine (a : Nat) (args : List Word) (store : Option Variable)
    (returnAddress : Nat) : Does raw true (callRoutine a args store returnAddress) :=
  (does_enterFrame _ _ _ _).bind fun _ => (does_jumpTo _).bind fun _ => does_emit _

theorem does_callPacked (packed : Word) (args : List Word) (store : Option Variable)
    (returnAddress : Nat) : Does raw true (callPacked packed args store returnAddress) := by
  refine .ite _ ?_ (Leads.get.bind fun _ => does_callRoutine _ _ _ _)
  cases store with
  | none => exact .pure _
  | some v => exact closedWriting_does.writeVariable v 0

theorem run_leaveFrame (s : Machine) :
    leaveFrame s =
      match s.stack.popFrame with
      | .ok (frame, stack) => .ok frame { s with stack }
      | .error e => .error e s := by
  unfold leaveFrame
  simp only [Bind.bind, EStateM.bind, run_get]
  cases s.stack.popFrame <;> rfl

theorem does_leaveFrame : Does raw true leaveFrame := by
  intro s
  rw [run_leaveFrame]
  unfold CallStack.popFrame
  cases s.stack.frames with
  | nil => exact .refl
  | cons f fs =>
      exact .single (.control s fs (s.stack.values.drop (s.stack.size - f.base)) s.pc s.nested
        s.lastReturn s.state s.code.routines.called rfl)

theorem does_setLastReturn (w : Word) :
    Does raw true (modify fun s => { s with lastReturn := some w }) :=
  does_control fun s => ⟨s.stack.frames, s.stack.values, s.pc, s.nested, some w, s.state,
    s.code.routines.called, rfl⟩

theorem does_returnFrom (w : Word) : Does raw true (returnFrom w) := by
  refine Leads.get.bind fun _ => does_leaveFrame.bind fun frame => ?_
  refine (does_setLastReturn w).bind fun _ => (does_emit _).bind fun _ => ?_
  refine .ite _ does_quit ((does_jumpTo _).bind fun _ => ?_)
  cases frame.store with
  | none => exact .pure _
  | some v => exact closedWriting_does.writeVariable v w

theorem does_enterCompiled (a : Nat) (args : List Word) : Does raw true (enterCompiled a args) :=
  Leads.get.bind fun _ => (Leads.discard (does_enterFrame _ _ _ _)).bind fun _ => does_emit _

theorem does_leaveCompiled (w : Word) : Does raw true (leaveCompiled w) :=
  does_leaveFrame.bind fun _ => (does_setLastReturn w).bind fun _ => does_emit _

theorem does_unwindTo (depth bound : Nat) : Does raw true (unwindTo depth bound) := by
  induction bound with
  | zero => exact .pure _
  | succ bound ih =>
      refine Leads.get.bind fun _ => .ite _ ?_ (.pure _)
      exact does_leaveFrame.bind fun _ => (does_emit _).bind fun _ => ih

theorem does_throwTo (w token : Word) : Does raw true (throwTo w token) := by
  have unwind (depth : Nat) : Does raw true (do unwindTo token.toNat depth; returnFrom w) :=
    (does_unwindTo _ _).bind fun _ => does_returnFrom _
  exact Leads.get.bind fun _ => .ite _ ((Leads.throw _).bind fun _ => unwind _) (unwind _)

theorem does_start : Does raw true start := by
  refine Leads.bind ?_ fun _ => Leads.get.bind fun _ => .ite _ (does_callRoutine _ _ _ _) ?_
  · exact does_control fun s => ⟨[], [], s.pc, 0, none, .running,
      (s.code.routines.recordCall s.header.mainRoutine).2.called, rfl⟩
  · exact (does_pushFrame _).bind fun _ => does_jumpTo _

theorem run_ask {ε : Type} [MonadLiftT (Except ε) (Except Fault)] (f : Memory → Except ε α)
    (s : Machine) :
    ask f s =
      match (liftM (f s.memory) : Except Fault α) with
      | .ok a => .ok a s
      | .error e => .error e s := by
  unfold ask
  simp only [Bind.bind, EStateM.bind, run_get]
  cases (liftM (f s.memory) : Except Fault α) <;> rfl

theorem size_reload {m m' : Memory} {bs : List Byte} (h : m.reload bs = .ok m') :
    m'.size = m.size := by
  unfold Memory.reload at h
  cases hcheck : m.check 0 bs.length with
  | error e => rw [hcheck] at h; cases h
  | ok _ =>
      rw [hcheck] at h
      cases h
      exact size_overwrite _ _ _

/-- Once the image is reloaded, nothing fails before the decoded instructions are dropped. -/
theorem does_restart : Does raw true restart := by
  intro s
  unfold restart
  rw [run_bind, run_ask]
  cases hkept : s.memory.readWord HeaderField.flags2 with
  | error e => exact .refl
  | ok kept =>
  have fits := (Memory.readWord_eq_ok.mp hkept).1
  change Effects raw true s (endState ((ask (·.reload s.pristine.toList) >>= _) s))
  rw [run_bind, run_ask]
  cases hreload : s.memory.reload s.pristine.toList with
  | error e => exact .refl
  | ok reloaded =>
  have size := size_reload hreload
  change Effects raw true s (endState ((ask (·.readWord HeaderField.flags2) >>= _)
    { s with memory := reloaded }))
  have hflags : reloaded.readWord HeaderField.flags2 = .ok (reloaded.wordAt HeaderField.flags2) :=
    Memory.readWord_eq_ok.mpr ⟨by omega, rfl⟩
  rw [run_bind, run_ask, hflags]
  change Effects raw true s (endState ((inMemory (MemoryM.writeWord HeaderField.flags2 _) >>= _)
    { s with memory := reloaded }))
  have room : HeaderField.flags2 + 2 ≤ reloaded.size := by omega
  rw [run_bind, run_inMemory, MemoryM.run_writeWord _ room]
  -- From here on the image counts by its size only.
  generalize hm : reloaded.commit HeaderField.flags2 _ = m
  have size : m.size = s.memory.size := by rw [← hm, Memory.size_commit, size]
  change Effects raw true s (endState ((inMemory (describeInterpreter _ _) >>= fun _ => start)
    { s with
      memory := m
      code := {
        decoded := s.code.decoded.clear
        routines := (s.code.routines.invalidate 0 s.header.staticMemoryBase.toNat).2 }
      streams := {} }))
  rw [run_bind, run_inMemory]
  have described := (tame_describeInterpreter s.header.version s.options).size m
  cases hd : describeInterpreter s.header.version s.options m with
  | error e m' =>
      rw [hd] at described
      exact .single (.reload s m' rfl (described.trans size))
  | ok _ m' =>
      rw [hd] at described
      exact (Relation.ReflTransGen.single (.reload s m' rfl (described.trans size))).trans
        (does_start _)

/-! ## Instructions -/

theorem does_go (way : Way) : Does raw true (go way) := by
  cases way with
  | onward => exact .pure _
  | goto a => exact does_jumpTo a
  | leave w => exact does_returnFrom w

/-- An instruction writes untracked only if its opcode is one that does so. -/
theorem does_execute (i : Instruction) : Does i.opcode.writesUntracked true (execute i) := by
  rw [execute_eq]
  refine Leads.bind ?_ does_go
  exact closedWriting_does.wayOf id (fun _ => does_quit) (fun _ => does_restart)
    (fun _ => Leads.get.bind fun _ => closedWriting_does.settle i _) (fun _ => does_throwTo)
    (fun _ => does_suspend) fun _ packed args => does_callPacked packed args _ _

end Machine

/-! ## What effects leave alone -/

theorem DecodeCache.kept_invalidate {c : DecodeCache} {a len x : Nat} {i : Instruction}
    (h : (c.invalidate a len).kept[x]? = some i) :
    c.kept[x]? = some i ∧ (min (a + len) DecodeCache.lastAddress ≤ x ∨ i.next ≤ a) := by
  simp only [DecodeCache.invalidate, Std.HashMap.getElem?_filter', Option.filter_eq_some_iff] at h
  simpa using h

namespace RoutineTable

/-- Dropping routines takes those at some addresses away and leaves the others. -/
theorem get?_invalidate (t : RoutineTable) (a len x : Nat) :
    ((t.invalidate a len).2.get? x = t.get? x ∨
      (t.invalidate a len).2.get? x = none ∧ x ∈ (t.invalidate a len).2.stale) := by
  simp only [invalidate, get?, List.find?_filter]
  generalize (List.takeWhile _ _).map Routine.address = dropped
  by_cases hx : x ∈ dropped
  · right
    refine ⟨?_, by simp [hx]⟩
    rw [List.find?_eq_none]
    rintro r - h
    have : r.address ∉ dropped ∧ r.address = x := by simpa using h
    exact this.1 (this.2 ▸ hx)
  · left
    congr 1
    funext r
    by_cases hr : r.address = x <;> simp [hr, hx]

theorem stale_invalidate (t : RoutineTable) (a len : Nat) {x : Nat} (h : x ∈ t.stale) :
    x ∈ (t.invalidate a len).2.stale := by
  simp [invalidate, h]

end RoutineTable

namespace Machine

/-- The story stays the same, and what is known of its code only shrinks: kept instructions and
known routines go, and routines that go are remembered as stale. -/
structure Sheds (s s' : Machine) : Prop where
  header : s'.header = s.header
  text : s'.text = s.text
  size : s'.memory.size = s.memory.size
  calm : s.host.Calm → s'.host.Calm
  version : s'.code.decoded.version = s.code.decoded.version
  floor : s'.code.decoded.floor = s.code.decoded.floor
  kept : ∀ (a : Nat) (i : Instruction), s'.code.decoded.kept[a]? = some i →
      s.code.decoded.kept[a]? = some i
  stale : ∀ a ∈ s.code.routines.stale, a ∈ s'.code.routines.stale
  routines : ∀ a, s'.code.routines.get? a = s.code.routines.get? a ∨
    s'.code.routines.get? a = none ∧ a ∈ s'.code.routines.stale
  pristine : s'.pristine = s.pristine

theorem Sheds.refl (s : Machine) : s.Sheds s where
  header := rfl
  text := rfl
  size := rfl
  calm h := h
  version := rfl
  floor := rfl
  kept _ _ h := h
  stale _ h := h
  routines _ := .inl rfl
  pristine := rfl

theorem Sheds.trans {s t u : Machine} (h : s.Sheds t) (h' : t.Sheds u) : s.Sheds u where
  header := h'.header.trans h.header
  text := h'.text.trans h.text
  size := h'.size.trans h.size
  calm c := h'.calm (h.calm c)
  version := h'.version.trans h.version
  floor := h'.floor.trans h.floor
  kept a i k := h.kept a i (h'.kept a i k)
  stale a k := h'.stale a (h.stale a k)
  routines a := by
    rcases h'.routines a with same | gone
    · rcases h.routines a with same' | ⟨gone, stale⟩
      · exact .inl (same.trans same')
      · exact .inr ⟨same.trans gone, h'.stale a stale⟩
    · exact .inr gone
  pristine := h'.pristine.trans h.pristine

/-- Control, the stack, streams and events are nothing that counts here. -/
theorem Sheds.of_same {s s' : Machine} (header : s'.header = s.header) (text : s'.text = s.text)
    (memory : s'.memory = s.memory) (code : s'.code = s.code) (host : s'.host = s.host)
    (pristine : s'.pristine = s.pristine) : s.Sheds s' where
  header := header
  text := text
  size := by rw [memory]
  calm := by rw [host]; exact id
  version := by rw [code]
  floor := by rw [code]
  kept := by rw [code]; exact fun _ _ h => h
  stale := by rw [code]; exact fun _ h => h
  routines := by rw [code]; exact fun _ => .inl rfl
  pristine := pristine

theorem sheds_of_effect {raw control : Bool} {s s' : Machine} (h : Effect raw control s s') :
    s.Sheds s' := by
  cases h with
  | quiet values streams random events host calm spares =>
      exact ⟨rfl, rfl, rfl, calm, rfl, rfl, fun _ _ h => h, fun _ h => h, fun _ => .inl rfl, rfl⟩
  | raw memory permitted size =>
      exact ⟨rfl, rfl, size, id, rfl, rfl, fun _ _ h => h, fun _ h => h, fun _ => .inl rfl, rfl⟩
  | control frames values pc nested lastReturn state called permitted =>
      exact ⟨rfl, rfl, rfl, id, rfl, rfl, fun _ _ h => h, fun _ h => h, fun _ => .inl rfl, rfl⟩
  | store a bs fits near =>
      refine ⟨rfl, rfl, Memory.size_commit _ _ _, id, ?_, ?_, fun x i h => ?_,
        fun x h => RoutineTable.stale_invalidate _ _ _ h,
        fun x => RoutineTable.get?_invalidate _ _ _ x, rfl⟩
      -- The version and the floor stay whether or not the bytes reach into code.
      · simp only [CodeIndex.invalidate]
        split <;> rfl
      · simp only [CodeIndex.invalidate]
        split <;> rfl
      · simp only [CodeIndex.invalidate] at h
        split at h
        · exact (DecodeCache.kept_invalidate h).1
        · exact h
  | reload memory permitted size =>
      refine ⟨rfl, rfl, size, id, rfl, rfl, fun x i h => ?_,
        fun x h => RoutineTable.stale_invalidate _ _ _ h,
        fun x => RoutineTable.get?_invalidate _ _ _ x, rfl⟩
      simp [DecodeCache.clear] at h

theorem sheds_of_effects {raw control : Bool} {s s' : Machine} (h : Effects raw control s s') :
    s.Sheds s' := by
  induction h with
  | refl => exact .refl s
  | tail _ last ih => exact ih.trans (sheds_of_effect last)

/-- Frames, the program counter and what goes with them stay, and so do the words below those of the
running routine. -/
structure Stays (s s' : Machine) : Prop where
  frames : s'.stack.frames = s.stack.frames
  spares : s.stack.Spares s'.stack.values
  pc : s'.pc = s.pc
  nested : s'.nested = s.nested
  lastReturn : s'.lastReturn = s.lastReturn
  state : s'.state = s.state

/-- Without a change of control the observers are told nothing. -/
theorem events_of_effects {raw : Bool} {s s' : Machine} (h : Effects raw false s s') :
    s'.events = s.events := by
  induction h with
  | refl => rfl
  | tail _ last ih =>
      cases last with
      | raw | store => exact ih
      | quiet _ _ _ _ _ _ _ told => exact (told.resolve_right Bool.false_ne_true).trans ih
      | control _ _ _ _ _ _ _ permitted => cases permitted
      | reload _ permitted => cases permitted

theorem stays_of_effects {raw : Bool} {s s' : Machine} (h : Effects raw false s s') :
    s.Stays s' := by
  induction h with
  | refl => exact ⟨rfl, .refl _, rfl, rfl, rfl, rfl⟩
  | @tail t u _ last ih =>
      obtain ⟨frames, spares, pc, nested, lastReturn, state⟩ := ih
      cases last with
      | raw | store => exact ⟨frames, spares, pc, nested, lastReturn, state⟩
      | quiet values streams random events host calm spares' =>
          have base : t.stack.base = s.stack.base := by rw [CallStack.base, frames, CallStack.base]
          refine ⟨frames, fun ws short below => ?_, pc, nested, lastReturn, state⟩
          exact spares' ws (base ▸ short) (spares ws short below)
      | control _ _ _ _ _ _ _ permitted => cases permitted
      | reload _ permitted => cases permitted

/-! ## Relations that bear effects -/

/-- A relation that holds across everything that leaves control alone, and across writing a
local. -/
class Bears (R : Machine → Machine → Prop) : Prop extends IsPreorder Machine R where
  does (raw : Bool) {α : Type} {x : MachineM α} (h : Does raw false x) : Leads R x
  writeLocal (i : Byte) (w : Word) : Leads R (writeVariable (.localVar i) w)

namespace Bears

variable {R : Machine → Machine → Prop} [Bears R]

theorem values {x : MachineM α} (h : OnValues true x) : Leads R x := does true h.does

theorem closed : ClosedWriting true (Leads R) where
  values := values
  bind := Leads.bind
  readLocal i := does true (closedReading_does.readLocal i)
  writeLocal := writeLocal

/-- An instruction up to the way that control takes, where something is to be said only of those
that do more than work on values. -/
theorem wayOf {i : Instruction} (quit : i.opcode = .quit → Leads R quit)
    (restart : i.opcode = .restart → Leads R restart)
    (throwTo : i.opcode = .throwFrame → ∀ w token, Leads R (throwTo w token))
    (suspend : i.opcode.readsInput = true → ∀ request, Leads R (suspend request))
    (callPacked : i.opcode.isCall = true →
      ∀ packed args, Leads R (callPacked packed args i.store i.next)) :
    Leads R (wayOf i) :=
  closed.wayOf (fun _ => rfl) quit restart
    (fun _ => Leads.get.bind fun _ => closed.settle i _) throwTo suspend callPacked

end Bears

end Machine

end ZMachine
