/-
  Frames over frames.

  All active routines share one stack.  A routine stands on the frames of its
  callers and on the words that they left; whatever it does, and whatever the
  routines do that it calls, these stay as they are until it returns.  Only
  unwinding by a token and beginning anew reach below the running routine.
-/
import ZMachine.Proofs.Effects
import ZMachine.Proofs.Runs

namespace ZMachine
namespace Machine

/-! ## Entering -/

/-- The machine in the frame of a routine that was called. -/
def entered (s : Machine) (f : Frame) : Machine :=
  { s with
    stack := { s.stack with frames := f :: s.stack.frames }
    code := s.code.recordCall f.address }

theorem run_enterFrame {s : Machine} {a : Nat} {defaults : List Word} {entry : Nat}
    (header : routineHeader s.memory s.header.version a = .ok (defaults, entry)) (args : List Word)
    (store : Option Variable) (returnAddress : Nat) :
    enterFrame a args store returnAddress s =
      if maxCallDepth ≤ s.stack.depth then .error (.callDepthExceeded maxCallDepth) s
      else .ok entry (s.entered (.enter a returnAddress store defaults args s.stack.size)) := by
  simp only [enterFrame, Bind.bind, EStateM.bind, run_get]
  have asked : ask (fun m => routineHeader m s.header.version a) s = .ok (defaults, entry) s := by
    change (liftM (routineHeader s.memory s.header.version a) : MachineM _) s = _
    rw [header]
    rfl
  simp only [asked, run_onStack, CallStack.pushFrame]
  by_cases deep : maxCallDepth ≤ s.stack.depth
  · simp only [if_pos deep]
  · simp only [if_neg deep]
    rfl

theorem run_callRoutine {s : Machine} {a : Nat} {defaults : List Word} {entry : Nat}
    (header : routineHeader s.memory s.header.version a = .ok (defaults, entry)) (args : List Word)
    (store : Option Variable) (returnAddress : Nat) :
    callRoutine a args store returnAddress s =
      if maxCallDepth ≤ s.stack.depth then .error (.callDepthExceeded maxCallDepth) s
      else .ok () { s.entered (.enter a returnAddress store defaults args s.stack.size) with
        pc := entry
        events := s.events.emit (.entered a returnAddress) } := by
  simp only [callRoutine, Bind.bind, EStateM.bind, run_enterFrame header]
  by_cases deep : maxCallDepth ≤ s.stack.depth
  · simp only [if_pos deep]
  · simp only [if_neg deep]
    rfl

/-- A routine without a header cannot be called. -/
theorem run_callRoutine_error {s : Machine} {a : Nat} {e : Fault}
    (header : routineHeader s.memory s.header.version a = .error e) (args : List Word)
    (store : Option Variable) (returnAddress : Nat) :
    callRoutine a args store returnAddress s = .error e s := by
  have asked : ask (fun m => routineHeader m s.header.version a) s = .error e s := by
    change (liftM (routineHeader s.memory s.header.version a) : MachineM _) s = _
    rw [header]
    rfl
  simp only [callRoutine, enterFrame, Bind.bind, EStateM.bind, run_get, asked]

/-- A call that succeeds has added a frame. -/
theorem callRoutine_ok {a : Nat} {args : List Word} {store : Option Variable} {returnAddress : Nat}
    {s t : Machine} (h : callRoutine a args store returnAddress s = .ok () t) :
    ∃ defaults, t.nested = s.nested ∧ t.stack.values = s.stack.values ∧ t.stack.frames =
      .enter a returnAddress store defaults args s.stack.size :: s.stack.frames := by
  cases header : routineHeader s.memory s.header.version a with
  | ok p =>
      rw [run_callRoutine header] at h
      split at h
      · cases h
      · cases h
        exact ⟨p.1, rfl, rfl, rfl⟩
  | error g =>
      rw [run_callRoutine_error header] at h
      cases h

theorem state_of_callRoutine {a : Nat} {args : List Word} {store : Option Variable}
    {returnAddress : Nat} {s t : Machine}
    (h : callRoutine a args store returnAddress s = .ok () t) : t.state = s.state := by
  cases header : routineHeader s.memory s.header.version a with
  | ok p =>
      rw [run_callRoutine header] at h
      split at h
      · cases h
      · cases h
        rfl
  | error g =>
      rw [run_callRoutine_error header] at h
      cases h

/-! ## Leaving -/

/-- The machine after the newest frame `f` was left with a value. -/
def left (s : Machine) (f : Frame) (fs : List Frame) (w : Word) : Machine :=
  { s with
    stack := { s.stack with values := s.stack.values.drop (s.stack.size - f.base), frames := fs }
    lastReturn := some w
    events := s.events.emit (.exited f.address f.returnAddress) }

/-- A routine returns to its caller.  The last frame can be left so only if it is run from
outside. -/
theorem run_returnFrom {s : Machine} {f : Frame} {fs : List Frame}
    (frames : s.stack.frames = f :: fs) (inner : fs ≠ [] ∨ 0 < s.nested) (w : Word) :
    returnFrom w s = storeResult f.store w { s.left f fs w with pc := f.returnAddress } := by
  have notLast : (decide (s.stack.depth ≤ 1) && s.nested == 0) = false := by
    rw [CallStack.depth, frames, List.length_cons, Bool.and_eq_false_iff]
    rcases inner with callers | outside
    · have := List.length_pos_iff.mpr callers
      exact .inl (decide_eq_false (by omega))
    · exact .inr (beq_eq_false_iff_ne.mpr (by omega))
  simp only [returnFrom, Bind.bind, EStateM.bind, run_get, run_leaveFrame,
    CallStack.popFrame, frames, notLast, Bool.false_eq_true, if_false]
  rfl

end Machine

/-! ## What a frame stands on -/

namespace CallStack

/-- The frame `f`, whose locals may have changed, stands on the frames `fs` and the words `ws`; the
frames above it, if any, leave these words alone as well. -/
structure Rests (f : Frame) (fs : List Frame) (ws : List Word) (s : CallStack) : Prop where
  base : f.base = ws.length
  frames : ∃ upper locals, s.frames = upper ++ { f with locals } :: fs ∧
    ∀ g ∈ upper, ws.length ≤ g.base
  words : ws <:+ s.values

namespace Rests

variable {f : Frame} {fs : List Frame} {ws : List Word} {s : CallStack}

theorem length_lt_depth (h : Rests f fs ws s) : fs.length < s.depth := by
  obtain ⟨upper, locals, frames, -⟩ := h.frames
  rw [depth, frames, List.length_append, List.length_cons]
  omega

/-- The words lie below those of the running routine. -/
theorem length_le_base (h : Rests f fs ws s) : ws.length ≤ s.base := by
  obtain ⟨upper, locals, frames, high⟩ := h.frames
  cases upper with
  | nil => simp [CallStack.base, frames, h.base]
  | cons g upper => simpa [CallStack.base, frames] using high g (by simp)

/-- Changes of the words of the running routine are of no account. -/
theorem of_spares (h : Rests f fs ws s) {t : CallStack} (frames : t.frames = s.frames)
    (spares : s.Spares t.values) : Rests f fs ws t :=
  ⟨h.base, frames ▸ h.frames, spares ws h.length_le_base h.words⟩

/-- A local of the running routine may be written. -/
theorem writeLocal (h : Rests f fs ws s) {i : Byte} {w : Word} {t : CallStack}
    (written : s.writeLocal i w = .ok t) : Rests f fs ws t := by
  obtain ⟨upper, locals, frames, high⟩ := h.frames
  have change (g : Frame) (gs : List Frame) (top : s.frames = g :: gs) :
      t = { s with frames := { g with locals := g.locals.set i.toNat w } :: gs } := by
    simp only [CallStack.writeLocal, current, top, Frame.setLocal, Bind.bind,
      Except.bind] at written
    split at written
    · cases written
    · rename_i hset
      split at hset
      · cases hset
        cases written
        rfl
      · cases hset
  -- The frame whose locals are written is the one that rests, or lies above it.
  cases upper with
  | nil =>
      rw [change _ _ frames]
      exact ⟨h.base, ⟨[], locals.set i.toNat w, rfl, by simp⟩, h.words⟩
  | cons g upper =>
      rw [change _ _ frames]
      refine ⟨h.base, ⟨{ g with locals := g.locals.set i.toNat w } :: upper, locals, rfl, ?_⟩,
        h.words⟩
      intro k hk
      rcases List.mem_cons.mp hk with rfl | hk
      · exact high g (by simp)
      · exact high k (by simp [hk])

/-- Another frame may be added. -/
theorem push (h : Rests f fs ws s) {g : Frame} (base : g.base = s.size) :
    Rests f fs ws { s with frames := g :: s.frames } := by
  obtain ⟨upper, locals, frames, high⟩ := h.frames
  refine ⟨h.base, ⟨g :: upper, locals, by rw [frames]; rfl, fun k hk => ?_⟩, h.words⟩
  rcases List.mem_cons.mp hk with rfl | hk
  · rw [base]
    exact h.words.length_le
  · exact high k hk

/-- The newest frame is the one that stands on `fs` and `ws`, or it may be taken. -/
theorem pop (h : Rests f fs ws s) :
    (∃ locals, s.frames = { f with locals } :: fs ∧ s.values.drop (s.size - f.base) = ws) ∨
      ∃ g gs, s.frames = g :: gs ∧ fs.length < gs.length ∧
        Rests f fs ws { s with values := s.values.drop (s.size - g.base), frames := gs } := by
  obtain ⟨upper, locals, frames, high⟩ := h.frames
  cases upper with
  | nil =>
      refine .inl ⟨locals, frames, ?_⟩
      rw [h.base, CallStack.size]
      exact (List.suffix_iff_eq_drop.mp h.words).symm
  | cons g upper =>
      refine .inr ⟨g, upper ++ { f with locals } :: fs, frames, by simp; omega, h.base,
        ⟨upper, locals, rfl, fun k hk => high k (by simp [hk])⟩, ?_⟩
      have above := high g (by simp)
      refine List.suffix_of_suffix_length_le h.words (List.drop_suffix _ _) ?_
      have := h.words.length_le
      rw [List.length_drop, CallStack.size]
      omega

end Rests

end CallStack

/-! ## Operations that reach no further down -/

namespace Machine

variable {α : Type}

/-- As many routines are run from outside as before.  The machine goes on, unless the
story is over or, if `waits` permits it, the machine waits for input; it waits only if no
routine is run from outside. -/
structure Sustains (waits : Bool) (s t : Machine) : Prop where
  nested : t.nested = s.nested
  state : t.state = s.state ∨ t.state = .quit ∨
    waits = true ∧ s.nested = 0 ∧ ∃ request, t.state = .awaiting request

/-- Besides, every frame stands on what it stood on. -/
structure Respects (waits : Bool) (s t : Machine) : Prop extends Sustains waits s t where
  rests : ∀ f fs ws, s.stack.Rests f fs ws → t.stack.Rests f fs ws

theorem Sustains.trans {waits : Bool} {s t u : Machine} (h : Sustains waits s t)
    (h' : Sustains waits t u) : Sustains waits s u := by
  refine ⟨h'.nested.trans h.nested, ?_⟩
  rcases h'.state with same | quit | ⟨permitted, zero, awaiting⟩
  · rw [same]
    exact h.state
  · exact .inr (.inl quit)
  · exact .inr (.inr ⟨permitted, h.nested ▸ zero, awaiting⟩)

instance (waits : Bool) : IsPreorder Machine (Sustains waits) where
  refl _ := ⟨rfl, .inl rfl⟩
  trans _ _ _ := Sustains.trans

instance (waits : Bool) : IsPreorder Machine (Respects waits) where
  refl _ := ⟨⟨rfl, .inl rfl⟩, fun _ _ _ h => h⟩
  trans _ _ _ h h' :=
    ⟨h.toSustains.trans h'.toSustains, fun f fs ws r => h'.rests f fs ws (h.rests f fs ws r)⟩

variable {waits : Bool}

theorem respects_of_does (raw : Bool) {x : MachineM α} (h : Does raw false x) :
    Leads (Respects waits) x := by
  intro s
  have stays := stays_of_effects (h s)
  exact ⟨⟨stays.nested, .inl stays.state⟩, fun f fs ws r => r.of_spares stays.frames stays.spares⟩

theorem respects_modify {f : Machine → Machine} (stack : ∀ s, (f s).stack = s.stack)
    (nested : ∀ s, (f s).nested = s.nested)
    (state : ∀ s, (f s).state = s.state ∨ (f s).state = .quit) :
    Leads (Respects waits) (modify f : MachineM PUnit) :=
  .modified fun s => ⟨⟨nested s, (state s).imp id .inl⟩, fun _ _ _ rests => stack s ▸ rests⟩

theorem respects_jumpTo (a : Nat) : Leads (Respects waits) (jumpTo a) :=
  respects_modify (fun _ => rfl) (fun _ => rfl) (fun _ => .inl rfl)

instance : Bears (Respects waits) where
  does raw _ _ h := respects_of_does raw h
  writeLocal i w s := by
    change Respects waits s (endState (onStack (·.writeLocal i w) s))
    rw [run_onStack]
    cases h : s.stack.writeLocal i w with
    | error e => exact refl_of (Respects waits) s
    | ok stack => exact ⟨⟨rfl, .inl rfl⟩, fun f fs ws r => r.writeLocal h⟩

theorem respects_pushFrame {f : CallStack → Frame} (base : ∀ stack, (f stack).base = stack.size) :
    Leads (Respects waits) (onStack fun stack => stack.pushFrame (f stack)) := by
  intro s
  rw [run_onStack]
  unfold CallStack.pushFrame
  split
  · rename_i stack pushed
    split at pushed
    · cases pushed
    · cases pushed
      exact ⟨⟨rfl, .inl rfl⟩, fun g gs ws r => r.push (base s.stack)⟩
  · exact refl_of (Respects waits) s

theorem respects_emit (e : Event) : Leads (Respects waits) (emit e) :=
  respects_modify (fun _ => rfl) (fun _ => rfl) (fun _ => .inl rfl)

theorem respects_callRoutine (a : Nat) (args : List Word) (store : Option Variable)
    (returnAddress : Nat) : Leads (Respects waits) (callRoutine a args store returnAddress) := by
  have frame : Leads (Respects waits) (enterFrame a args store returnAddress) := by
    refine Leads.get.bind fun _ => (respects_of_does false (does_ask _)).bind fun p => ?_
    refine (respects_pushFrame fun _ => rfl).bind fun _ => Leads.bind ?_ fun _ => .pure _
    exact respects_modify (fun _ => rfl) (fun _ => rfl) (fun _ => .inl rfl)
  exact frame.bind fun entry => (respects_jumpTo entry).bind fun _ => respects_emit _

theorem respects_callPacked (packed : Word) (args : List Word) (store : Option Variable)
    (returnAddress : Nat) : Leads (Respects waits) (callPacked packed args store returnAddress) :=
  .ite _ (Bears.closed.storeResult store 0) (Leads.get.bind fun _ => respects_callRoutine _ _ _ _)

theorem respects_quit : Leads (Respects waits) quit := by
  refine Leads.get.bind fun _ => .ite _ (.pure _) (Leads.bind ?_ fun _ => ?_)
  · exact respects_modify (fun _ => rfl) (fun _ => rfl) (fun _ => .inr rfl)
  · exact respects_emit _

theorem respects_suspend (request : InputRequest) : Leads (Respects true) (suspend request) := by
  intro s
  rw [run_suspend]
  split
  · exact refl_of (Respects true) s
  · rename_i alone
    exact ⟨⟨rfl, .inr (.inr ⟨rfl, by omega, request, rfl⟩)⟩, fun _ _ _ rests => rests⟩

/-- Only unwinding and beginning anew reach below the running routine before control goes on. -/
theorem respects_wayOf {i : Instruction} (noRestart : i.opcode ≠ .restart)
    (noThrow : i.opcode ≠ .throwFrame) : Leads (Respects i.opcode.readsInput) (wayOf i) := by
  refine Bears.wayOf (fun _ => respects_quit) (fun opcode => absurd opcode noRestart)
    (fun opcode => absurd opcode noThrow) (fun reads request => ?_) fun _ _ _ =>
      respects_callPacked _ _ _ _
  rw [reads]
  exact respects_suspend request

/-! ## Returning -/

/-- The machine has a result where the caller wants it, and else the frames and words that
the caller had. -/
def Delivered (store : Option Variable) (w : Word) (frames : List Frame) (values : List Word)
    (s : Machine) : Prop :=
  match store with
  | none => s.stack.frames = frames ∧ s.stack.values = values
  | some .stack => s.stack.frames = frames ∧ s.stack.values = w :: values
  | some (.localVar i) =>
      (∃ f fs, frames = f :: fs ∧ i.toNat < f.localCount ∧
        s.stack.frames = { f with locals := f.locals.set i.toNat w } :: fs) ∧
      s.stack.values = values
  | some (.globalVar i) =>
      s.stack.frames = frames ∧ s.stack.values = values ∧
      s.memory.readWord (s.globalAddress i) = .ok w

/-- A word is stored wherever it fits. -/
theorem run_storeWord (a : Nat) (w : Word) (s : Machine) :
    storeWord a w s =
      if a + 2 ≤ s.memory.size then
        .ok () { s with memory := s.memory.commit a (Word.bytes w), code := s.code.invalidate a 2 }
      else .error (.image (.outOfRange a 2 s.memory.size)) s := by
  rw [storeWord, run_bind, run_inMemory]
  by_cases fits : a + 2 ≤ s.memory.size
  · rw [if_pos fits, MemoryM.run_writeWord w fits]
    rfl
  · have outside : s.memory.fits a (Word.bytes w).length = false := by
      simpa [Memory.fits, Word.bytes] using fits
    have refused : MemoryM.writeWord a w s.memory
        = .error (.image (.outOfRange a 2 s.memory.size)) s.memory := by
      unfold MemoryM.writeWord MemoryM.writeBytes
      rw [outside]
      rfl
    rw [if_neg fits, refused]

theorem storeWord_ok {a : Nat} {w : Word} {s t : Machine} (h : storeWord a w s = .ok () t) :
    t.memory.readWord a = .ok w ∧ t.header = s.header ∧ t.stack = s.stack ∧ t.pc = s.pc ∧
      t.lastReturn = s.lastReturn := by
  rw [run_storeWord] at h
  by_cases fits : a + 2 ≤ s.memory.size
  · rw [if_pos fits] at h
    cases h
    refine ⟨Memory.readWord_eq_ok.mpr ⟨?_, s.memory.wordAt_commit w fits⟩, rfl, rfl, rfl, rfl⟩
    exact (s.memory.size_commit _ _).symm ▸ fits
  · rw [if_neg fits] at h
    cases h

/-- Storing a result changes no more than its place. -/
theorem storeResult_ok {store : Option Variable} {w : Word} {s t : Machine}
    (h : storeResult store w s = .ok () t) :
    t.Delivered store w s.stack.frames s.stack.values ∧ t.pc = s.pc ∧
      t.lastReturn = s.lastReturn ∧ t.stack.depth = s.stack.depth := by
  cases store with
  | none =>
      cases h
      exact ⟨⟨rfl, rfl⟩, rfl, rfl, rfl⟩
  | some v =>
      -- One way to fail for each place: the stack is full, the image ends before the global, or the
      -- frame lacks the local.
      cases v with
      | stack =>
          change onStack (·.push w) s = .ok () t at h
          rw [run_onStack, CallStack.push] at h
          by_cases full : s.stack.capacity ≤ s.stack.size
          · rw [if_pos full] at h
            cases h
          · rw [if_neg full] at h
            cases h
            exact ⟨⟨rfl, rfl⟩, rfl, rfl, rfl⟩
      | globalVar i =>
          change storeWord (s.globalAddress i) w s = .ok () t at h
          obtain ⟨read, header, stack, pc, last⟩ := storeWord_ok h
          have address : t.globalAddress i = s.globalAddress i := by
            rw [globalAddress, header, globalAddress]
          refine ⟨⟨by rw [stack], by rw [stack], ?_⟩, pc, last, by rw [stack]⟩
          rw [address]
          exact read
      | localVar i =>
          change onStack (·.writeLocal i w) s = .ok () t at h
          rw [run_onStack, CallStack.writeLocal, CallStack.current] at h
          cases frames : s.stack.frames with
          | nil =>
              rw [frames] at h
              cases h
          | cons f fs =>
              simp only [frames, Frame.setLocal, Bind.bind, Except.bind, List.tail_cons] at h
              by_cases present : i.toNat < f.localCount
              · simp only [if_pos present] at h
                cases h
                refine ⟨⟨⟨f, fs, rfl, present, rfl⟩, rfl⟩, rfl, rfl, ?_⟩
                simp [CallStack.depth, frames]
              · simp only [if_neg present] at h
                cases h

/-- The routine with the frame `f` has returned a value to its caller, who had the frames `fs` and
the words `ws`. -/
structure Returned (f : Frame) (fs : List Frame) (ws : List Word) (s : Machine) : Prop where
  pc : s.pc = f.returnAddress
  result : ∃ w, s.lastReturn = some w ∧ s.Delivered f.store w fs ws
  depth : s.stack.depth = fs.length

variable {f : Frame} {fs : List Frame} {ws : List Word} {s t : Machine}

/-- A return leaves what a frame stands on alone, unless it is this frame that is left. -/
theorem returnFrom_rests (rests : s.stack.Rests f fs ws) (inner : fs ≠ [] ∨ 0 < s.nested) {w : Word}
    (ran : returnFrom w s = .ok () t) : t.stack.Rests f fs ws ∨ t.Returned f fs ws := by
  -- What is left is the frame itself or one above it.
  rcases rests.pop with ⟨locals, frames, values⟩ | ⟨g, gs, frames, higher, rests'⟩
  · rw [run_returnFrom frames inner] at ran
    obtain ⟨delivered, pc, last, depth⟩ := storeResult_ok ran
    rw [left, values] at delivered
    exact .inr ⟨pc, ⟨w, last, delivered⟩, depth⟩
  · have callers : gs ≠ [] := List.ne_nil_of_length_pos (by omega)
    rw [run_returnFrom frames (.inl callers)] at ran
    have kept : Respects false _ t := (Bears.closed.storeResult g.store w).of_ok ran
    exact .inl (kept.rests f fs ws rests')

/-! ## Unwinding -/

theorem run_unwindTo {depth : Nat} {g : Frame} {gs : List Frame} (frames : s.stack.frames = g :: gs)
    (deep : depth < s.stack.depth) (bound : Nat) :
    unwindTo depth (bound + 1) s = unwindTo depth bound { s with
      stack := { s.stack with values := s.stack.values.drop (s.stack.size - g.base), frames := gs }
      events := s.events.emit (.exited g.address g.returnAddress) } := by
  simp only [unwindTo, Bind.bind, EStateM.bind, run_get,
    deep, if_true, run_leaveFrame, CallStack.popFrame, frames]
  rfl

theorem run_unwindTo_low {depth : Nat} (low : s.stack.depth ≤ depth) (bound : Nat) :
    unwindTo depth bound s = .ok () s := by
  cases bound with
  | zero => rfl
  | succ bound =>
      simp only [unwindTo, Bind.bind, EStateM.bind, run_get, Nat.not_lt.mpr low, if_false]
      rfl

/-- As many frames are left as were asked for. -/
theorem unwindTo_ok {depth bound : Nat} (ran : unwindTo depth bound s = .ok () t)
    (enough : s.stack.depth ≤ depth + bound) :
    t.stack.depth = min depth s.stack.depth ∧ t.nested = s.nested := by
  -- One frame is left at a time, and the bound covers those that lie above the depth.
  induction bound generalizing s with
  | zero =>
      cases ran
      exact ⟨by omega, rfl⟩
  | succ bound ih =>
      by_cases deep : depth < s.stack.depth
      · cases frames : s.stack.frames with
        | nil =>
            rw [CallStack.depth, frames] at deep
            cases deep
        | cons g gs =>
            have length : s.stack.depth = gs.length + 1 := by
              rw [CallStack.depth, frames, List.length_cons]
            rw [run_unwindTo frames deep] at ran
            have fewer : gs.length ≤ depth + bound := by omega
            obtain ⟨shrunk, nested⟩ := ih ran fewer
            refine ⟨?_, nested⟩
            rw [shrunk, length]
            change min depth gs.length = _
            omega
      · rw [run_unwindTo_low (Nat.not_lt.mp deep)] at ran
        cases ran
        exact ⟨by omega, rfl⟩

/-- Unwinding to a frame leaves alone what the frames below it stand on. -/
theorem unwindTo_rests {depth bound : Nat} (rests : s.stack.Rests f fs ws)
    (above : fs.length < depth)
    (ran : unwindTo depth bound s = .ok () t) : t.stack.Rests f fs ws := by
  -- A frame that is unwound lies above the one that is kept, so it is not what `f` stands on.
  induction bound generalizing s with
  | zero =>
      cases ran
      exact rests
  | succ bound ih =>
      by_cases deep : depth < s.stack.depth
      · rcases rests.pop with ⟨locals, frames, -⟩ | ⟨g, gs, frames, -, rests'⟩
        · rw [CallStack.depth, frames, List.length_cons] at deep
          omega
        · rw [run_unwindTo frames deep] at ran
          exact ih rests' ran
      · rw [run_unwindTo_low (Nat.not_lt.mp deep)] at ran
        cases ran
        exact rests

/-- Throwing to a token unwinds to the frame that it names, and returns from there. -/
theorem throwTo_ok {w token : Word} (ran : throwTo w token s = .ok () t) :
    ∃ u, unwindTo token.toNat s.stack.depth s = .ok () u ∧ returnFrom w u = .ok () t ∧
      0 < token.toNat ∧ token.toNat ≤ s.stack.depth := by
  simp only [throwTo, Bind.bind, EStateM.bind, run_get] at ran
  split at ran
  · cases ran
  · rename_i valid
    rw [not_or] at valid
    change (unwindTo token.toNat s.stack.depth >>= fun _ => returnFrom w) s = .ok () t at ran
    rw [run_bind] at ran
    split at ran
    · rename_i unwound
      refine ⟨_, unwound, ran, ?_, by omega⟩
      have := valid.1
      exact Nat.pos_of_ne_zero fun zero => this (UInt16.toNat_inj.mp zero)
    · cases ran

/-! ## Instructions -/

theorem go_rests (rests : s.stack.Rests f fs ws) (inner : fs ≠ [] ∨ 0 < s.nested) {way : Way}
    (ran : go way s = .ok () t) : t.stack.Rests f fs ws ∨ t.Returned f fs ws := by
  cases way with
  | onward =>
      cases ran
      exact .inl rests
  | goto a =>
      cases ran
      exact .inl rests
  | leave w => exact returnFrom_rests rests inner ran

/-- The operands of an instruction that unwinds: the value and the token. -/
theorem execute_throw {i : Instruction} (opcode : i.opcode = .throwFrame)
    (ran : execute i s = .ok () t) :
    ∃ w token rest u, operandValues i s = .ok (w :: token :: rest) u ∧
      throwTo w token u = .ok () t := by
  simp only [execute, opcode, run_bind] at ran
  cases read : operandValues i s with
  | error e u =>
      rw [read] at ran
      cases ran
  | ok args u =>
      simp only [read] at ran
      match args, ran with
      | [], ran => cases ran
      | [_], ran => cases ran
      | w :: token :: rest, ran => exact ⟨w, token, rest, u, rfl, ran⟩

/-- The token that the next instruction unwinds to, if it does. -/
def throwToken? (s : Machine) : Option Word :=
  match s.code.decoded.decode s.memory s.pc with
  | (.ok i, decoded) =>
      if i.opcode = .throwFrame then
        match operandValues i (s.fetched decoded i) with
        | .ok (_ :: token :: _) _ => some token
        | _ => none
      else none
  | _ => none

/-- A step leaves what a frame stands on alone, unless it leaves this frame.  An instruction that
unwinds has to name this frame or one above it. -/
theorem step_rests (rests : s.stack.Rests f fs ws) (inner : fs ≠ [] ∨ 0 < s.nested)
    (noRestart : ∀ i, s.nextInstruction? = some i → i.opcode ≠ .restart)
    (above : ∀ token, s.throwToken? = some token → fs.length < token.toNat)
    (ran : step s = .ok () t) : t.stack.Rests f fs ws ∨ t.Returned f fs ws := by
  obtain ⟨i, decoded, u, -, hd, executed, rfl⟩ := step_ok ran
  have rests : (s.fetched decoded i).stack.Rests f fs ws := rests
  have inner : fs ≠ [] ∨ 0 < (s.fetched decoded i).nested := inner
  -- Telling the observers at the end is of no account.
  have told (h : u.stack.Rests f fs ws ∨ u.Returned f fs ws) :
      (u.stepped s.pc).stack.Rests f fs ws ∨ (u.stepped s.pc).Returned f fs ws :=
    h.imp id fun returned => ⟨returned.pc, returned.result, returned.depth⟩
  apply told
  -- Unwinding may take many frames at once; all else takes one at most.
  by_cases throws : i.opcode = .throwFrame
  · obtain ⟨w, token, rest, v, read, thrown⟩ := execute_throw throws executed
    have token? : s.throwToken? = some token := by simp [throwToken?, hd, throws, read]
    have kept : Respects false _ v := (Bears.closed.operandValues i).of_ok read
    obtain ⟨x, unwound, returned, -, low⟩ := throwTo_ok thrown
    refine returnFrom_rests (unwindTo_rests (kept.rests f fs ws rests) (above token token?) unwound)
      ?_ returned
    rw [(unwindTo_ok unwound (by omega)).2, kept.nested]
    exact inner
  · rw [execute_eq, run_bind] at executed
    split at executed
    · rename_i way v done
      have kept := (respects_wayOf (noRestart i (nextInstruction?_eq hd)) throws).of_ok done
      exact go_rests (kept.rests f fs ws rests) (kept.nested ▸ inner) executed
    · cases executed

/-! ## Calls -/

/-- An instruction that neither unwinds nor begins anew, an answer to a request for input, or
whatever the host does in between. -/
inductive Moves : Machine → Machine → Prop where
  | step {s t : Machine}
      (plain : ∀ i, s.nextInstruction? = some i → i.opcode ≠ .throwFrame ∧ i.opcode ≠ .restart)
      (ran : Machine.step s = .ok () t) : Moves s t
  | line {s t : Machine} (line : String) (ran : provideLine line s = .ok () t) : Moves s t
  | char {s t : Machine} (c : Char) (ran : provideChar c s = .ok () t) : Moves s t
  | hosted (s : Machine) (host : Host) : Moves s { s with host }

/-- A run of moves along which more than `depth` frames are there. -/
inductive Dwells (depth : Nat) (s : Machine) : Machine → Prop where
  | start (deep : depth < s.stack.depth) : Dwells depth s s
  | move {t u : Machine} (before : Dwells depth s t) (moves : Moves t u)
      (deep : depth < u.stack.depth) : Dwells depth s u

theorem provideLine_ok {line : String} (ran : provideLine line s = .ok () t) :
    ∃ textBuffer parseBuffer store, (finishLine textBuffer parseBuffer line >>= storeResult store)
      { s with state := .running } = .ok () t := by
  simp only [provideLine, Bind.bind, EStateM.bind, run_get] at ran
  cases hstate : s.state with
  | running | quit =>
      rw [hstate] at ran
      cases ran
  | awaiting request =>
      rw [hstate] at ran
      cases request with
      | line textBuffer parseBuffer store => exact ⟨textBuffer, parseBuffer, store, ran⟩
      | key store => cases ran

theorem provideChar_ok {c : Char} (ran : provideChar c s = .ok () t) :
    ∃ store, (finishChar c >>= storeResult store) { s with state := .running } = .ok () t := by
  simp only [provideChar, Bind.bind, EStateM.bind, run_get] at ran
  cases hstate : s.state with
  | running | quit =>
      rw [hstate] at ran
      cases ran
  | awaiting request =>
      rw [hstate] at ran
      cases request with
      | line textBuffer parseBuffer store => cases ran
      | key store => exact ⟨store, ran⟩

theorem Moves.rests (moves : s.Moves t) (rests : s.stack.Rests f fs ws) (callers : fs ≠ []) :
    t.stack.Rests f fs ws ∨ t.Returned f fs ws := by
  cases moves with
  | step plain ran =>
      refine step_rests rests (.inl callers) (fun i next => (plain i next).2) ?_ ran
      intro token thrown
      -- A plain step is no unwinding.
      unfold throwToken? at thrown
      split at thrown
      · rename_i i decoded hd
        rw [if_neg (plain i (nextInstruction?_eq hd)).1] at thrown
        cases thrown
      · cases thrown
  | line line ran =>
      obtain ⟨textBuffer, parseBuffer, store, answered⟩ := provideLine_ok ran
      have respects :
          Leads (Respects false) (finishLine textBuffer parseBuffer line >>= storeResult store) :=
        (Bears.values (.finishLine _ _ _)).bind fun _ => Bears.closed.storeResult _ _
      exact .inl ((respects.of_ok answered).rests f fs ws rests)
  | char c ran =>
      obtain ⟨store, answered⟩ := provideChar_ok ran
      have respects : Leads (Respects false) (finishChar c >>= storeResult store) :=
        (Bears.values (.finishChar c)).bind fun _ => Bears.closed.storeResult _ _
      exact .inl ((respects.of_ok answered).rests f fs ws rests)
  | hosted => exact .inl rests

theorem Dwells.rests (dwells : s.Dwells fs.length t) (rests : s.stack.Rests f fs ws)
    (callers : fs ≠ []) : t.stack.Rests f fs ws := by
  induction dwells with
  | start => exact rests
  | move _ moves deep ih =>
      rcases moves.rests ih callers with rests | returned
      · exact rests
      · have := returned.depth
        omega

/-- A call that adds a frame puts down in it where the caller goes on and where it wants the result,
and leaves the frames of the callers alone. -/
theorem step_call {i : Instruction} (next : s.nextInstruction? = some i)
    (call : i.opcode.isCall = true) (ran : step s = .ok () t)
    (pushed : s.stack.depth < t.stack.depth) :
    ∃ f, t.stack.frames = f :: s.stack.frames ∧ f.store = i.store ∧ f.returnAddress = i.next ∧
      f.base = t.stack.size := by
  obtain ⟨j, decoded, u, -, hd, executed, rfl⟩ := step_ok ran
  cases Option.some.inj ((nextInstruction?_eq hd).symm.trans next)
  -- Reading the operands may take words off the stack, but adds no frame.
  rw [execute_eq, wayOf_call call, bind_assoc, run_bind] at executed
  cases read : operandValues i (s.fetched decoded i) with
  | error e v =>
      rw [read] at executed
      cases executed
  | ok args v =>
      have frames : v.stack.frames = s.stack.frames :=
        (stays_of_effects ((does_operandValues i : Does false false _).of_ok read)).frames
      simp only [read] at executed
      cases args with
      | nil => cases executed
      | cons packed rest =>
          change ((callPacked packed rest i.store i.next >>= fun _ => pure .onward) >>= go) v
            = .ok () u at executed
          rw [go_onward] at executed
          unfold callPacked at executed
          by_cases zero : packed = 0
          · -- Address 0 is not called.
            rw [if_pos zero] at executed
            have stored : storeResult i.store 0 v = .ok () u := executed
            have depth : u.stack.depth = s.stack.depth := by
              rw [(storeResult_ok stored).2.2.2, CallStack.depth, frames, CallStack.depth]
            change s.stack.depth < u.stack.depth at pushed
            omega
          · rw [if_neg zero] at executed
            obtain ⟨defaults, -, values, entered⟩ := callRoutine_ok executed
            refine ⟨_, by rw [← frames]; exact entered, rfl, rfl, ?_⟩
            change v.stack.size = u.stack.size
            rw [CallStack.size, CallStack.size, values]

end Machine

namespace CallStack

/-- The oldest `n` frames. -/
def oldest (s : CallStack) (n : Nat) : List Frame := s.frames.drop (s.depth - n)

/-- The lowest `n` words. -/
def lowest (s : CallStack) (n : Nat) : List Word := s.values.drop (s.size - n)

theorem Rests.oldest {f : Frame} {fs : List Frame} {ws : List Word} {s : CallStack}
    (h : Rests f fs ws s) : s.oldest fs.length = fs := by
  obtain ⟨upper, locals, frames, -⟩ := h.frames
  have below : fs <:+ s.frames := ⟨upper ++ [{ f with locals }], by simp [frames]⟩
  exact (List.suffix_iff_eq_drop.mp below).symm

theorem Rests.lowest {f : Frame} {fs : List Frame} {ws : List Word} {s : CallStack}
    (h : Rests f fs ws s) : s.lowest ws.length = ws := (List.suffix_iff_eq_drop.mp h.words).symm

end CallStack

namespace Machine

/-- A call leaves the frames of the callers as they are, and the words below the frame that it adds
stay as the call left them for as long as this frame is there.  When it is gone, no other is, the
caller goes on after the call, and nothing but the place of the result has changed. -/
theorem call_isolated {s t : Machine} {i : Instruction} (caller : 0 < s.stack.depth)
    (next : s.nextInstruction? = some i) (call : i.opcode.isCall = true)
    (ran : step s = .ok () t) (pushed : s.stack.depth < t.stack.depth) :
    t.stack.oldest s.stack.depth = s.stack.frames ∧
      t.stack.lowest t.stack.base = t.stack.values ∧
      ∀ u, t.Dwells s.stack.depth u →
        u.stack.oldest s.stack.depth = s.stack.frames ∧
        u.stack.lowest t.stack.base = t.stack.values ∧
        ∀ v, u.Moves v → v.stack.depth ≤ s.stack.depth →
          v.stack.depth = s.stack.depth ∧ v.pc = i.next ∧
          ∃ w, v.lastReturn = some w ∧ v.Delivered i.store w s.stack.frames t.stack.values := by
  obtain ⟨f, frames, store, returnAddress, base⟩ := step_call next call ran pushed
  have callers : s.stack.frames ≠ [] := List.length_pos_iff.mp caller
  -- The callers and their words rest under the new frame; this is what every step keeps.
  have rests : t.stack.Rests f s.stack.frames t.stack.values :=
    ⟨base, ⟨[], f.locals, frames, by simp⟩, List.suffix_refl _⟩
  have top : t.stack.base = t.stack.values.length := by
    simp [CallStack.base, frames, base, CallStack.size]
  rw [top]
  refine ⟨rests.oldest, rests.lowest, fun u dwells => ?_⟩
  have rests := dwells.rests rests callers
  refine ⟨rests.oldest, rests.lowest, fun v moves low => ?_⟩
  -- As the frame is gone, the last step returned from it.
  rcases moves.rests rests callers with still | returned
  · have := still.length_lt_depth
    change v.stack.depth ≤ s.stack.frames.length at low
    omega
  · obtain ⟨w, last, delivered⟩ := returned.result
    exact ⟨returned.depth, returned.pc.trans returnAddress, w, last, store ▸ delivered⟩

/-- An image whose main routine calls another one, which returns 1, and wants the result on the
stack. -/
def callsForTrue : Array Byte :=
  overwrite
    (overwrite (Array.replicate 80 0) 0 [3, 0, 0, 0, 0, 0, 0, 64, 0, 0, 0, 0, 0, 0, 255, 255])
    64 [0xe0, 0x3f, 0, 36, 0, 0, 0, 0, 0, 0xb0]

/-- The machine after this story was loaded. -/
def calling : Machine := (load callsForTrue {} {}).toOption.getD default

/-- Its first instruction. -/
def callForTrue : Instruction :=
  { address := 64, length := 5, opcode := .callVS, operands := [.large 36]
    store := some .stack, branch := none, text := none }

/-- The machine in the routine that was called. -/
def called : Machine := endState (step calling)

theorem call_isolated_true :
    calling.nextInstruction? = some callForTrue ∧ step calling = .ok () called ∧
      called.Dwells calling.stack.depth called ∧ called.Moves (endState (step called)) ∧
      (endState (step called)).stack.depth = calling.stack.depth ∧
      (endState (step called)).pc = 69 ∧
      ∃ w, (endState (step called)).lastReturn = some w ∧
        (endState (step called)).Delivered (some .stack) w calling.stack.frames
          called.stack.values := by
  have next : calling.nextInstruction? = some callForTrue := by decide +kernel
  have ran : step calling = .ok () called := eq_ok_of_value? (by decide +kernel)
  have pushed : calling.stack.depth < called.stack.depth := by decide +kernel
  have returning : called.nextInstruction?.map (·.opcode) = some .rtrue := by decide +kernel
  have dwells : called.Dwells calling.stack.depth called := .start pushed
  have moves : called.Moves (endState (step called)) := by
    refine .step (fun i hi => ?_) (eq_ok_of_value? (by decide +kernel))
    rw [hi, Option.map_some, Option.some.injEq] at returning
    rw [returning]
    decide
  obtain ⟨-, -, kept⟩ := call_isolated (by decide +kernel) next rfl ran pushed
  have back : (endState (step called)).stack.depth ≤ calling.stack.depth := by decide +kernel
  exact ⟨next, ran, dwells, moves, (kept called dwells).2.2 _ moves back⟩

end Machine

end ZMachine
