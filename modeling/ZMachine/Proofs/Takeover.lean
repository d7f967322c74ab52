/-
  Where the interpreter takes over.

  A routine that is left to the interpreter is run from outside by the machine
  of the engine.  Its instructions are carried out as those of a machine that
  called it: both find the same instructions, and their frames differ in those
  below the routine and in where it returns to, which no instruction of the
  routine looks at.
-/
import ZMachine.Proofs.Simulation

namespace ZMachine

/-- Frames that are the same down to `f` on one side and `g` on the other, which have the same
locals and stand on `fs` and `gs`. -/
inductive Frame.Alike (f g : Frame) (fs gs : List Frame) : List Frame → List Frame → Prop where
  | base (locals : List Word) : Alike f g fs gs ({ f with locals } :: fs) ({ g with locals } :: gs)
  | inner (h : Frame) {ts us : List Frame} (below : Alike f g fs gs ts us) :
      Alike f g fs gs (h :: ts) (h :: us)

/-- Two machines, which were in the states `t₀` and `u₀`, run a routine abreast: in the frame `f` on
`fs`, and in the frame `g` on `gs`. -/
structure Abreast (f g : Frame) (fs gs : List Frame) (t₀ u₀ t u : Machine) : Prop where
  bare : t.bare = u.bare
  pc : t.pc = u.pc
  frames : Frame.Alike f g fs gs t.stack.frames u.stack.frames
  nested : t.nested = t₀.nested
  nested' : u.nested = u₀.nested
  state : t.state = t₀.state
  sheds : t₀.Sheds t
  sheds' : u₀.Sheds u

/-- Failures of the same cause. -/
def Agrees (g : Fault) (_ : Machine) (g' : Fault) (_ : Machine) : Prop := g = g'

variable {α β : Type} {f g : Frame} {fs gs : List Frame} {t₀ u₀ t u : Machine}

namespace Frame.Alike

variable {ts us : List Frame}

/-- The newest frames have the same locals, and may get others. -/
theorem top (h : Alike f g fs gs ts us) :
    ∃ x y xs ys, ts = x :: xs ∧ us = y :: ys ∧ x.locals = y.locals ∧
      ∀ locals, Alike f g fs gs ({ x with locals } :: xs) ({ y with locals } :: ys) := by
  cases h with
  | base locals => exact ⟨_, _, _, _, rfl, rfl, rfl, fun locals => .base locals⟩
  | inner h below => exact ⟨_, _, _, _, rfl, rfl, rfl, fun locals => .inner _ below⟩

theorem mem (h : Alike f g fs gs ts us) {floor : Nat} (above : floor ≤ fs.length) :
    ∃ x ∈ ts.take (ts.length - floor), x.address = f.address := by
  induction h with
  | base locals =>
      rw [List.length_cons, Nat.succ_sub above, List.take_succ_cons]
      exact ⟨_, List.mem_cons_self, rfl⟩
  | @inner h ts us below ih =>
      obtain ⟨x, member, address⟩ := ih
      refine ⟨x, ?_, address⟩
      have high : floor ≤ ts.length := by
        have := List.length_pos_of_mem member
        rw [List.length_take] at this
        omega
      rw [List.length_cons, Nat.succ_sub high, List.take_succ_cons]
      exact List.mem_cons_of_mem _ member

theorem length_lt (h : Alike f g fs gs ts us) : fs.length < ts.length ∧ gs.length < us.length := by
  induction h with
  | base locals => exact ⟨Nat.lt_succ_self _, Nat.lt_succ_self _⟩
  | inner h below ih => exact ⟨Nat.lt_succ_of_lt ih.1, Nat.lt_succ_of_lt ih.2⟩

end Frame.Alike

open Machine

namespace Abreast

/-- From machines that are abreast an action leads to machines that are abreast, unless it fails on
both sides. -/
abbrev Moves (f g : Frame) (fs gs : List Frame) (t₀ u₀ : Machine) (x : MachineM α) : Prop :=
  Lockstep (Abreast f g fs gs t₀ u₀) Agrees Eq x x

/-! ## Operations on values -/

theorem values {x : MachineM α} (onValues : OnValues true x) : Moves f g fs gs t₀ u₀ x := by
  intro t u h
  refine (onValues.joint h.bare).mono ?_ fun _ _ _ _ same => same
  rintro a t' _ u' ⟨rfl, bare, effects, effects'⟩
  have stays := stays_of_effects effects
  have stays' := stays_of_effects effects'
  refine ⟨rfl, bare, stays.pc.trans (h.pc.trans stays'.pc.symm), ?_, stays.nested.trans h.nested,
    stays'.nested.trans h.nested', stays.state.trans h.state,
    h.sheds.trans (sheds_of_effects effects),
    h.sheds'.trans (sheds_of_effects effects')⟩
  have frames := h.frames
  rwa [← stays.frames, ← stays'.frames] at frames

theorem readLocal (i : Byte) : Moves f g fs gs t₀ u₀ (readVariable (.localVar i)) := by
  intro t u h
  obtain ⟨x, y, xs, ys, frames, frames', locals, -⟩ := h.frames.top
  rw [run_readLocal frames, run_readLocal frames', locals]
  cases y.locals[i.toNat]? with
  | some w => exact .ok ⟨rfl, h⟩
  | none => exact .error rfl

theorem writeLocal (i : Byte) (w : Word) :
    Moves f g fs gs t₀ u₀ (writeVariable (.localVar i) w) := by
  intro t u h
  obtain ⟨x, y, xs, ys, frames, frames', locals, others⟩ := h.frames.top
  have effects : Effects false true t (endState (writeVariable (.localVar i) w t)) :=
    does_writeLocal i w t
  have effects' : Effects false true u (endState (writeVariable (.localVar i) w u)) :=
    does_writeLocal i w u
  rw [run_writeLocal frames, locals] at effects ⊢
  rw [run_writeLocal frames'] at effects' ⊢
  split
  · rename_i bound
    rw [if_pos bound] at effects effects'
    refine .ok ⟨rfl, ?_, h.pc, others _, h.nested, h.nested', h.state,
      h.sheds.trans (sheds_of_effects effects), h.sheds'.trans (sheds_of_effects effects')⟩
    rw [bare_setLocals frames, bare_setLocals frames', h.bare]
  · exact .error rfl

theorem closed : ClosedWriting true (fun {_} x => Moves f g fs gs t₀ u₀ x) where
  values := values
  bind first rest := Lockstep.bind first fun a _ same => same ▸ rest a
  readLocal := readLocal
  writeLocal := writeLocal

/-! ## Instructions -/

/-- Whoever waits for input inside of a routine that is run from outside waits in vain. -/
theorem suspend (outside : 0 < t₀.nested) (outside' : 0 < u₀.nested) (request : InputRequest) :
    Moves f g fs gs t₀ u₀ (Machine.suspend request) := by
  intro t u h
  have counted : 0 < t.nested := h.nested ▸ outside
  have counted' : 0 < u.nested := h.nested' ▸ outside'
  rw [run_suspend, run_suspend, if_pos counted, if_pos counted']
  exact .error rfl

/-- The depth of calls is the same on both sides. -/
theorem catchFrame (i : Instruction) :
    Moves f g fs gs t₀ u₀ (get >>= fun s => Machine.settle i (.value s.stack.depth.toUInt16)) := by
  intro t u h
  change Joint _ _ (Machine.settle i (.value t.stack.depth.toUInt16) t)
    (Machine.settle i (.value u.stack.depth.toUInt16) u)
  rw [depth_of_bare h.bare]
  exact closed.settle i _ t u h

theorem header_of_bare (same : t.bare = u.bare) : t.header = u.header := by
  have header : t.bare.header = u.bare.header := congrArg Machine.header same
  exact header

/-- Both sides find the same locals of a routine. -/
theorem routineHeader_of_bare (same : t.bare = u.bare) (a : Nat) :
    routineHeader t.memory t.header.version a = routineHeader u.memory u.header.version a := by
  have memory : t.memory.plain = u.memory.plain := congrArg Machine.memory same
  have lookup (m : Memory) (version : Nat) :
      routineHeader m.plain version a = routineHeader m version a := rfl
  rw [← lookup t.memory, ← lookup u.memory, memory, header_of_bare same]

theorem callRoutine (a : Nat) (args : List Word) (store : Option Variable) (returnAddress : Nat) :
    Moves f g fs gs t₀ u₀ (Machine.callRoutine a args store returnAddress) := by
  intro t u h
  have same := routineHeader_of_bare h.bare a
  cases header : routineHeader u.memory u.header.version a with
  | error e =>
      rw [run_callRoutine_error (same.trans header), run_callRoutine_error header]
      exact .error rfl
  | ok p =>
      have effects :
          Effects false true t (endState (Machine.callRoutine a args store returnAddress t)) :=
        does_callRoutine a args store returnAddress t
      have effects' :
          Effects false true u (endState (Machine.callRoutine a args store returnAddress u)) :=
        does_callRoutine a args store returnAddress u
      rw [run_callRoutine (same.trans header), depth_of_bare h.bare,
        size_of_bare h.bare] at effects ⊢
      rw [run_callRoutine header] at effects' ⊢
      split
      · exact .error rfl
      · rename_i shallow
        rw [if_neg shallow] at effects effects'
        exact .ok ⟨rfl, bare_entered h.bare rfl, rfl, .inner _ h.frames, h.nested,
          h.nested', h.state,
          h.sheds.trans (sheds_of_effects effects), h.sheds'.trans (sheds_of_effects effects')⟩

theorem callPacked (packed : Word) (args : List Word) (store : Option Variable)
    (returnAddress : Nat) :
    Moves f g fs gs t₀ u₀ (Machine.callPacked packed args store returnAddress) := by
  unfold Machine.callPacked
  split
  · exact closed.storeResult store 0
  · intro t u h
    change Joint _ _ (Machine.callRoutine (t.header.routineAddress packed) args store
      returnAddress t)
      (Machine.callRoutine (u.header.routineAddress packed) args store returnAddress u)
    rw [header_of_bare h.bare]
    exact callRoutine _ _ _ _ t u h

/-- What an instruction does to values is the same on both sides. -/
theorem wayOf (outside : 0 < t₀.nested) (outside' : 0 < u₀.nested) {i : Instruction}
    (linear : i.opcode ≠ .throwFrame ∧ i.opcode ≠ .restart) (goesOn : i.opcode ≠ .quit) :
    Moves f g fs gs t₀ u₀ (Machine.wayOf i) :=
  closed.wayOf (fun _ => rfl) (fun op => absurd op goesOn) (fun op => absurd op linear.2)
    (fun _ => catchFrame i) (fun op => absurd op linear.1) (fun _ => suspend outside outside')
    fun _ _ _ => callPacked _ _ _ _

/-- How an instruction leaves two machines that were abreast. -/
inductive Goes (f g : Frame) (fs gs : List Frame) (t₀ u₀ : Machine) :
    EStateM.Result Fault Machine Unit → EStateM.Result Fault Machine Unit → Prop where
  | onward {t u : Machine} (h : Abreast f g fs gs t₀ u₀ t u) :
      Goes f g fs gs t₀ u₀ (.ok () t) (.ok () u)
  | returns {w : Word} {locals : List Word} {t u : Machine} (h : Abreast f g fs gs t₀ u₀ t u)
      (frames : t.stack.frames = { f with locals } :: fs)
      (frames' : u.stack.frames = { g with locals } :: gs) :
      Goes f g fs gs t₀ u₀ (returnFrom w t) (returnFrom w u)
  | quits {t u : Machine} (bare : t.bare = u.bare) (ended : t.state = .quit)
      (nested' : u.nested = u₀.nested) : Goes f g fs gs t₀ u₀ (.ok () t) (.ok () u)
  | fails {e : Fault} {t u : Machine} : Goes f g fs gs t₀ u₀ (.error e t) (.error e u)

theorem goes_quit (h : Abreast f g fs gs t₀ u₀ t u) :
    Goes f g fs gs t₀ u₀ (Machine.quit t) (Machine.quit u) := by
  rw [run_quit, run_quit, state_of_bare h.bare]
  split
  · rename_i ended
    exact .quits h.bare ((state_of_bare h.bare).trans ended) h.nested'
  · refine .quits ?_ rfl h.nested'
    have ended (s : Machine) (events : EventLog) :
        Machine.bare { s with state := .quit, events } = { s.bare with state := .quit } := rfl
    rw [ended, ended, h.bare]

/-- Returning from a routine that was called on both sides. -/
theorem goes_leave (outside : 0 < t₀.nested) (outside' : 0 < u₀.nested)
    (h : Abreast f g fs gs t₀ u₀ t u) (w : Word) :
    Goes f g fs gs t₀ u₀ (returnFrom w t) (returnFrom w u) := by
  generalize frames : t.stack.frames = ts
  generalize frames' : u.stack.frames = us
  have alike := h.frames
  rw [frames, frames'] at alike
  -- At the base the routine itself is left; further up, a routine that was called on both sides.
  cases alike with
  | base locals => exact .returns h frames frames'
  | @inner x ts us below =>
      rw [run_returnFrom frames (.inr (h.nested ▸ outside)),
        run_returnFrom frames' (.inr (h.nested' ▸ outside'))]
      have back : Abreast f g fs gs t₀ u₀ { t.left x ts w with pc := x.returnAddress }
          { u.left x us w with pc := x.returnAddress } :=
        ⟨bare_left h.bare frames frames' w w, rfl, below, h.nested, h.nested', h.state,
          h.sheds.trans (.of_same rfl rfl rfl rfl rfl rfl),
          h.sheds'.trans (.of_same rfl rfl rfl rfl rfl rfl)⟩
      have joint := closed.storeResult x.store w _ _ back
      generalize Machine.storeResult x.store w { t.left x ts w with pc := x.returnAddress }
        = y at joint
      generalize Machine.storeResult x.store w { u.left x us w with pc := x.returnAddress }
        = z at joint
      cases joint with
      | ok both => exact .onward both.2
      | error same =>
          cases same
          exact .fails

theorem goes_execute (outside : 0 < t₀.nested) (outside' : 0 < u₀.nested) {i : Instruction}
    (linear : i.opcode ≠ .throwFrame ∧ i.opcode ≠ .restart) (h : Abreast f g fs gs t₀ u₀ t u) :
    Goes f g fs gs t₀ u₀ (execute i t) (execute i u) := by
  -- Ending the story ends it on both sides, which is no longer abreast.
  by_cases quits : i.opcode = .quit
  · have ends : execute i = Machine.quit := by simp only [execute, quits]
    rw [ends]
    exact goes_quit h
  · have joint := wayOf outside outside' linear quits t u h
    rw [execute_eq]
    simp only [Bind.bind, EStateM.bind]
    generalize Machine.wayOf i t = y at joint
    generalize Machine.wayOf i u = z at joint
    cases joint with
    | error same =>
        cases same
        exact .fails
    | @ok way t' _ u' both =>
        obtain ⟨rfl, h⟩ := both
        cases way with
        | onward => exact .onward h
        | goto a =>
            exact .onward ⟨h.bare, rfl, h.frames, h.nested, h.nested', h.state,
              h.sheds.trans (.of_same rfl rfl rfl rfl rfl rfl),
              h.sheds'.trans (.of_same rfl rfl rfl rfl rfl rfl)⟩
        | leave w => exact goes_leave outside outside' h w

end Abreast

namespace Setting

variable {S : Setting}

/-! ## Whole routines -/

/-- Where the bytes of the next instruction are steady, both sides find the same. -/
theorem decode_abreast (holds : S.Holds t) (unchanged : S.Unchanged t.memory) (tame : S.Tame t)
    (holds' : S.Holds u) (unchanged' : S.Unchanged u.memory) (pc : t.pc = u.pc) {i : Instruction}
    {decoded : DecodeCache} (found : t.code.decoded.decode t.memory t.pc = (.ok i, decoded)) :
    ∃ decoded', u.code.decoded.decode u.memory u.pc = (.ok i, decoded') := by
  have steady := tame.steady i (nextInstruction?_eq found)
  obtain ⟨m, agrees, source⟩ := holds.drawn.source unchanged.agrees found
  rw [← pc]
  exact holds'.drawn.decode_eq unchanged'.agrees (agrees.decode' source steady) steady

theorem Prepared.fetched {e : Engine} (h : S.Prepared { e with machine := u })
    (unchanged : S.Unchanged u.memory) {i : Instruction} {decoded : DecodeCache}
    (found : u.code.decoded.decode u.memory u.pc = (.ok i, decoded)) :
    S.Prepared { e with machine := u.fetched decoded i } :=
  have drawn := h.holds.drawn.of_decode unchanged.agrees found
  ⟨⟨h.holds.header, h.holds.text, drawn, h.holds.calm⟩, ⟨drawn, h.known.routines⟩,
    h.fallback, h.tiers⟩

/-- How a routine that is interpreted from outside comes to its end, compared with a machine in the
state `t` that has called it. -/
inductive Surfaces (S : Setting) (floor bound limit : Nat) (e : Engine) (f : Frame)
    (fs gs : List Frame) (t u : Machine) : Prop where
  | returns {w : Word} {t' u' : Machine} {bound' old : Nat}
      (run : runToDepth gs.length limit u = .ok () u') (bare : t'.bare = u'.bare)
      (frames : t'.stack.frames = fs) (pc : t'.pc = f.returnAddress) (nested : t'.nested = t.nested)
      (nested' : u'.nested = u.nested) (prepared : S.Prepared { e with machine := u' })
      (running : u'.state = .running) (last : u'.lastReturn = some w) (holds : S.Holds t')
      (last' : t'.lastReturn = some w)
      (reaches : S.Reaches floor bound t bound' old (storeResult f.store w t'))
  | quits {t' u' : Machine} {bound' old : Nat} (run : runToDepth gs.length limit u = .ok () u')
      (bare : t'.bare = u'.bare) (ended : t'.state = .quit) (nested' : u'.nested = u.nested)
      (reaches : S.Reaches floor bound t bound' old (.ok () t'))

theorem Surfaces.of_reaches {floor bound bound' limit old : Nat} {e : Engine} {t' u' : Machine}
    (reaches : S.Reaches floor bound t bound' old (.ok () t'))
    (run : runToDepth gs.length (limit + 1) u = runToDepth gs.length limit u')
    (nested : t'.nested = t.nested) (nested' : u'.nested = u.nested)
    (h : S.Surfaces floor bound' limit e f fs gs (t'.stepped old) u') :
    S.Surfaces floor bound (limit + 1) e f fs gs t u := by
  cases h with
  | returns ran bare frames pc same same' prepared running last holds last' later =>
      exact .returns (run.trans ran) bare frames pc (same.trans nested) (same'.trans nested')
        prepared running last holds last' (reaches.trans later)
  | quits ran bare ended same' later =>
      exact .quits (run.trans ran) bare ended (same'.trans nested') (reaches.trans later)

theorem Holds.stepped {old : Nat} (h : S.Holds t) : S.Holds (t.stepped old) :=
  ⟨h.header, h.text, h.drawn, h.calm⟩

theorem Prepared.stepped {old : Nat} {e : Engine} (h : S.Prepared { e with machine := u }) :
    S.Prepared { e with machine := u.stepped old } :=
  ⟨⟨h.holds.header, h.holds.text, h.holds.drawn, h.holds.calm⟩, h.known, h.fallback, h.tiers⟩

/-- The end of the story. -/
theorem Surfaces.of_quits {floor bound limit old old' : Nat} {e : Engine} {t' u' : Machine}
    (reaches : S.Reaches floor (bound + 1) t bound old (.ok () t'))
    (run : runToDepth gs.length (limit + 1) u = conclude gs.length limit old' (.ok () u'))
    (bare : t'.bare = u'.bare) (ended : t'.state = .quit) (nested' : u'.nested = u.nested)
    (going : S.Going floor (bound + 1) t) (deep : bound ≤ limit) :
    S.Surfaces floor (bound + 1) (limit + 1) e f fs gs t u := by
  obtain ⟨limit, rfl⟩ := Nat.exists_eq_succ_of_ne_zero
    (Nat.ne_of_gt (Nat.lt_of_lt_of_le (going.of_reaches reaches).positive deep))
  have ended' : u'.state = .quit := (state_of_bare bare).symm.trans ended
  have same : t'.bare = (u'.stepped old').bare := bare
  exact .quits (run.trans (runToDepth_quit (s := u'.stepped old') ended' limit)) same ended nested'
    reaches

/-- The routine returns: to its caller, which stores the result, and to the outside. -/
theorem Surfaces.of_returns {floor bound limit old old' : Nat} {e : Engine} {w : Word}
    {locals : List Word} {t₀ u₀ t' u' : Machine}
    (reaches : S.Reaches floor (bound + 1) t bound old (returnFrom w t'))
    (run : runToDepth gs.length (limit + 1) u = conclude gs.length limit old' (returnFrom w u'))
    (h : Abreast f g fs gs t₀ u₀ t' u') (frames : t'.stack.frames = { f with locals } :: fs)
    (frames' : u'.stack.frames = { g with locals } :: gs) (nested : t₀.nested = t.nested)
    (nested' : u₀.nested = u.nested) (outside : 0 < t.nested) (outside' : 0 < u.nested)
    (nothing : g.store = none) (running : t₀.state = .running) (holds : S.Holds t₀)
    (prepared : S.Prepared { e with machine := u₀ })
    (smooth : ∃ v, runToDepth floor (bound + 1) t = .ok () v)
    (going : S.Going floor (bound + 1) t) (deep : bound ≤ limit) :
    S.Surfaces floor (bound + 1) (limit + 1) e f fs gs t u := by
  obtain ⟨last, smooth⟩ := smooth
  -- On the outside nobody stores the result.
  have back : storeResult g.store w { u'.left { g with locals } gs w with pc := g.returnAddress } =
      .ok () { u'.left { g with locals } gs w with pc := g.returnAddress } := by
    rw [nothing]
    rfl
  rw [run_returnFrom frames (.inr (h.nested.trans nested ▸ outside))] at reaches
  rw [run_returnFrom frames' (.inr (h.nested'.trans nested' ▸ outside')), back] at run
  -- The caller goes on, so there is something left of the bound.
  have positive : 0 < bound := by
    cases stored : storeResult f.store w
        { t'.left { f with locals } fs w with pc := f.returnAddress } with
    | error e v =>
        rw [stored] at reaches
        rw [reaches.failed] at smooth
        cases smooth
    | ok _ v =>
        rw [stored] at reaches
        exact (going.of_reaches reaches).positive
  obtain ⟨limit, rfl⟩ :=
    Nat.exists_eq_succ_of_ne_zero (Nat.ne_of_gt (Nat.lt_of_lt_of_le positive deep))
  have low : (u'.left { g with locals } gs w).stack.depth ≤ gs.length := Nat.le_refl _
  have sheds : t₀.Sheds { t'.left { f with locals } fs w with pc := f.returnAddress } :=
    h.sheds.trans (.of_same rfl rfl rfl rfl rfl rfl)
  have sheds' : u₀.Sheds { u'.left { g with locals } gs w with pc := g.returnAddress } :=
    h.sheds'.trans (.of_same rfl rfl rfl rfl rfl rfl)
  have running' : u'.state = .running := (state_of_bare h.bare).symm.trans (h.state.trans running)
  have bare : Machine.bare { t'.left { f with locals } fs w with pc := f.returnAddress } =
      Machine.bare
        ({ u'.left { g with locals } gs w with pc := g.returnAddress }.stepped old') :=
    bare_left h.bare frames frames' w w
  refine .returns (run.trans (runToDepth_low ?_ limit)) bare rfl rfl
    (h.nested.trans nested) (h.nested'.trans nested')
    (Prepared.stepped (prepared.of_sheds sheds')) running' rfl (holds.of_sheds sheds) rfl reaches
  exact low

/-- No routine that the interpreter runs calls on behalf of compiled code. -/
theorem not_refuses {floor : Nat} (alike : Frame.Alike f g fs gs t.stack.frames u.stack.frames)
    (interpreted : S.fate f.address = .interpreted) (above : floor ≤ fs.length) :
    ¬S.Refuses floor t := by
  rintro ⟨-, compiled, -⟩
  obtain ⟨x, member, address⟩ := alike.mem above
  obtain ⟨r, native⟩ := compiled x member
  rw [address, interpreted] at native
  cases native

/-- A machine that has called the routine of the frame `f` goes on beside the machine of an engine
that runs it from outside, in the frame `g`. -/
structure Beside (S : Setting) (e : Engine) (f g : Frame) (fs gs : List Frame) (t u : Machine) :
    Prop where
  bare : t.bare = u.bare
  pc : t.pc = u.pc
  alike : Frame.Alike f g fs gs t.stack.frames u.stack.frames
  outside : 0 < t.nested
  outside' : 0 < u.nested
  running : t.state = .running
  holds : S.Holds t
  prepared : S.Prepared { e with machine := u }

namespace Beside

variable {e : Engine}

theorem unchanged' (h : S.Beside e f g fs gs t u) (unchanged : S.Unchanged t.memory) :
    S.Unchanged u.memory := by
  have plain : t.memory.plain = u.memory.plain := congrArg Machine.memory h.bare
  exact unchanged.of_plain plain.symm

theorem abreast (h : S.Beside e f g fs gs t u) : Abreast f g fs gs t u t u :=
  ⟨h.bare, h.pc, h.alike, rfl, rfl, rfl, .refl _, .refl _⟩

/-- Both sides have fetched an instruction. -/
theorem fetched (h : S.Beside e f g fs gs t u) (unchanged : S.Unchanged t.memory) {i : Instruction}
    {decoded decoded' : DecodeCache}
    (found : t.code.decoded.decode t.memory t.pc = (.ok i, decoded))
    (found' : u.code.decoded.decode u.memory u.pc = (.ok i, decoded')) :
    S.Beside e f g fs gs (t.fetched decoded i) (u.fetched decoded' i) where
  bare := h.bare
  pc := rfl
  alike := h.alike
  outside := h.outside
  outside' := h.outside'
  running := h.running
  holds :=
    ⟨h.holds.header, h.holds.text, h.holds.drawn.of_decode unchanged.agrees found, h.holds.calm⟩
  prepared := h.prepared.fetched (h.unchanged' unchanged) found'

/-- Both sides have carried it out. -/
theorem onward (h : S.Beside e f g fs gs t₀ u₀) (goes : Abreast f g fs gs t₀ u₀ t u)
    (old old' : Nat) :
    S.Beside e f g fs gs (t.stepped old) (u.stepped old') where
  bare := goes.bare
  pc := goes.pc
  alike := goes.frames
  outside := goes.nested ▸ h.outside
  outside' := goes.nested' ▸ h.outside'
  running := goes.state.trans h.running
  holds := (h.holds.of_sheds goes.sheds).stepped
  prepared := Prepared.stepped (h.prepared.of_sheds goes.sheds')

end Beside

/-- The interpreter runs a routine from outside as a machine does that has called it. -/
theorem surfaces {floor bound limit : Nat} {e : Engine} (beside : S.Beside e f g fs gs t u)
    (nothing : g.store = none) (interpreted : S.fate f.address = .interpreted)
    (called : S.called f.address) (above : floor ≤ fs.length) (going : S.Going floor bound t)
    (deep : bound ≤ limit) : S.Surfaces floor bound limit e f fs gs t u := by
  have notNative : ¬S.Native := by
    intro native
    obtain ⟨r, compiled⟩ := native f.address called
    rw [interpreted] at compiled
    cases compiled
  -- By induction on the instructions left: both sides decode and carry out the same instruction,
  -- and are abreast again or come to the end together.
  induction bound generalizing limit t u with
  | zero => exact absurd going.positive (Nat.lt_irrefl 0)
  | succ bound ih =>
      obtain ⟨limit, rfl⟩ := Nat.exists_eq_succ_of_ne_zero (Nat.ne_of_gt (Nat.lt_of_lt_of_le
        (Nat.succ_pos bound) deep))
      have less : bound ≤ limit := Nat.le_of_succ_le_succ deep
      obtain ⟨last, smooth⟩ := going.smooth.resolve_left notNative
      have inside := beside.alike.length_lt
      have proceeds : t.Proceeds floor := ⟨Nat.lt_of_le_of_lt above inside.1, beside.running⟩
      have proceeds' : u.Proceeds gs.length :=
        ⟨inside.2, (state_of_bare beside.bare).symm.trans beside.running⟩
      obtain ⟨allows, tame⟩ := going.safe t .start proceeds
      have tame := tame.resolve_left notNative
      rcases found : t.code.decoded.decode t.memory t.pc with ⟨r, decoded⟩
      cases r with
      -- A routine that returns never comes to bytes that are no instruction.
      | error e =>
          rw [runToDepth_step proceeds, step_of_undecoded beside.running found] at smooth
          cases smooth
      | ok i =>
          obtain ⟨decoded', found'⟩ := decode_abreast beside.holds allows.unchanged tame
            beside.prepared.holds (beside.unchanged' allows.unchanged) beside.pc found
          have fetched := beside.fetched allows.unchanged found found'
          have linear := tame.linear i (nextInstruction?_eq found)
          have goes := fetched.abreast.goes_execute fetched.outside fetched.outside' linear
          have reaches := reaches_next proceeds found
            (not_strays found (not_refuses beside.alike interpreted above) linear.2) bound
          have run := runToDepth_decoded proceeds' found' limit
          generalize execute i (t.fetched decoded i) = x at goes reaches
          generalize execute i (u.fetched decoded' i) = y at goes run
          cases goes with
          | fails =>
              rw [reaches.failed] at smooth
              cases smooth
          | onward h =>
              refine .of_reaches reaches run h.nested h.nested' ?_
              exact ih (fetched.onward h _ _) (going.of_reaches reaches) less
          | quits same ended nested' => exact .of_quits reaches run same ended nested' going less
          | returns h frames frames' =>
              exact .of_returns reaches run h frames frames' rfl rfl beside.outside beside.outside'
                nothing beside.running fetched.holds fetched.prepared ⟨last, smooth⟩ going less

/-- How an interpreted routine surfaces is how running it from outside ends. -/
theorem Surfaces.invoked {floor bound limit resume : Nat} {e : Engine} {s : Machine}
    (h : S.Surfaces floor bound limit e f fs gs s u) (outside : 0 < u.nested)
    {x : RunM (Option Word)}
    (ran : x e.machine = surfaced resume (runToDepth gs.length limit u)) :
    S.Invoked floor bound s f fs e.literals (Engine.onMachine x e) := by
  rw [Engine.run_onMachine, ran]
  cases h with
  | @returns w t' u' bound' old run bare frames pc nested nested' prepared running last holds last'
      reaches =>
      have counted : ¬u'.nested = 0 := by omega
      have goesOn : ¬u'.state = .quit := by simp [running]
      rw [run]
      simp only [surfaced, if_neg counted, if_neg goesOn, last]
      -- Surfacing changes the count and the program counter, of which being prepared
      -- takes no notice.
      have prepared' := prepared.of_sheds
        (s := { u'.shallower with pc := resume }) (.of_same rfl rfl rfl rfl rfl rfl)
      exact .returns bare frames pc nested ⟨prepared', List.prefix_rfl, running⟩ holds last' reaches
  | @quits t' u' bound' old run bare ended nested' reaches =>
      have counted : ¬u'.nested = 0 := by omega
      have ends : u'.state = .quit := (state_of_bare bare).symm.trans ended
      rw [run]
      simp only [surfaced, if_neg counted, if_pos ends]
      exact .quits bare ended reaches

/-- Two machines that look alike call a routine: from inside, and from outside. -/
theorem joint_callRoutine {t u : Machine} (same : t.bare = u.bare) (a : Nat) (args : List Word)
    (store : Option Variable) (returnAddress : Nat) :
    Joint
      (fun _ t' _ u' => t'.bare = u'.bare ∧ t'.pc = u'.pc ∧ u.Sheds u' ∧ u'.state = u.state ∧
        ∃ locals size,
          t'.stack.frames = .enter a returnAddress store locals args size :: t.stack.frames ∧
          u'.stack.frames = .enter a u.pc none locals args size :: u.stack.frames)
      Agrees (callRoutine a args store returnAddress t) (callRoutine a args none u.pc u) := by
  have headers := Abreast.routineHeader_of_bare same a
  cases header : routineHeader u.memory u.header.version a with
  | error g =>
      rw [run_callRoutine_error (headers.trans header), run_callRoutine_error header]
      exact .error rfl
  | ok p =>
      have effects : Effects false true u (endState (callRoutine a args none u.pc u)) :=
        does_callRoutine a args none u.pc u
      rw [run_callRoutine header] at effects ⊢
      rw [run_callRoutine (headers.trans header), depth_of_bare same, size_of_bare same]
      -- The stacks are of one depth, so there is room on both or on neither.
      split
      · exact .error rfl
      · rename_i shallow
        rw [if_neg shallow] at effects
        exact .ok ⟨bare_entered same rfl, rfl, sheds_of_effects effects, rfl, p.1,
          u.stack.size, rfl,
          rfl⟩

/-- A routine that is left to the interpreter does what the machine does when it calls it. -/
theorem answers_interpreted {floor bound limit a : Nat} {e : Engine} (prepared : S.Prepared e)
    (running : e.machine.state = .running) (unchanged : S.Unchanged e.machine.memory)
    (called : S.called a) (nonzero : a ≠ 0) (interpreted : S.fate a = .interpreted)
    (fallback : S.fallback = true) {t : Machine} (bare : t.bare = e.machine.bare) (args : List Word)
    (store : Option Variable) (returnAddress : Nat) (above : floor ≤ t.stack.depth)
    (deep : bound ≤ limit) :
    S.Answers floor bound t a args store returnAddress e.literals
      (Engine.invoke (limit + 1) a args e) := by
  have spec := prepare_spec prepared unchanged called fun _ => fallback
  rw [interpreted] at spec
  obtain ⟨e₁, ran, kept⟩ := spec
  rw [Engine.run_invoke prepared.holds.calm nonzero, ran]
  dsimp only
  -- Counting the call changes nothing that the run depends on.
  obtain ⟨e₂, counted⟩ : ∃ e₂, e₂ = Engine.countedInterpreted e₁ := ⟨_, rfl⟩
  have literals : e.literals <+: e₂.literals := counted ▸ kept.literals
  have bare₂ : t.bare = e₂.machine.bare := counted ▸ bare.trans kept.bare.symm
  have running₂ : e₂.machine.state = .running := counted ▸ (state_of_bare kept.bare).trans running
  have prepared₂ : S.Prepared e₂ := counted ▸ ⟨kept.prepared.holds, kept.prepared.known,
    kept.prepared.fallback, kept.prepared.tiers⟩
  rw [← counted]
  have joint := joint_callRoutine bare₂ a args store returnAddress
  unfold Answers
  generalize callRoutine a args store returnAddress t = x at joint ⊢
  generalize call : callRoutine a args none e₂.machine.pc e₂.machine = y at joint
  cases joint with
  | error same =>
      cases same
      rw [Engine.run_onMachine, runRoutine_of_uncalled nonzero call]
      exact ⟨_, _, rfl, rfl⟩
  | @ok _ t' _ u h =>
      obtain ⟨bare', pc, sheds, state, defaults, size, frames, frames'⟩ := h
      intro s f enters going
      obtain ⟨rfl, -⟩ := List.cons.inj (frames.symm.trans enters.frames)
      have alike : Frame.Alike (.enter a returnAddress store defaults args size)
          (.enter a e₂.machine.pc none defaults args size) t.stack.frames e₂.machine.stack.frames
          s.stack.frames u.deeper.stack.frames := by
        rw [enters.stack, frames]
        exact frames' ▸ .base _
      have inner : S.Prepared { e₂ with machine := u.deeper } :=
        prepared₂.of_sheds (sheds.trans (.of_same rfl rfl rfl rfl rfl rfl))
      have outside : 0 < u.deeper.nested := Nat.succ_pos u.nested
      have running' : s.state = .running :=
        (state_of_bare (enters.bare.trans bare')).trans (state.trans running₂)
      have beside : S.Beside e₂ (.enter a returnAddress store defaults args size)
          (.enter a e₂.machine.pc none defaults args size) t.stack.frames e₂.machine.stack.frames
          s u.deeper :=
        ⟨enters.bare.trans bare', enters.pc.trans pc, alike, enters.outside, outside, running',
          enters.holds, inner⟩
      have outcome := surfaces beside rfl interpreted called above going deep
      exact (outcome.invoked outside (runRoutine_of_called nonzero call)).mono literals

/-! ## All routines -/

/-- Compiled code follows the machine, and calls of routines are answered as the machine answers
them, however many instructions are carried out. -/
theorem simulates_and_answers (S : Setting) (floor bound : Nat) :
    S.Simulates floor bound ∧ S.AnswersCalls floor bound := by
  induction bound using Nat.strongRecOn with
  | ind bound ih =>
      -- A routine that is called carries out fewer instructions than its caller has left.
      have simulates : S.Simulates floor bound :=
        simulates_of_less (fun b less => (ih b less).1) fun b less => (ih b less).2
      refine ⟨simulates, ?_⟩
      intro limit a args store returnAddress e t prepared running unchanged called nonzero accepted
        settled bare holds few compiled above deep
      cases fate : S.fate a with
      | refused => exact absurd fate accepted
      | interpreted =>
          exact answers_interpreted prepared running unchanged called nonzero fate (settled fate)
            bare args store returnAddress above deep
      | native r =>
          exact answers_native simulates prepared running unchanged called nonzero fate bare holds
            few store returnAddress compiled above deep

end Setting

end ZMachine
