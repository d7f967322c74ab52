/-
  What a routine carries out is what was read.

  A routine is read from its first instruction on, one after the other,
  until control cannot go further.  So wherever control stands while the
  routine runs, it stands at an instruction that was read: it passes on to
  the next one, goes where a branch or jump leads, or comes back from a call
  to the instruction after it.
-/
import ZMachine.Proofs.Outcomes
import ZMachine.Proofs.Partition
import ZMachine.Proofs.WordsBelow

namespace ZMachine

/-! ## Routines that keep control to themselves -/

namespace Routine

/-- An instruction of the routine begins at an address. -/
def Starts (r : Routine) (a : Nat) : Prop := ∃ i ∈ r.instructions, i.address = a

/-- Every jump of the routine has a constant operand. -/
def JumpsAreConstant (r : Routine) : Prop :=
  ∀ i ∈ r.instructions, i.opcode = .jump → i.jumpTarget?.isSome = true

/-- Where control may go within a routine as it stands in an image, an instruction begins. -/
structure Closed (m : Memory) (version : Nat) (r : Routine) : Prop where
  decoded : ∀ i ∈ r.instructions, decode m version i.address = .ok i
  inside : ∀ i ∈ r.instructions, r.address ≤ i.address ∧ i.next ≤ r.stop
  onward : ∀ i ∈ r.instructions, i.opcode.isTerminal = false → r.Starts i.next
  targets : ∀ i ∈ r.instructions, ∀ a ∈ i.targets, r.Starts a
  jumps : r.JumpsAreConstant

/-- Reading stops only after an instruction that control does not pass. -/
theorem scan_onward {m : Memory} {version limit pc furthest : Nat} {is : List Instruction}
    (h : scan m version limit pc furthest = some is) :
    ∀ i ∈ is, i.opcode.isTerminal = false → ∃ j ∈ is, j.address = i.next := by
  induction limit generalizing pc furthest is with
  | zero => cases h
  | succ limit ih =>
      rw [scan] at h
      split at h
      · cases h
      rename_i i hi
      dsimp only at h
      split at h
      · rename_i last
        cases h
        intro k mem passes
        rw [List.mem_singleton.mp mem, last.1] at passes
        cases passes
      · obtain ⟨rest, hrest, rfl⟩ := Option.map_eq_some_iff.mp h
        -- The row of the rest begins where the first instruction ends.
        obtain ⟨j, rest, rfl⟩ := List.exists_cons_of_ne_nil (scan_row hrest).1.nonempty
        have first : j.address = i.next := (scan_row hrest).1.first j rfl
        intro k mem passes
        rcases List.mem_cons.mp mem with rfl | mem
        · exact ⟨j, by simp, first⟩
        · obtain ⟨l, mem, next⟩ := ih hrest k mem passes
          exact ⟨l, .tail _ mem, next⟩

theorem starts_of_indexOf? (r : Routine) {a k : Nat} (found : r.indexOf? a = some k) :
    r.Starts a := by
  have there := List.mem_of_getElem? (Ascending.getElem?_of_indexOf? found)
  exact List.mem_map.mp there

theorem starts_of_target {r : Routine} (closed : (FlowGraph.build r).external = [])
    {i : Instruction} (mem : i ∈ r.instructions) {a : Nat} (target : a ∈ i.targets) :
    r.Starts a := by
  have all : a ∈ r.instructions.flatMap Instruction.targets := List.mem_flatMap.mpr ⟨i, mem, target⟩
  rw [FlowGraph.build_eq] at closed
  have inside := List.filter_eq_nil_iff.mp (Ascending.ofList_eq_nil closed) a all
  rw [Bool.not_eq_true, Bool.not_eq_false', Option.isSome_iff_exists] at inside
  obtain ⟨k, found⟩ := inside
  exact r.starts_of_indexOf? found

/-- What reading a routine through a coherent cache says of it. -/
theorem closed_of_read {m : Memory} {version a : Nat} {c c' : DecodeCache} {r : Routine}
    (coherent : c.Coherent m) (version_eq : c.version = version)
    (read : Routine.read m a c = .ok r c') (closed : (FlowGraph.build r).external = [])
    (jumps : r.JumpsAreConstant) : r.Closed m version ∧ r.Starts r.entry := by
  have found : found? m version a = some r := version_eq ▸ found_of_read coherent read
  have surveyed : survey m version a = some r := (found?_eq_survey m version a).symm.trans found
  obtain ⟨entry, stands⟩ := stands_of_found found
  have stop := readEnd_eq_stop found
  rw [survey, stands.locals] at surveyed
  obtain ⟨is, scanned, same⟩ := Option.map_eq_some_iff.mp surveyed
  have instructions : r.instructions = is := congrArg Routine.instructions same.symm
  refine ⟨⟨stands.row.decoded, fun i mem => ?_, ?_,
    fun i mem b target => starts_of_target closed mem target, jumps⟩, ?_⟩
  · rw [stands.address, ← stop]
    exact stands.inside i mem
  · rw [← instructions] at scanned
    exact scan_onward scanned
  · obtain ⟨i, rest, cons⟩ := List.exists_cons_of_ne_nil stands.row.nonempty
    exact ⟨i, by simp [cons], by simp [Routine.entry, cons]⟩

end Routine

/-! ## Where control goes -/

namespace Machine

variable {α : Type} {s t : Machine} {i : Instruction}

/-- The ways of an instruction: it does not pass on if control ends there, and goes only
to one of its targets. -/
def Permits (i : Instruction) : Way → Prop
  | .onward => i.opcode.isTerminal = true → i.opcode = .quit
  | .goto a => a ∈ i.targets
  | .leave _ => True

theorem permits_onward (h : i.opcode.isTerminal = false) : Permits i .onward := fun terminal => by
  rw [h] at terminal
  cases terminal

theorem permits_branchWay (h : i.opcode.isTerminal = false) (passed : Bool) :
    Permits i (branchWay i passed) := by
  unfold branchWay
  cases branch : i.branch with
  | none => exact permits_onward h
  | some b =>
      dsimp only
      split
      · cases target : b.target with
        | returnFalse | returnTrue => exact trivial
        | address a => simp [Permits, Instruction.targets, branch, Branch.address?, target]
      · exact permits_onward h

theorem yields_settle (h : i.opcode.isTerminal = false) (o : Outcome) :
    Yields (Permits i) (settle i o) := by
  cases o with
  | done => exact .pure (permits_onward h)
  | value => exact .bind fun _ => .pure (permits_onward h)
  | test passed => exact .pure (permits_branchWay h passed)
  | valueTest w passed => exact .bind fun _ => .pure (permits_branchWay h passed)

/-- A jump with a constant operand goes to its target. -/
theorem yields_jump (op : i.opcode = .jump) (constant : i.jumpTarget?.isSome = true) :
    Yields (Permits i) (wayOf i) := by
  obtain ⟨a, target⟩ := Option.isSome_iff_exists.mp constant
  have listed : a ∈ i.targets := by simp [Instruction.targets, target]
  rw [Instruction.jumpTarget?, guard, if_pos op] at target
  cases operands : i.operands with
  | nil =>
      rw [operands] at target
      cases target
  | cons o rest =>
      rw [operands] at target
      have value (w : Word) (hw : o.constant? = some w) :
          relativeTarget i.next (Word.signed w) = a := by
        simp [hw] at target
        exact target
      -- The jump finds the constant that the target was computed of.
      have first (w : Word) (hw : o.constant? = some w) : operandValue o = pure w := by
        cases o <;> cases hw <;> rfl
      cases hw : o.constant? with
      | none =>
          simp [hw] at target
      | some w =>
          simp only [wayOf, op, operandValues, operands, List.mapM_cons, first w hw, pure_bind,
            bind_assoc]
          refine .bind fun ws => ?_
          change Yields (Permits i) (pure (.goto (relativeTarget i.next (Word.signed w))))
          rw [value w hw]
          exact .pure listed

theorem yields_readLineWay (h : i.opcode.isTerminal = false) :
    Yields (Permits i) (readLineWay i) := by
  refine .bind fun args => .bind fun textBuffer => .bind fun _ => .bind fun capacity => ?_
  refine .bind fun line => ?_
  cases line with
  | none => exact .bind fun _ => .pure (permits_onward h)
  | some line => exact .bind fun _ => yields_settle h _

theorem yields_readCharWay (h : i.opcode.isTerminal = false) :
    Yields (Permits i) (readCharWay i) := by
  refine .bind fun _ => .bind fun c => ?_
  cases c with
  | none => exact .bind fun _ => .pure (permits_onward h)
  | some c => exact .bind fun _ => yields_settle h _

/-- An instruction goes one of its ways. -/
theorem yields_wayOf (noRestart : i.opcode ≠ .restart) (noThrow : i.opcode ≠ .throwFrame)
    (jumps : i.opcode = .jump → i.jumpTarget?.isSome = true) : Yields (Permits i) (wayOf i) := by
  by_cases jump : i.opcode = .jump
  · exact yields_jump jump (jumps jump)
  have passes {op : Opcode} (opcode : i.opcode = op) (h : op.isTerminal = false) :
      i.opcode.isTerminal = false := by rw [opcode, h]
  unfold wayOf
  split
  case h_1 opcode | h_2 opcode => exact .bind fun _ => .pure (permits_onward (passes opcode rfl))
  case h_3 opcode | h_4 opcode =>
    refine .bind fun _ => .bind fun _ => .bind fun _ => .bind fun _ => .bind fun _ => ?_
    exact .pure (permits_branchWay (passes opcode rfl) _)
  case h_5 opcode =>
    refine .bind fun _ => .bind fun _ => .bind fun _ => .bind fun _ => ?_
    exact .pure (permits_onward (passes opcode rfl))
  case h_6 opcode =>
    exact .bind fun _ => .bind fun _ => .bind fun _ => yields_settle (passes opcode rfl) _
  case h_7 opcode => exact .bind fun _ => .pure (permits_onward (passes opcode rfl))
  case h_8 | h_9 => exact .pure trivial
  case h_10 => exact .bind fun _ => .bind fun _ => .pure trivial
  case h_11 => exact .bind fun _ => .pure trivial
  case h_12 opcode => exact absurd opcode jump
  case h_13 opcode => exact .bind fun _ => .pure (permits_onward (passes opcode rfl))
  case h_14 => exact .bind fun _ => .bind fun _ => .pure trivial
  case h_15 opcode => exact .bind fun _ => .pure fun _ => opcode
  case h_16 opcode => exact absurd opcode noRestart
  case h_17 opcode => exact .bind fun _ => .pure (permits_onward (passes opcode rfl))
  case h_18 opcode => exact .bind fun _ => yields_settle (passes opcode rfl) _
  case h_19 opcode => exact absurd opcode noThrow
  case h_20 opcode => exact yields_readLineWay (passes opcode rfl)
  case h_21 opcode => exact yields_readLineWay (passes opcode rfl)
  case h_22 opcode => exact yields_readCharWay (passes opcode rfl)
  case h_23 => exact .throw _
  case h_24 =>
    -- What ends control was told apart before.
    have passes : i.opcode.isTerminal = false := by
      unfold Opcode.isTerminal
      split <;> first | rfl | contradiction
    refine .bind fun args => .ite _ ?_ ?_
    · exact .bind fun _ => .bind fun _ => .pure (permits_onward passes)
    · exact .bind fun _ => yields_settle passes _

/-! ## What stays until control goes on -/

/-- The program counter stays, and so do the frames, but for the locals of the newest one. -/
structure Lingers (s t : Machine) : Prop where
  pc : t.pc = s.pc
  frames : ∀ f fs, s.stack.frames = f :: fs → ∃ locals, t.stack.frames = { f with locals } :: fs

instance : IsPreorder Machine Lingers where
  refl _ := ⟨rfl, fun f _ frames => ⟨f.locals, frames⟩⟩
  trans s t u h h' := by
    refine ⟨h'.pc.trans h.pc, fun f fs frames => ?_⟩
    obtain ⟨locals, frames'⟩ := h.frames f fs frames
    exact h'.frames { f with locals } fs frames'

theorem lingers_of_does (raw : Bool) {x : MachineM α} (h : Does raw false x) : Leads Lingers x := by
  intro s
  have stays := stays_of_effects (h s)
  exact ⟨stays.pc, fun f fs frames => ⟨f.locals, stays.frames.trans frames⟩⟩

theorem lingers_quit : Leads Lingers quit := by
  intro s
  rw [run_quit]
  split <;> exact ⟨rfl, fun f _ frames => ⟨f.locals, frames⟩⟩

theorem lingers_suspend (request : InputRequest) : Leads Lingers (suspend request) := by
  intro s
  rw [run_suspend]
  split <;> exact ⟨rfl, fun f _ frames => ⟨f.locals, frames⟩⟩

instance : Bears Lingers where
  does raw _ _ h := lingers_of_does raw h
  writeLocal i w s := by
    change Lingers s (endState (onStack (·.writeLocal i w) s))
    rw [run_onStack]
    cases h : s.stack.writeLocal i w with
    | error e => exact refl_of Lingers s
    | ok stack =>
        obtain ⟨g, gs, locals, top, -, rfl⟩ := CallStack.writeLocal_ok h
        refine ⟨rfl, fun f fs frames => ⟨locals, ?_⟩⟩
        cases top.symm.trans frames
        rfl

/-- Only calls, unwinding and beginning anew change frames before control goes on. -/
theorem lingers_wayOf (noRestart : i.opcode ≠ .restart) (noThrow : i.opcode ≠ .throwFrame)
    (noCall : i.opcode.isCall = false) : Leads Lingers (wayOf i) := by
  refine Bears.wayOf (fun _ => lingers_quit) (fun opcode => absurd opcode noRestart)
    (fun opcode => absurd opcode noThrow) (fun _ => lingers_suspend) fun call => ?_
  rw [noCall] at call
  cases call

theorem not_quit_of_line {line : String} (ran : provideLine line s = .ok () t) :
    s.state ≠ .quit := by
  intro ended
  simp only [provideLine, Bind.bind, EStateM.bind, run_get] at ran
  rw [ended] at ran
  cases ran

theorem not_quit_of_char {c : Char} (ran : provideChar c s = .ok () t) : s.state ≠ .quit := by
  intro ended
  simp only [provideChar, Bind.bind, EStateM.bind, run_get] at ran
  rw [ended] at ran
  cases ran

theorem lingers_provideLine {line : String} (ran : provideLine line s = .ok () t) :
    Lingers s t := by
  obtain ⟨textBuffer, parseBuffer, store, answered⟩ := provideLine_ok ran
  have lingers : Leads Lingers (finishLine textBuffer parseBuffer line >>= storeResult store) :=
    (Bears.values (.finishLine _ _ _)).bind fun _ => Bears.closed.storeResult _ _
  have := lingers.of_ok answered
  exact ⟨this.pc, this.frames⟩

theorem lingers_provideChar {c : Char} (ran : provideChar c s = .ok () t) : Lingers s t := by
  obtain ⟨store, answered⟩ := provideChar_ok ran
  have lingers : Leads Lingers (finishChar c >>= storeResult store) :=
    (Bears.values (.finishChar c)).bind fun _ => Bears.closed.storeResult _ _
  have := lingers.of_ok answered
  exact ⟨this.pc, this.frames⟩

/-! ## How many frames are left -/

/-- A return takes one frame, whoever runs the routine. -/
theorem depth_returnFrom (w : Word) (s : Machine) :
    (endState (returnFrom w s)).stack.depth = s.stack.depth - 1 := by
  obtain ⟨r, floats, depth⟩ := FloatsTo.returnFrom (n := 0) (s := s) w (Nat.zero_le _)
  have ran := floats [] rfl
  rw [atop_nil] at ran
  rw [ran, endState_moved]
  exact depth

/-- After unwinding to a token, one frame fewer is left than it names. -/
theorem depth_execute_throw (opcode : i.opcode = .throwFrame) (ran : execute i s = .ok () t) :
    ∃ token : Word, t.stack.depth + 1 = token.toNat ∧ token.toNat ≤ s.stack.depth ∧
      ∃ w rest u, operandValues i s = .ok (w :: token :: rest) u := by
  obtain ⟨w, token, rest, u, read, thrown⟩ := execute_throw opcode ran
  obtain ⟨-, -, -, positive, low⟩ := throwTo_ok thrown
  have frames : u.stack.frames = s.stack.frames :=
    (stays_of_effects ((does_operandValues i : Does false false _).of_ok read)).frames
  have valid : ¬(token = 0 ∨ u.stack.depth < token.toNat) := by
    rintro (rfl | deep)
    · cases positive
    · omega
  have depth := depth_throwTo (w := w) valid
  rw [thrown] at depth
  refine ⟨token, depth, ?_, w, rest, u, read⟩
  rwa [CallStack.depth, frames] at low

/-! ## Runs of a routine -/

/-- Control belongs to the routine `r`, which runs in the frame `f` over `fs`: it stands at one of
its instructions, unless the story is over, or it is with routines that `r` called and comes back
from them to one of its instructions. -/
inductive Within (r : Routine) (f : Frame) (fs : List Frame) (s : Machine) : Prop where
  | here (locals : List Word) (frames : s.stack.frames = { f with locals } :: fs)
      (place : s.state = .quit ∨ r.Starts s.pc) : Within r f fs s
  | above (locals : List Word) (g : Frame) (ws : List Word)
      (rests : s.stack.Rests g ({ f with locals } :: fs) ws) (place : r.Starts g.returnAddress) :
      Within r f fs s

variable {r : Routine} {m : Memory} {version : Nat} {f : Frame} {fs : List Frame}

theorem Within.of_lingers {s t : Machine} {locals : List Word}
    (frames : s.stack.frames = { f with locals } :: fs) (lingers : Lingers s t)
    (place : t.state = .quit ∨ r.Starts t.pc) : Within r f fs t := by
  obtain ⟨locals', frames'⟩ := lingers.frames _ _ frames
  exact .here locals' frames' place

/-- A call that adds no frame goes on at once. -/
theorem lingers_call (call : i.opcode.isCall = true) (ran : execute i s = .ok () t)
    (flat : t.stack.depth ≤ s.stack.depth) : Lingers s t := by
  rw [execute_eq, wayOf_call call, bind_assoc, run_bind] at ran
  cases read : operandValues i s with
  | error e u =>
      rw [read] at ran
      cases ran
  | ok args u =>
      have operands : Lingers s u := (Bears.closed.operandValues i).of_ok read
      have frames : u.stack.frames = s.stack.frames :=
        (stays_of_effects ((does_operandValues i : Does false false _).of_ok read)).frames
      simp only [read] at ran
      cases args with
      | nil => cases ran
      | cons packed rest =>
          change ((callPacked packed rest i.store i.next >>= fun _ => pure .onward) >>= go) u
            = .ok () t at ran
          rw [go_onward] at ran
          unfold callPacked at ran
          by_cases zero : packed = 0
          · rw [if_pos zero] at ran
            exact trans_of Lingers operands ((Bears.closed.storeResult i.store 0).of_ok ran)
          · rw [if_neg zero] at ran
            obtain ⟨defaults, -, -, entered⟩ := callRoutine_ok ran
            have depth : t.stack.depth = u.stack.depth + 1 := by
              rw [CallStack.depth, entered, List.length_cons, CallStack.depth]
            -- A routine that is entered adds a frame.
            rw [depth, CallStack.depth, frames, CallStack.depth] at flat
            omega

/-- A call is followed by the instruction after it, at once or when the routine called returns. -/
theorem Within.call {locals : List Word} (closed : r.Closed m version) (mem : i ∈ r.instructions)
    (frames : s.stack.frames = { f with locals } :: fs) (next : s.nextInstruction? = some i)
    (call : i.opcode.isCall = true) (ran : step s = .ok () t) : Within r f fs t := by
  have passes : i.opcode.isTerminal = false := by
    revert call
    cases i.opcode <;> simp [Opcode.isCall, Opcode.isTerminal]
  have start := closed.onward i mem passes
  by_cases pushed : s.stack.depth < t.stack.depth
  · obtain ⟨g, frames', -, back, base⟩ := step_call next call ran pushed
    rw [frames] at frames'
    refine .above locals g t.stack.values ⟨base, ⟨[], g.locals, frames', by simp⟩, ?_⟩
      (back ▸ start)
    exact List.suffix_refl _
  · obtain ⟨j, decoded, u, -, hd, executed, rfl⟩ := step_ok ran
    cases Option.some.inj ((nextInstruction?_eq hd).symm.trans next)
    have lingers := lingers_call call executed (Nat.not_lt.mp pushed)
    have place : r.Starts u.pc := by
      rw [lingers.pc]
      exact start
    exact .of_lingers (s := s.fetched decoded i) frames ⟨lingers.pc, lingers.frames⟩ (.inr place)

/-- After the instruction that ends the story, the story is over. -/
theorem quit_of_onward {way : Way} {v : Machine} (quits : i.opcode = .quit)
    (done : wayOf i s = .ok way v) : v.state = .quit := by
  simp only [wayOf, quits, run_bind, run_quit] at done
  by_cases ended : s.state = .quit
  · rw [if_pos ended] at done
    cases done
    exact ended
  · rw [if_neg ended] at done
    cases done
    rfl

/-- A step from one of the instructions of a routine, unless it leaves the routine. -/
theorem Within.step_here {locals : List Word} (closed : r.Closed m version)
    (mem : i ∈ r.instructions)
    (frames : s.stack.frames = { f with locals } :: fs) (next : s.nextInstruction? = some i)
    (noRestart : i.opcode ≠ .restart) (ran : step s = .ok () t) (deep : fs.length < t.stack.depth) :
    Within r f fs t := by
  have depth : s.stack.depth = fs.length + 1 := by rw [CallStack.depth, frames, List.length_cons]
  -- A call is the one instruction of the routine that adds a frame.
  by_cases call : i.opcode.isCall = true
  · exact .call closed mem frames next call ran
  obtain ⟨j, decoded, u, -, hd, executed, rfl⟩ := step_ok ran
  cases Option.some.inj ((nextInstruction?_eq hd).symm.trans next)
  by_cases throws : i.opcode = .throwFrame
  · -- No token names a frame above the newest one.
    obtain ⟨token, after, low, -⟩ := depth_execute_throw throws executed
    change token.toNat ≤ s.stack.depth at low
    change fs.length < u.stack.depth at deep
    omega
  rw [execute_eq, run_bind] at executed
  split at executed
  case h_2 => cases executed
  rename_i way v done
  have lingers := (lingers_wayOf noRestart throws (Bool.eq_false_iff.mpr call)).of_ok done
  -- Where the instruction may lead is what the routine was read for: onward, or to a target.
  have permits := yields_wayOf noRestart throws (closed.jumps i mem) _ _ _ done
  cases way with
  | onward =>
      cases executed
      have place : u.state = .quit ∨ r.Starts u.pc := by
        rw [lingers.pc]
        by_cases terminal : i.opcode.isTerminal = true
        · exact .inl (quit_of_onward (permits terminal) done)
        · exact .inr (closed.onward i mem (Bool.eq_false_iff.mpr terminal))
      exact .of_lingers (s := s.fetched decoded i) frames ⟨lingers.pc, lingers.frames⟩ place
  | goto a =>
      cases executed
      obtain ⟨locals', frames'⟩ := lingers.frames _ _ frames
      exact .here locals' frames' (.inr (closed.targets i mem a permits))
  -- A return takes the frame away, which was supposed to be there still.
  | leave w =>
      have shrunk := depth_returnFrom w v
      change returnFrom w v = .ok () u at executed
      rw [executed] at shrunk
      obtain ⟨locals', frames'⟩ := lingers.frames _ _ frames
      change fs.length < u.stack.depth at deep
      change u.stack.depth = v.stack.frames.length - 1 at shrunk
      rw [shrunk, frames', List.length_cons] at deep
      omega

/-- A result may be kept in a local of the caller, but changes no frame else. -/
theorem Delivered.frames {store : Option Variable} {w : Word} {values : List Word}
    (h : s.Delivered store w (f :: fs) values) :
    ∃ locals, s.stack.frames = { f with locals } :: fs := by
  match store, h with
  | none, h => exact ⟨f.locals, h.1⟩
  | some .stack, h => exact ⟨f.locals, h.1⟩
  | some (.globalVar _), h => exact ⟨f.locals, h.1⟩
  | some (.localVar _), h =>
      obtain ⟨g, gs, top, -, frames⟩ := h.1
      cases top
      exact ⟨_, frames⟩

/-- A routine that was called goes on, or it returns to where it was called. -/
theorem Within.of_rests {locals : List Word} {g : Frame} {ws : List Word}
    (place : r.Starts g.returnAddress)
    (h : s.stack.Rests g ({ f with locals } :: fs) ws ∨ s.Returned g ({ f with locals } :: fs) ws) :
    Within r f fs s := by
  rcases h with rests | returned
  · exact .above locals g ws rests place
  · obtain ⟨w, -, delivered⟩ := returned.result
    obtain ⟨locals', frames⟩ := delivered.frames
    exact .here locals' frames (.inr (returned.pc ▸ place))

/-- A step of a routine that was called, which may end in a return to the caller. -/
theorem Within.step_above {locals : List Word} {g : Frame} {ws : List Word}
    (rests : s.stack.Rests g ({ f with locals } :: fs) ws) (place : r.Starts g.returnAddress)
    (noRestart : ¬s.Restarts) (ran : step s = .ok () t) (deep : fs.length < t.stack.depth) :
    Within r f fs t := by
  have above (token : Word) (thrown : s.throwToken? = some token) :
      fs.length + 1 < token.toNat := by
    obtain ⟨i, decoded, u, -, hd, executed, rfl⟩ := step_ok ran
    have opcode : i.opcode = .throwFrame := by
      refine Classical.byContradiction fun other => ?_
      simp [throwToken?, hd, other] at thrown
    obtain ⟨token', after, -, w, rest, v, read⟩ := depth_execute_throw opcode executed
    have same : token' = token := by simpa [throwToken?, hd, opcode, read] using thrown
    change fs.length < u.stack.depth at deep
    rw [← same]
    omega
  refine .of_rests place (step_rests rests (.inl (List.cons_ne_nil _ _)) ?_ above ran)
  exact fun i next => not_restarts noRestart next

/-- An instruction that does not begin anew, an answer to a request for input, or whatever the host
does in between. -/
inductive Advances : Machine → Machine → Prop where
  | step {s t : Machine} (noRestart : ¬s.Restarts) (ran : Machine.step s = .ok () t) : Advances s t
  | line {s t : Machine} (line : String) (ran : provideLine line s = .ok () t) : Advances s t
  | char {s t : Machine} (c : Char) (ran : provideChar c s = .ok () t) : Advances s t
  | hosted (s : Machine) (host : Host) : Advances s { s with host }

/-- A run during which the frame that was the newest in `s` is not left, and the bytes from `low` on
and below `high` stay as they were.  Beginning anew would drop every frame. -/
inductive Retained (low high : Nat) (s : Machine) : Machine → Prop where
  | start : Retained low high s s
  | move {t u : Machine} (before : Retained low high s t) (advances : Advances t u)
      (deep : s.stack.depth ≤ u.stack.depth)
      (bytes : ∀ x, low ≤ x → x < high → u.memory.byteAt x = s.memory.byteAt x) :
      Retained low high s u

/-- Whatever is kept along a run was decoded from an image that agrees. -/
theorem Advances.drawn {X : Nat → Prop} {m₀ : Memory} (advances : Advances s t)
    (drawn : s.code.decoded.Drawn X m₀ version) (agrees : m₀.Agrees X s.memory) :
    t.code.decoded.Drawn X m₀ version ∧ t.memory.size = s.memory.size := by
  cases advances with
  | hosted => exact ⟨drawn, rfl⟩
  | line line ran =>
      have sheds := sheds_of_effects ((does_provideLine line).of_ok ran)
      exact ⟨drawn.of_sheds sheds, sheds.size⟩
  | char c ran =>
      have does : Does false true (provideChar c) := does_provideChar c
      have sheds := sheds_of_effects (does.of_ok ran)
      exact ⟨drawn.of_sheds sheds, sheds.size⟩
  | step noRestart ran =>
      obtain ⟨i, decoded, u, -, hd, executed, rfl⟩ := step_ok ran
      have sheds := sheds_of_effects ((does_execute i).of_ok executed)
      have fetched : (s.fetched decoded i).code.decoded.Drawn X m₀ version :=
        drawn.of_decode agrees hd
      have drawn' : u.code.decoded.Drawn X m₀ version := fetched.of_sheds sheds
      exact ⟨drawn', sheds.size⟩

/-- What holds of every state of a run of a routine. -/
structure Follows (r : Routine) (f : Frame) (fs : List Frame) (m : Memory) (version : Nat)
    (s : Machine) : Prop where
  drawn : s.code.decoded.Drawn (fun x => r.address ≤ x ∧ x < r.stop) m version
  agrees : m.Agrees (fun x => r.address ≤ x ∧ x < r.stop) s.memory
  within : Within r f fs s

/-- Where an instruction of the routine begins, the next step carries out this one. -/
theorem Follows.next (follows : Follows r f fs m version s) (closed : r.Closed m version)
    (mem : i ∈ r.instructions) (address : i.address = s.pc) : s.nextInstruction? = some i := by
  have inside := closed.inside i mem
  obtain ⟨c, hd⟩ := follows.drawn.decode_eq follows.agrees (closed.decoded i mem)
    fun x low high => ⟨Nat.le_trans inside.1 low, Nat.lt_of_lt_of_le high inside.2⟩
  exact nextInstruction?_eq (address ▸ hd)

theorem Follows.move (closed : r.Closed m version) (follows : Follows r f fs m version s)
    (advances : Advances s t) (deep : fs.length < t.stack.depth)
    (bytes : ∀ x, r.address ≤ x → x < r.stop → t.memory.byteAt x = m.byteAt x) :
    Follows r f fs m version t := by
  obtain ⟨drawn, size⟩ := advances.drawn follows.drawn follows.agrees
  refine ⟨drawn, ⟨size.trans follows.agrees.size, fun x inside => bytes x inside.1 inside.2⟩, ?_⟩
  -- Either the routine runs itself, or one does that it called.
  cases follows.within with
  | here locals frames place =>
      have answered (going : s.state ≠ .quit) (lingers : Lingers s t) : Within r f fs t :=
        .of_lingers frames lingers (.inr (lingers.pc ▸ place.resolve_left going))
      cases advances with
      | hosted => exact .here locals frames place
      | line line ran => exact answered (not_quit_of_line ran) (lingers_provideLine ran)
      | char c ran => exact answered (not_quit_of_char ran) (lingers_provideChar ran)
      | step noRestart ran =>
          obtain ⟨i, decoded, u, running, hd, executed, rfl⟩ := step_ok ran
          obtain ⟨j, mem, address⟩ := place.resolve_left (by rw [running]; exact nofun)
          have next := follows.next closed mem address
          exact .step_here closed mem frames next (not_restarts noRestart next) ran deep
  | above locals g ws rests place =>
      have callers : { f with locals } :: fs ≠ [] := List.cons_ne_nil _ _
      cases advances with
      | step noRestart ran => exact .step_above rests place noRestart ran deep
      | line line ran => exact .of_rests place (Moves.rests (.line line ran) rests callers)
      | char c ran => exact .of_rests place (Moves.rests (.char c ran) rests callers)
      | hosted host => exact .above locals g ws rests place

/-- The whole run of a routine: from its entry on, as long as its frame is there. -/
theorem follows_of_retained (closed : r.Closed m version) (same : s.memory = m)
    (coherent : s.Coherent) (decodes : s.code.decoded.version = version)
    (frames : s.stack.frames = f :: fs) (entry : r.Starts s.pc)
    (run : s.Retained r.address r.stop t) : Follows r f fs m version t := by
  induction run with
  | start =>
      subst same
      exact ⟨DecodeCache.Coherent.drawn coherent decodes _, .refl _ _,
        .here f.locals frames (.inr entry)⟩
  | move before advances deep bytes ih =>
      refine ih.move closed advances ?_ (same ▸ bytes)
      rwa [CallStack.depth, frames] at deep

/-- Let a routine be read whose branches and jumps lead to its own instructions.  If it is entered
with the newest frame its own, then wherever control stands while this frame is the newest one, it
stands at an instruction that was read, and this is the instruction that is carried out. -/
theorem carries_out_what_was_read {a : Nat} {c c' : DecodeCache}
    (fresh : c.Coherent s.memory) (version : c.version = s.header.version)
    (read : Routine.read s.memory a c = .ok r c')
    (closed : (FlowGraph.build r).external = []) (jumps : r.JumpsAreConstant)
    (coherent : s.Coherent) (decodes : s.code.decoded.version = s.header.version)
    (frames : s.stack.frames = f :: fs) (entry : s.pc = r.entry)
    (run : s.Retained r.address r.stop t) (innermost : t.stack.depth = s.stack.depth)
    (running : t.state = .running) :
    (∃ locals, t.stack.frames = { f with locals } :: fs) ∧
      ∃ i ∈ r.instructions, i.address = t.pc ∧ t.nextInstruction? = some i := by
  obtain ⟨closed, start⟩ := Routine.closed_of_read fresh version read closed jumps
  have follows := follows_of_retained closed rfl coherent decodes frames (entry ▸ start) run
  cases follows.within with
  | here locals frames' place =>
      obtain ⟨i, mem, address⟩ := place.resolve_left (by rw [running]; exact nofun)
      exact ⟨⟨locals, frames'⟩, i, mem, address, follows.next closed mem address⟩
  | above locals g ws rests place =>
      -- A routine that was called has a frame of its own on top.
      have higher := rests.length_lt_depth
      rw [innermost, CallStack.depth, frames] at higher
      simp at higher

/-- An image whose main routine calls another one again and again, as long as that returns something
other than 0. -/
def callsUntilFalse : Array Byte :=
  overwrite (overwrite (overwrite (Array.replicate 96 0) 0
    [3, 0, 0, 0, 0, 0, 0, 65, 0, 0, 0, 0, 0, 0, 255, 255])
    65 [0xe0, 0x3f, 0, 40, 0, 0xa0, 0, 0xc5, 0x8c, 0xff, 0xf7, 0xba])
    81 [0xb1]

/-- The machine after this story was loaded. -/
def looping : Machine := (load callsUntilFalse {} {}).toOption.getD default

/-- Its main routine. -/
def loop : Routine :=
  { address := 64, defaults := []
    instructions := [
      { address := 65, length := 5, opcode := .callVS, operands := [.large 40]
        store := some .stack, branch := none, text := none },
      { address := 70, length := 3, opcode := .jz, operands := [.var .stack]
        store := none, branch := some ⟨true, 5, .address 76⟩, text := none },
      { address := 73, length := 3, opcode := .jump, operands := [.large 0xfff7]
        store := none, branch := none, text := none },
      { address := 76, length := 1, opcode := .quit, operands := []
        store := none, branch := none, text := none }] }

/-- The machine after some instructions. -/
def loopingAfter : Nat → Machine
  | 0 => looping
  | n + 1 => endState (step (loopingAfter n))

theorem carries_out_end_of_loop :
    looping.Retained 64 77 (loopingAfter 3) ∧ (loopingAfter 1).stack.depth = 2 ∧
      ∃ i ∈ loop.instructions, i.address = (loopingAfter 3).pc ∧
        (loopingAfter 3).nextInstruction? = some i := by
  have loaded : load callsUntilFalse {} {} = .ok looping := by
    unfold looping
    exact Except.eq_ok_getD _ (by decide +kernel)
  obtain ⟨tidy, unkept⟩ := kept_load loaded
  have coherent : looping.Coherent := fun a i kept => by simp [unkept a] at kept
  have read : Routine.read looping.memory 64 looping.code.decoded = .ok loop _ :=
    eq_ok_of_value? (by decide +kernel)
  have advances (n : Nat) (ran : value? (step (loopingAfter n)) = some ())
      (other : (loopingAfter n).nextInstruction?.map (·.opcode) ≠ some .restart) :
      Advances (loopingAfter n) (loopingAfter (n + 1)) := by
    refine .step ?_ (eq_ok_of_value? ran)
    rintro ⟨i, next, opcode⟩
    rw [next, Option.map_some, opcode] at other
    exact other rfl
  -- None of these instructions writes anything.
  have move (n : Nat) (before : looping.Retained 64 77 (loopingAfter n))
      (ran : value? (step (loopingAfter n)) = some ())
      (other : (loopingAfter n).nextInstruction?.map (·.opcode) ≠ some .restart)
      (deep : looping.stack.depth ≤ (loopingAfter (n + 1)).stack.depth)
      (same : (loopingAfter (n + 1)).memory.bytes = looping.memory.bytes) :
      looping.Retained 64 77 (loopingAfter (n + 1)) := by
    refine before.move (advances n ran other) deep fun x _ _ => ?_
    rw [Memory.byteAt, same, Memory.byteAt]
  have one :=
    move 0 .start (by decide +kernel) (by decide +kernel) (by decide +kernel) (by decide +kernel)
  have two :=
    move 1 one (by decide +kernel) (by decide +kernel) (by decide +kernel) (by decide +kernel)
  have three :=
    move 2 two (by decide +kernel) (by decide +kernel) (by decide +kernel) (by decide +kernel)
  obtain ⟨f, frames⟩ : ∃ f, looping.stack.frames = [f] :=
    List.length_eq_one_iff.mp (by decide +kernel)
  obtain ⟨-, found⟩ := carries_out_what_was_read coherent tidy.version read (by decide +kernel)
    (by unfold Routine.JumpsAreConstant; decide +kernel) coherent tidy.version frames
      (by decide +kernel)
    three (by decide +kernel) (by decide +kernel)
  exact ⟨three, by decide +kernel, found⟩

end Machine

end ZMachine
