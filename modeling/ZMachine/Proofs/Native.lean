/-
  Compiled steps and instructions side by side.

  Compiled code keeps the locals of the running routine to itself; the
  interpreter keeps them in the frame.  All else that operations on values
  look at is the same on both sides, so a compiled step does to values what
  its instruction does, and goes the same way.
-/
import Mathlib.Data.Option.Basic
import ZMachine.Engine.Basic
import ZMachine.Proofs.Decoding
import ZMachine.Proofs.Observation
import ZMachine.Proofs.Outcomes
import ZMachine.Proofs.Printing
import ZMachine.Proofs.Translation
import ZMachine.Proofs.Ways

namespace ZMachine

variable {α β : Type}

namespace Engine

theorem run_onMachine (x : RunM α) (e : Engine) :
    onMachine x e =
      match x e.machine with
      | .ok a s => .ok a { e with machine := s }
      | .error h s => .error h { e with machine := s } := by
  cases h : x e.machine <;> simp [onMachine, h]

theorem run_act (x : MachineM α) (e : Engine) :
    act x e =
      match x e.machine with
      | .ok a s => .ok a { e with machine := s }
      | .error g s => .error (.fault g) { e with machine := s } := by
  rw [act, run_onMachine]
  simp only [liftM, monadLift, MonadLift.monadLift]
  cases x e.machine <;> rfl

theorem machine_onMachine (x : RunM α) (e : Engine) :
    (endState (onMachine x e)).machine = endState (x e.machine) := by
  rw [run_onMachine]
  cases x e.machine <;> rfl

theorem machine_act (x : MachineM α) (e : Engine) :
    (endState (act x e)).machine = endState (x e.machine) := by
  rw [run_act]
  cases x e.machine <;> rfl

theorem act_bind (x : MachineM α) (k : α → MachineM β) :
    act (x >>= k) = act x >>= fun a => act (k a) := by
  funext e
  simp only [Bind.bind, EStateM.bind, run_act]
  cases x e.machine with
  | ok a s => rfl
  | error g s => rfl

theorem onValues_readLine (textBuffer parseBuffer : Word) :
    Machine.OnValues true (readLine textBuffer parseBuffer) := by
  refine Machine.OnValues.showStatus.bind fun _ =>
    (Machine.OnValues.lineCapacity _).bind fun capacity => ?_
  refine (Machine.OnValues.hostLine capacity).bind fun line => ?_
  cases line with
  | none => exact .throw _
  | some line => exact .finishLine _ _ line

theorem onValues_readChar : Machine.OnValues true readChar := by
  refine Machine.OnValues.hostChar.bind fun c => ?_
  cases c with
  | none => exact .throw _
  | some c => exact .finishChar c

end Engine

/-! ## Levels -/

/-- Properties of engines and machines that last while the machine acts. -/
structure Lasting (J : Engine → Prop) (K : Machine → Prop) : Prop where
  engine : ∀ e s, J e → e.machine.Sheds s → e.machine.Stays s → J { e with machine := s }
  machine : ∀ s s', K s → s.Sheds s' → K s'

/-- Compiled code with its locals, run by an engine, is level with a machine that runs in the frame
`f`: the operations on values see no difference, and the frame holds the locals. -/
structure Level (J : Engine → Prop) (K : Machine → Prop) (pc nested : Nat) (f : Frame)
    (fs : List Frame) (code : List Word × Engine) (s : Machine) : Prop where
  bare : s.bare = code.2.machine.bare
  frames : s.stack.frames = { f with locals := code.1 } :: fs
  pc : s.pc = pc
  nested : s.nested = nested
  kept : J code.2
  held : K s

/-- Compiled code and the machine fail alike. -/
def Blames (h : Halt) (_ : List Word × Engine) (g : Fault) (_ : Machine) : Prop :=
  ∃ g', h = .fault g' ∧ g'.root = g.root

namespace Machine

variable {J : Engine → Prop} {K : Machine → Prop} {pc nested : Nat} {f : Frame} {fs : List Frame}

/-- Compiled code and the machine are level before, and so after, unless they fail alike. -/
abbrev Keeps (J : Engine → Prop) (K : Machine → Prop) (pc nested : Nat) (f : Frame)
    (fs : List Frame) (V : α → β → Prop) (x : StateT (List Word) EngineM α) (y : MachineM β) :
    Prop :=
  Lockstep (Level J K pc nested f fs) Blames V (flat x) y

theorem Keeps.pure {V : α → β → Prop} {a : α} {b : β} (h : V a b) :
    Keeps J K pc nested f fs V (Pure.pure a) (Pure.pure b) := Lockstep.pure h

theorem Keeps.bind {γ δ : Type} {V : α → β → Prop} {W : γ → δ → Prop}
    {x : StateT (List Word) EngineM α} {y : MachineM β} {g : α → StateT (List Word) EngineM γ}
    {k : β → MachineM δ} (first : Keeps J K pc nested f fs V x y)
    (rest : ∀ a b, V a b → Keeps J K pc nested f fs W (g a) (k b)) :
    Keeps J K pc nested f fs W (x >>= g) (y >>= k) := by
  unfold Keeps
  rw [flat_bind]
  exact Lockstep.bind first rest

theorem Keeps.discard {V : α → β → Prop} {x : StateT (List Word) EngineM α} {y : MachineM β}
    (h : Keeps J K pc nested f fs V x y) :
    Keeps J K pc nested f fs Eq (Functor.discard x) (Functor.discard y) := by
  change Keeps J K pc nested f fs Eq ((fun _ => PUnit.unit) <$> x) ((fun _ => PUnit.unit) <$> y)
  rw [map_eq_pure_bind, map_eq_pure_bind]
  exact h.bind fun _ _ _ => .pure rfl

theorem keeps_act (lasting : Lasting J K) {x : MachineM α} (values : OnValues true x) :
    Keeps J K pc nested f fs Eq (liftM (Engine.act x)) x := by
  rintro ⟨locals, e⟩ s level
  have joint := values.joint level.bare
  rw [flat_lift, Engine.run_act]
  generalize x s = here at joint
  generalize x e.machine = there at joint
  cases joint with
  | error same => exact .error ⟨_, rfl, congrArg Fault.root same.symm⟩
  | @ok _ s' _ u h =>
      -- The bare machine is the same by the action itself; all else lasts through its effects.
      obtain ⟨rfl, bare, machine, engine⟩ := h
      have stays := stays_of_effects machine
      refine .ok ⟨rfl, bare, stays.frames.trans level.frames, stays.pc.trans level.pc,
        stays.nested.trans level.nested, ?_, ?_⟩
      · exact lasting.engine e u level.kept (sheds_of_effects engine) (stays_of_effects engine)
      · exact lasting.machine s s' level.held (sheds_of_effects machine)

theorem keeps_pop (lasting : Lasting J K) :
    Keeps J K pc nested f fs Eq (liftM (Engine.act pop)) pop :=
  keeps_act lasting .pop

/-! ## Locals -/

theorem run_readLocal {s : Machine} {g : Frame} (h : s.stack.frames = g :: fs) (index : Byte) :
    readVariable (.localVar index) s =
      match g.locals[index.toNat]? with
      | some w => .ok w s
      | none => .error (.invalidLocal index.toNat g.locals.length) s := by
  have current : s.stack.readLocal index = g.local? index := by
    simp only [CallStack.readLocal, CallStack.current, h]
    rfl
  change (liftM (s.stack.readLocal index) : MachineM Word) s = _
  rw [current]
  unfold Frame.local?
  cases g.locals[index.toNat]? <;> rfl

theorem run_writeLocal {s : Machine} {g : Frame} (h : s.stack.frames = g :: fs) (index : Byte)
    (w : Word) :
    writeVariable (.localVar index) w s =
      if index.toNat < g.locals.length then
        .ok () { s with stack := { s.stack with
          frames := { g with locals := g.locals.set index.toNat w } :: fs } }
      else .error (.invalidLocal index.toNat g.locals.length) s := by
  have current : s.stack.writeLocal index w =
      if index.toNat < g.locals.length then
        .ok { s.stack with frames := { g with locals := g.locals.set index.toNat w } :: fs }
      else .error (.invalidLocal index.toNat g.locals.length) := by
    simp only [CallStack.writeLocal, CallStack.current, h, Frame.setLocal, Frame.localCount]
    change (if index.toNat < g.locals.length then _ else _ : Except Fault Frame) >>= _ = _
    split <;> rfl
  change onStack (·.writeLocal index w) s = _
  rw [run_onStack, current]
  by_cases bound : index.toNat < g.locals.length
  · rw [if_pos bound, if_pos bound]
  · rw [if_neg bound, if_neg bound]

/-- Writing a local is not seen by operations on values. -/
theorem bare_setLocals {s : Machine} {g : Frame} (h : s.stack.frames = g :: fs)
    (locals : List Word) :
    bare { s with stack := { s.stack with frames := { g with locals } :: fs } } = s.bare := by
  refine bare_withStack (s := s) (t := s) rfl (b := s.stack) ?_
  simp [CallStack.bare, h, Frame.bare]

variable (invoke : Nat → List Word → EngineM (Option Word))

theorem keeps_readVariable (lasting : Lasting J K) (v : Variable) :
    Keeps J K pc nested f fs Eq ((Engine.helpers invoke).readVariable v) (readVariable v) := by
  cases v with
  | stack => exact keeps_pop lasting
  | globalVar i => exact keeps_act lasting (.readGlobal i)
  | localVar i =>
      rintro ⟨locals, e⟩ s level
      rw [run_readLocal level.frames]
      change Joint _ _ (flat (match locals[i.toNat]? with
        | some w => pure w
        | none => liftM (throw (.fault (.invalidLocal i.toNat locals.length)) : EngineM Word) :
          StateT (List Word) EngineM Word) (locals, e)) _
      cases locals[i.toNat]? with
      | some w => exact .ok ⟨rfl, level⟩
      | none => exact .error ⟨_, rfl, rfl⟩

theorem keeps_writeVariable (lasting : Lasting J K) (v : Variable) (w : Word) :
    Keeps J K pc nested f fs Eq ((Engine.helpers invoke).writeVariable v w)
      (writeVariable v w) := by
  cases v with
  | stack => exact keeps_act lasting (.push w)
  | globalVar i => exact keeps_act lasting (.writeGlobal i w)
  | localVar i =>
      rintro ⟨locals, e⟩ s level
      have effects : Effects false true s (endState (writeVariable (.localVar i) w s)) :=
        does_writeLocal i w s
      rw [run_writeLocal level.frames] at effects ⊢
      change Joint _ _ (flat (if i.toNat < locals.length then set (locals.set i.toNat w)
        else liftM (throw (.fault (.invalidLocal i.toNat locals.length)) : EngineM Unit) :
          StateT (List Word) EngineM Unit) (locals, e)) _
      split
      · rename_i bound
        rw [if_pos bound] at effects
        refine .ok ⟨rfl, ?_, rfl, level.pc, level.nested, level.kept, ?_⟩
        · rw [bare_setLocals level.frames]
          exact level.bare
        · exact lasting.machine s _ level.held (sheds_of_effects effects)
      · exact .error ⟨_, rfl, rfl⟩

theorem keeps_peekVariable (lasting : Lasting J K) (v : Variable) :
    Keeps J K pc nested f fs Eq ((Engine.helpers invoke).peekVariable v) (peekVariable v) := by
  cases v with
  | stack => exact keeps_act lasting .peek
  | localVar i => exact keeps_readVariable invoke lasting (.localVar i)
  | globalVar i => exact keeps_readVariable invoke lasting (.globalVar i)

theorem keeps_replaceVariable (lasting : Lasting J K) (v : Variable) (w : Word) :
    Keeps J K pc nested f fs Eq ((Engine.helpers invoke).replaceVariable v w)
      (replaceVariable v w) := by
  cases v with
  | stack => exact keeps_act lasting (.replaceTop w)
  | localVar i => exact keeps_writeVariable invoke lasting (.localVar i) w
  | globalVar i => exact keeps_writeVariable invoke lasting (.globalVar i) w

theorem keeps_store (lasting : Lasting J K) (target : Option Variable) (w : Word) :
    Keeps J K pc nested f fs Eq ((Engine.helpers invoke).store target w)
      (storeResult target w) := by
  cases target with
  | none => exact .pure rfl
  | some v => exact keeps_writeVariable invoke lasting v w

/-! ## Operands -/

/-- Values that operands can have: a constant operand in front has its own value. -/
structure Fits (operands : List Operand) (values : List Word) : Prop where
  length : values.length = operands.length
  constant : ∀ w, operands.head?.bind Operand.constant? = some w → values.head? = some w

theorem keeps_operand (lasting : Lasting J K) (o : Operand) :
    Keeps J K pc nested f fs (fun a b => a = b ∧ ∀ w, o.constant? = some w → a = w)
      ((Engine.helpers invoke).operand o) (operandValue o) := by
  cases o with
  | large w => exact .pure ⟨rfl, fun v h => Option.some.inj h⟩
  | small b => exact .pure ⟨rfl, fun v h => Option.some.inj h⟩
  | var v => exact (keeps_readVariable invoke lasting v).mono fun a b h => ⟨h, nofun⟩

theorem keeps_operands_length (lasting : Lasting J K) (operands : List Operand) :
    Keeps J K pc nested f fs (fun a b => a = b ∧ a.length = operands.length)
      (operands.mapM (Engine.helpers invoke).operand) (operands.mapM operandValue) := by
  induction operands with
  | nil => exact .pure ⟨rfl, rfl⟩
  | cons o operands ih =>
      rw [List.mapM_cons, List.mapM_cons]
      refine Keeps.bind (keeps_operand invoke lasting o) fun a b hab => ?_
      refine Keeps.bind ih fun as bs habs => ?_
      exact .pure ⟨by rw [hab.1, habs.1], by simp [habs.2]⟩

theorem keeps_operands (lasting : Lasting J K) (operands : List Operand) :
    Keeps J K pc nested f fs (fun a b => a = b ∧ Fits operands a)
      (operands.mapM (Engine.helpers invoke).operand) (operands.mapM operandValue) := by
  cases operands with
  | nil => exact .pure ⟨rfl, rfl, nofun⟩
  | cons o operands =>
      rw [List.mapM_cons, List.mapM_cons]
      refine Keeps.bind (keeps_operand invoke lasting o) fun a b hab => ?_
      refine Keeps.bind (keeps_operands_length invoke lasting operands) fun as bs habs => ?_
      refine .pure ⟨by rw [hab.1, habs.1], by simp [habs.2], fun w hw => ?_⟩
      rw [hab.2 w hw]
      rfl

end Machine

/-! ## Ways of control -/

/-- Compiled control goes where the way of the instruction `i` leads. -/
inductive Scope.Heads (e : Scope) (i : Instruction) : Control → Way → Prop where
  | next : Heads e i .next .onward
  | passes {n : Nat} (h : e.graph.indexOf? i.next = some n) : Heads e i (.block n) .onward
  | jumps {a n : Nat} (h : e.graph.indexOf? a = some n) : Heads e i (.block n) (.goto a)
  | leaves (w : Word) : Heads e i (.leave w) (.leave w)

namespace Scope

variable {e : Scope} {i : Instruction}

/-- A compiled branch goes where the branch of its instruction leads. -/
theorem heads_branch {b : Option CodeBranch} {pool more : List String}
    (h : e.branchOf i pool = .ok b more) (passed : Bool) :
    e.Heads i (Helpers.branch b passed) (Machine.branchWay i passed) := by
  have shape := branchOf_ok h
  unfold Machine.branchWay
  cases htest : i.branch with
  | none =>
      rw [htest] at shape
      subst shape
      exact .next
  | some test =>
      rw [htest] at shape
      obtain ⟨c, rfl, condition, otherwise, target⟩ := shape
      change e.Heads i (c.follow passed) _
      unfold CodeBranch.follow
      rw [condition]
      dsimp only
      -- Where the test passes the target decides, else control goes on behind the instruction.
      split
      · cases ht : test.target with
        | returnFalse =>
            rw [ht] at target
            rw [target]
            exact .leaves 0
        | returnTrue =>
            rw [ht] at target
            rw [target]
            exact .leaves 1
        | address a =>
            rw [ht] at target
            obtain ⟨n, taken, hn⟩ := target
            rw [taken]
            exact .jumps hn
      · exact .passes otherwise

/-- A branch that there is goes somewhere. -/
theorem branch_ne_next {b : Option CodeBranch} (h : b.isSome = true) (passed : Bool) :
    Helpers.branch b passed ≠ .next := by
  obtain ⟨c, rfl⟩ := Option.isSome_iff_exists.mp h
  change c.follow passed ≠ .next
  unfold CodeBranch.follow
  split
  · split <;> simp
  · simp

end Scope

/-! ## Operations on values -/

theorem Lockstep.yields {σ τ ε ε' : Type} {S : σ → τ → Prop} {F : ε → σ → ε' → τ → Prop}
    {V : α → β → Prop} {Q : β → Prop} {x : EStateM ε σ α} {y : EStateM ε' τ β}
    (h : Lockstep S F V x y) (hQ : Yields Q y) : Lockstep S F (fun a b => V a b ∧ Q b) x y := by
  intro s t hs
  have joint := h s t hs
  cases hy : y t with
  | error e t' =>
      rw [hy] at joint
      generalize x s = r at joint
      cases joint with
      | error h => exact .error h
  | ok b t' =>
      rw [hy] at joint
      have property := hQ t b t' hy
      generalize x s = r at joint
      cases joint with
      | ok h => exact .ok ⟨⟨h.1, property⟩, h.2⟩

/-- Compiled control goes where the way of the instruction leads, and somewhere else than to the
next step if the action ends its block. -/
def Scope.Turns (e : Scope) (i : Instruction) (action : Action) (c : Control) (w : Way) : Prop :=
  e.Heads i c w ∧ (action.endsBlock = true → c ≠ .next)

namespace Machine

variable {J : Engine → Prop} {K : Machine → Prop} {pc nested : Nat} {f : Frame} {fs : List Frame}
  {scope : Scope} {i : Instruction} {version : Nat}
  (invoke : Nat → List Word → EngineM (Option Word))

theorem keeps_perform (version : Nat) (lasting : Lasting J K) {opcode : Opcode}
    (h : opcode.interpreterOnly = false) (args : List Word) :
    Keeps J K pc nested f fs (fun a b => a = b ∧ b.Meets version opcode)
      ((Engine.helpers invoke).performed opcode args) (perform opcode args) :=
  (keeps_act lasting (.performed opcode args)).yields (leaves_perform h args)

/-- A value is stored where the instruction wants it. -/
theorem keeps_value (lasting : Lasting J K) {action : Action} (passes : action.endsBlock = false)
    (w : Word) :
    Keeps J K pc nested f fs (scope.Turns i action)
      (do (Engine.helpers invoke).store i.store w; return .next) (settle i (.value w)) :=
  Keeps.bind (keeps_store invoke lasting i.store w) fun _ _ _ => .pure ⟨.next, by simp [passes]⟩

/-- An outcome is stored and tested as the instruction wants it. -/
theorem keeps_settle (lasting : Lasting J K) (formed : i.Formed version) {o : Outcome}
    (meets : o.Meets version i.opcode) {b : Option CodeBranch} (same : b.isSome = i.branch.isSome)
    (heads : ∀ passed, scope.Heads i (Helpers.branch b passed) (branchWay i passed))
    {action : Action} (ends : action.endsBlock = b.isSome) :
    Keeps J K pc nested f fs (scope.Turns i action)
      (do
        (Engine.helpers invoke).store i.store (o.value?.getD 0)
        return Helpers.branch b (o.test?.getD false))
      (settle i o) := by
  have turns : scope.Turns i action (Helpers.branch b (o.test?.getD false))
      ((o.test?.map (branchWay i)).getD .onward) := by
    refine ⟨?_, fun h => Scope.branch_ne_next (ends ▸ h) _⟩
    cases htest : o.test? with
    | some passed => exact heads passed
    | none =>
        -- What leaves no test comes from an instruction without a branch, as it is well-formed.
        have unbranched : i.branch = none := by
          cases hb : i.branch with
          | none => rfl
          | some _ =>
              have promised := meets.test (by rw [← formed.branch, hb]; rfl)
              rw [htest] at promised
              cases promised
        rw [unbranched] at same
        have : b = none := by simpa using same
        subst this
        exact .next
  unfold settle
  cases hvalue : o.value? with
  | some w => exact Keeps.bind (keeps_store invoke lasting i.store w) fun _ _ _ => .pure turns
  | none =>
      have unstored : i.store = none := by
        cases hs : i.store with
        | none => rfl
        | some _ =>
            have promised := meets.value (by rw [← formed.store, hs]; rfl)
            rw [hvalue] at promised
            cases promised
      rw [unstored]
      exact .pure turns

/-- A division: the fault of a zero divisor, or the value on both sides. -/
theorem keeps_division {b value : Word} {y : Except Fault Outcome}
    (fails : b = 0 → y = .error .divisionByZero) (divides : ¬b = 0 → y = .ok (.value value)) :
    Keeps J K pc nested f fs (fun w o => o = .value w)
      (if b = 0 then ((Engine.helpers invoke).trap .divisionByZero : EngineM Word)
        else return value)
      (liftM y : MachineM Outcome) := by
  intro s t level
  by_cases zero : b = 0
  · rw [fails zero, if_pos zero]
    exact .error ⟨_, rfl, rfl⟩
  · rw [divides zero, if_neg zero]
    exact .ok ⟨rfl, level⟩

/-- Compiled arithmetic gives the value that the opcode leaves. -/
theorem keeps_compute {opcode : Opcode} {values : List Word} {operation : Arithmetic}
    (h : Scope.arithmetic? opcode values.length = some operation) :
    Keeps J K pc nested f fs (fun w o => o = .value w)
      ((Engine.helpers invoke).compute operation values) (perform opcode values) := by
  unfold Scope.arithmetic? at h
  split at h
  case h_8 one =>
    obtain ⟨a, rfl⟩ := List.length_eq_one_iff.mp one
    cases h
    exact .pure rfl
  case h_9 => cases h
  all_goals
    rename_i two
    obtain ⟨a, b, rfl⟩ := List.length_eq_two.mp two
    cases h
  -- Dividing and taking the remainder are the two that can fail.
  case h_4 =>
    have divides (nonzero : ¬b = 0) :
        performArithmetic .div [a, b] = .ok (.value (Word.divSigned a b)) := by
      simp [performArithmetic, argument, nonzero, Bind.bind, Except.bind, Pure.pure, Except.pure]
    exact keeps_division invoke (fun zero : b = 0 => zero ▸ rfl) divides
  case h_5 =>
    have divides (nonzero : ¬b = 0) :
        performArithmetic .mod [a, b] = .ok (.value (Word.modSigned a b)) := by
      simp [performArithmetic, argument, nonzero, Bind.bind, Except.bind, Pure.pure, Except.pure]
    exact keeps_division invoke (fun zero : b = 0 => zero ▸ rfl) divides
  all_goals exact .pure rfl

/-- A compiled test passes where that of the opcode does. -/
theorem perform_comparison {opcode : Opcode} {values : List Word} {comparison : Comparison}
    (h : Scope.comparison? opcode values.length = some comparison) :
    perform opcode values = pure (.test (comparison.holds values)) := by
  unfold Scope.comparison? at h
  split at h
  -- Equality takes two operands or more, the test for zero takes one, and the others take two.
  case h_1 count =>
    obtain ⟨a, rest, rfl⟩ : ∃ a rest, values = a :: rest := by
      cases values with
      | nil => cases count
      | cons a rest => exact ⟨a, rest, rfl⟩
    cases h
    rfl
  case h_4 one =>
    obtain ⟨a, rfl⟩ := List.length_eq_one_iff.mp one
    cases h
    rfl
  case h_6 => cases h
  all_goals
    rename_i two
    obtain ⟨a, b, rfl⟩ := List.length_eq_two.mp two
    cases h
    rfl

/-- Memory accesses have no branch. -/
theorem unbranched_of_access (formed : i.Formed version) {count : Nat} {helper : Helper}
    (h : Scope.access? i.opcode count = some helper) : i.branch = none := by
  have unbranched : i.opcode.hasBranch version = false := by
    unfold Scope.access? at h
    split at h <;> simp_all [Opcode.hasBranch]
  simpa [unbranched] using formed.branch

/-- Compiled data operations. -/
theorem keeps_data (lasting : Lasting J K) (formed : i.Formed version)
    (translated : i.opcode.interpreterOnly = false) {action : Action}
    (made : scope.MakesData i action) {values : List Word}
    (count : values.length = i.operands.length) :
    Keeps J K pc nested f fs (scope.Turns i action) ((Engine.helpers invoke).act values action)
      (perform i.opcode values >>= settle i) := by
  cases made with
  | compute found =>
      refine Keeps.bind (keeps_compute invoke (count ▸ found)) fun w o ho => ?_
      subst ho
      exact keeps_value invoke lasting rfl w
  | compare found branch =>
      rw [perform_comparison (count ▸ found), pure_bind]
      exact .pure ⟨Scope.heads_branch branch _, fun ends => Scope.branch_ne_next ends _⟩
  | access found =>
      -- An access has no branch, so whatever the test, control goes on.
      have unbranched := unbranched_of_access formed found
      refine Keeps.bind (keeps_perform invoke version lasting translated values) fun o o' ho => ?_
      obtain ⟨rfl, meets⟩ := ho
      refine keeps_settle invoke lasting formed meets (b := none) ?_ (fun passed => ?_) rfl
      · rw [unbranched]
        rfl
      · unfold branchWay
        rw [unbranched]
        exact .next
  | perform _ branch =>
      refine Keeps.bind (keeps_perform invoke version lasting translated values) fun o o' ho => ?_
      obtain ⟨rfl, meets⟩ := ho
      exact keeps_settle invoke lasting formed meets (Scope.isSome_branchOf branch)
        (Scope.heads_branch branch) rfl

/-! ## Variables named by operands -/

theorem argument_ok (opcode : Opcode) {values : List Word} {index : Nat}
    (h : index < values.length) : argument opcode values index = .ok (values.getD index 0) := by
  simp [argument, List.getD, List.getElem?_eq_getElem h]

/-- The variable that the first operand names is the one that the code was compiled for. -/
theorem namedVariable_ok {values : List Word} (fits : Fits i.operands values)
    (operand : 0 < i.operands.length) :
    namedVariable i values = .ok (Helpers.cell (Scope.cellOf i) values) := by
  have present : 0 < values.length := fits.length ▸ operand
  have first : namedVariable i values = .ok (.ofByte (values.getD 0 0).toUInt8) := by
    simp only [namedVariable, argument_ok _ present]
    rfl
  rw [first]
  unfold Scope.cellOf
  split
  · rename_i n constant
    have head := fits.constant n constant
    obtain ⟨v, rest, rfl⟩ := List.exists_cons_of_length_pos present
    cases head
    rfl
  · rfl

theorem step_eq (operands : List Operand) (action : Action) :
    (Engine.helpers invoke).step ⟨operands, action⟩ =
      (operands.mapM (Engine.helpers invoke).operand >>= fun values =>
        (Engine.helpers invoke).act values action) := rfl

/-- A result that is there is an action that does nothing. -/
theorem liftM_ok (a : α) (k : α → MachineM β) :
    (liftM (Except.ok a : Except Fault α) >>= k) = k a :=
  rfl

/-- Adding to a variable. -/
theorem keeps_adjust (lasting : Lasting J K) (delta : Word) (operand : 0 < i.operands.length) :
    Keeps J K pc nested f fs (scope.Turns i (.adjust (Scope.cellOf i) delta))
      (i.operands.mapM (Engine.helpers invoke).operand >>= fun values =>
        (Engine.helpers invoke).act values (.adjust (Scope.cellOf i) delta))
      (adjust i delta >>= fun _ => pure .onward) := by
  unfold adjust
  rw [bind_assoc]
  refine Keeps.bind (keeps_operands invoke lasting i.operands) fun values _ hv => ?_
  obtain ⟨rfl, fits⟩ := hv
  rw [bind_assoc, namedVariable_ok fits operand, liftM_ok, bind_assoc]
  refine Keeps.bind (keeps_peekVariable invoke lasting _) fun w _ hw => ?_
  subst hw
  refine Keeps.bind (keeps_replaceVariable invoke lasting _ _) fun _ _ _ => ?_
  exact .pure ⟨.next, nofun⟩

/-- Adding to a variable and testing it. -/
theorem keeps_adjustTest (lasting : Lasting J K) (delta : Word) {comparison : Comparison}
    {holds : Int → Int → Bool} (same : ∀ a b : Word,
      comparison.holds [a, b] = holds (Word.signed a) (Word.signed b))
    {b : Option CodeBranch} {pool more : List String} (hb : scope.branchOf i pool = .ok b more)
    (two : 1 < i.operands.length) :
    Keeps J K pc nested f fs (scope.Turns i (.adjustTest (Scope.cellOf i) delta comparison b))
      (i.operands.mapM (Engine.helpers invoke).operand >>= fun values =>
        (Engine.helpers invoke).act values (.adjustTest (Scope.cellOf i) delta comparison b))
      (adjustWay i delta holds) := by
  unfold adjustWay
  refine Keeps.bind (keeps_operands invoke lasting i.operands) fun values _ hv => ?_
  obtain ⟨rfl, fits⟩ := hv
  rw [namedVariable_ok fits (Nat.lt_of_succ_lt two), liftM_ok,
    argument_ok _ (fits.length ▸ two), liftM_ok]
  refine Keeps.bind (keeps_peekVariable invoke lasting _) fun w _ hw => ?_
  subst hw
  refine Keeps.bind (keeps_replaceVariable invoke lasting _ _) fun _ _ _ => ?_
  refine .pure ⟨?_, fun ends => Scope.branch_ne_next ends _⟩
  -- Both compare the sum with the limit as signed numbers.
  rw [same]
  exact Scope.heads_branch hb _

theorem keeps_indirect (lasting : Lasting J K) {action : Action} (first : 0 < i.operands.length)
    (unstored : i.opcode = .pull → i.store = none) (made : scope.MakesIndirect i action) :
    Keeps J K pc nested f fs (scope.Turns i action)
      ((Engine.helpers invoke).step ⟨i.operands, action⟩) (wayOf i) := by
  rw [step_eq]
  cases made with
  | inc op =>
      simp only [wayOf, op]
      exact keeps_adjust invoke lasting 1 first
  | dec op =>
      simp only [wayOf, op]
      exact keeps_adjust invoke lasting 0xffff first
  | incChk op second branch =>
      simp only [wayOf, op]
      exact keeps_adjustTest invoke lasting 1 (fun _ _ => rfl) branch second
  | decChk op second branch =>
      simp only [wayOf, op]
      exact keeps_adjustTest invoke lasting 0xffff (fun _ _ => rfl) branch second
  | store op second =>
      simp only [wayOf, op]
      refine Keeps.bind (keeps_operands invoke lasting i.operands) fun values _ hv => ?_
      obtain ⟨rfl, fits⟩ := hv
      rw [namedVariable_ok fits first, liftM_ok, argument_ok _ (fits.length ▸ second), liftM_ok]
      refine Keeps.bind (keeps_replaceVariable invoke lasting _ _) fun _ _ _ => ?_
      exact .pure ⟨.next, nofun⟩
  | load op =>
      simp only [wayOf, op]
      refine Keeps.bind (keeps_operands invoke lasting i.operands) fun values _ hv => ?_
      obtain ⟨rfl, fits⟩ := hv
      rw [namedVariable_ok fits first, liftM_ok]
      refine Keeps.bind (keeps_peekVariable invoke lasting _) fun w _ hw => ?_
      subst hw
      exact keeps_value invoke lasting rfl w
  | pull op =>
      simp only [wayOf, op, pull, bind_assoc]
      refine Keeps.bind (keeps_operands invoke lasting i.operands) fun values _ hv => ?_
      obtain ⟨rfl, fits⟩ := hv
      -- Without a result to store, the word goes to the variable that the operand names.
      rw [unstored op]
      dsimp only
      rw [namedVariable_ok fits first, liftM_ok, bind_assoc]
      refine Keeps.bind (keeps_pop lasting) fun w _ hw => ?_
      subst hw
      refine Keeps.bind (keeps_replaceVariable invoke lasting _ _) fun _ _ _ => ?_
      exact .pure ⟨.next, nofun⟩

/-! ## Input -/

theorem liftAct_bind (x : MachineM α) (k : α → MachineM β) :
    (liftM (Engine.act (x >>= k)) : StateT (List Word) EngineM β)
      = liftM (Engine.act x) >>= fun a => liftM (Engine.act (k a)) := by
  rw [Engine.act_bind, liftM_bind]

/-- Where the host has no input, both sides fail. -/
theorem keeps_starved (outside : 0 < nested) {V : α → Way → Prop}
    {k : Word → StateT (List Word) EngineM α} (request : InputRequest) :
    Keeps J K pc nested f fs V
      (liftM (Engine.act (throw .inputUnavailable : MachineM Word)) >>= k)
      (suspend request >>= fun _ => pure .onward) := by
  rintro ⟨locals, e⟩ s level
  have counted : 0 < s.nested := level.nested ▸ outside
  simp only [Bind.bind, EStateM.bind, run_suspend, if_pos counted]
  exact .error ⟨_, rfl, rfl⟩

theorem keeps_readLine (lasting : Lasting J K) (outside : 0 < nested)
    (operand : 0 < i.operands.length) :
    Keeps J K pc nested f fs (scope.Turns i (.readLine i.store))
      (i.operands.mapM (Engine.helpers invoke).operand >>= fun values =>
        (Engine.helpers invoke).act values (.readLine i.store))
      (readLineWay i) := by
  unfold readLineWay
  refine Keeps.bind (keeps_operands invoke lasting i.operands) fun values _ hv => ?_
  obtain ⟨rfl, fits⟩ := hv
  rw [argument_ok _ (fits.length ▸ operand), liftM_ok]
  change Keeps J K pc nested f fs _ (liftM (Engine.act (Engine.readLine _ _)) >>= _) _
  unfold Engine.readLine
  -- The parts of reading a line, one after the other, each of them the same action on both sides.
  rw [liftAct_bind, bind_assoc]
  refine Keeps.bind (keeps_act lasting .showStatus) fun _ _ _ => ?_
  rw [liftAct_bind, bind_assoc]
  refine Keeps.bind (keeps_act lasting (.lineCapacity _)) fun capacity _ hc => ?_
  subst hc
  rw [liftAct_bind, bind_assoc]
  refine Keeps.bind (keeps_act lasting (.hostLine _)) fun line _ hl => ?_
  subst hl
  cases line with
  | none => exact keeps_starved outside _
  | some line =>
      refine Keeps.bind (keeps_act lasting (.finishLine _ _ _)) fun w _ hw => ?_
      subst hw
      exact keeps_value invoke lasting rfl w

theorem keeps_readChar (lasting : Lasting J K) (outside : 0 < nested) :
    Keeps J K pc nested f fs (scope.Turns i (.readChar i.store))
      (i.operands.mapM (Engine.helpers invoke).operand >>= fun values =>
        (Engine.helpers invoke).act values (.readChar i.store))
      (readCharWay i) := by
  unfold readCharWay
  change Keeps J K pc nested f fs _ _ (((fun _ => PUnit.unit) <$> operandValues i) >>= _)
  rw [map_eq_pure_bind, bind_assoc]
  refine Keeps.bind (keeps_operands invoke lasting i.operands) fun values _ _ => ?_
  rw [pure_bind]
  change Keeps J K pc nested f fs _ (liftM (Engine.act Engine.readChar) >>= _) _
  unfold Engine.readChar
  rw [liftAct_bind, bind_assoc]
  -- Compiled code asks the same host, and has no way to wait for a key press.
  refine Keeps.bind (keeps_act lasting .hostChar) fun c _ hc => ?_
  subst hc
  cases c with
  | none => exact keeps_starved outside _
  | some c =>
      refine Keeps.bind (keeps_act lasting (.finishChar c)) fun w _ hw => ?_
      subst hw
      exact keeps_value invoke lasting rfl w

/-! ## Printing -/

/-- A text of the pool is printed like any other. -/
theorem joint_print (lasting : Lasting J K) {pool : List String}
    (pooled : ∀ e, J e → pool <+: e.literals) {n : Nat} {text : String}
    (found : pool[n]? = some text) {code : List Word × Engine} {s : Machine}
    (level : Level J K pc nested f fs code s) :
    Joint (fun a code b s => a = b ∧ Level J K pc nested f fs code s) Blames
      (flat (liftM ((Engine.helpers invoke).print n)) code) (print text s) := by
  obtain ⟨locals, e⟩ := code
  have literal : e.literals[n]? = some text := getElem?_of_isPrefix (pooled e level.kept) found
  have same : (Engine.helpers invoke).print n e = Engine.act (print text) e := by
    change Engine.printLiteral n e = _
    simp only [Engine.printLiteral, Bind.bind, EStateM.bind, run_get, literal]
  have joint := keeps_act lasting (.print text) (locals, e) s level
  rw [flat_lift] at joint ⊢
  rwa [same]

/-- Two texts printed by the machine are one text of the pool. -/
theorem joint_printTwice (lasting : Lasting J K) (calm : ∀ s, K s → s.host.Calm)
    {pool : List String} (pooled : ∀ e, J e → pool <+: e.literals) {n : Nat} {x y : String}
    (nonempty : y ≠ "") (found : pool[n]? = some (x ++ y)) {code : List Word × Engine} {s : Machine}
    (level : Level J K pc nested f fs code s) :
    Joint (fun _ code _ s => Level J K pc nested f fs code s) Blames
      (flat (liftM ((Engine.helpers invoke).print n)) code)
      ((print x >>= fun _ => print y) s) := by
  have whole := joint_print invoke lasting pooled found level
  have parts := print_append (calm s level.held) x nonempty
  have effects : Effects true false s (endState ((print x >>= fun _ => print y) s)) :=
    ((OnValues.print x).bind fun _ => .print y).does s
  have effects' : Effects true false s (endState (print (x ++ y) s)) :=
    (OnValues.print (x ++ y)).does s
  generalize (print x >>= fun _ => print y) s = second at parts effects ⊢
  generalize print (x ++ y) s = first at parts whole effects'
  generalize flat (liftM ((Engine.helpers invoke).print n) : StateT (List Word) EngineM Unit) code
    = compiled at whole ⊢
  -- Level are the compiled code and the one print; it and the two prints end with the same bare
  -- machine.
  cases parts with
  | ok same =>
      cases whole with
      | ok h =>
          obtain ⟨-, level'⟩ := h
          have stays := stays_of_effects effects
          have stays' := stays_of_effects effects'
          refine .ok ⟨same.trans level'.bare, ?_, stays.pc.trans level.pc,
            stays.nested.trans level.nested, level'.kept, ?_⟩
          · exact stays.frames.trans (stays'.frames.symm.trans level'.frames)
          · exact lasting.machine s _ level.held (sheds_of_effects effects)
  | error same =>
      cases whole with
      | error h =>
          obtain ⟨g, rfl, root⟩ := h
          exact .error ⟨g, rfl, by rw [root, same]⟩

/-! ## Steps -/

/-- Instructions that compiled code carries out without running another routine or ending the story;
a stack kept in a table is left out. -/
structure Ordinary (i : Instruction) : Prop where
  call : i.opcode.isCall = false
  quit : i.opcode ≠ .quit
  translated : i.interpreterOnly = false
  table : ¬(i.opcode = .pull ∧ i.store.isSome = true ∧ i.operands ≠ [])

theorem Ordinary.opcode (h : Ordinary i) : i.opcode.interpreterOnly = false := by
  have translated := h.translated
  simp only [Instruction.interpreterOnly, Bool.or_eq_false_iff] at translated
  exact translated.1

/-- Opcodes without a way of their own are carried out on the values of their operands. -/
theorem wayOf_perform (ordinary : Ordinary i) (indirect : i.opcode.hasIndirectVariable = false)
    (passes : i.opcode.isTerminal = false) (other : i.opcode ≠ .print ∧ i.opcode ≠ .pop ∧
      i.opcode ≠ .sread ∧ i.opcode ≠ .aread ∧ i.opcode ≠ .readChar) :
    wayOf i = operandValues i >>= fun args => perform i.opcode args >>= settle i := by
  have call := ordinary.call
  have translated := ordinary.opcode
  unfold wayOf
  split
  case h_24 =>
    simp only [call, Bool.false_eq_true, if_false]
  all_goals simp_all [Opcode.hasIndirectVariable, Opcode.isTerminal, Opcode.interpreterOnly]

theorem operandsRead_eq (translated : i.opcode.interpreterOnly = false)
    (passes : i.opcode.isTerminal = false ∨ i.opcode = .ret)
    (other : i.opcode ≠ .print ∧ i.opcode ≠ .pop ∧
      i.opcode ≠ .nop ∧ i.opcode ≠ .newLine) : Scope.operandsRead i = i.operands := by
  unfold Scope.operandsRead
  split
  case h_11 => simp [translated]
  all_goals simp_all [Opcode.isTerminal]

/-- A jump with a constant operand reads nothing. -/
theorem run_jump (formed : i.Formed version) (op : i.opcode = .jump) {target : Nat}
    (constant : i.jumpTarget? = some target) : wayOf i = pure (.goto target) := by
  have one : i.operands.length = 1 := formed.op1 (by rw [op]; rfl)
  obtain ⟨o, only⟩ := List.length_eq_one_iff.mp one
  have way : wayOf i = operandValues i >>= fun args => argument .jump args 0 >>= fun offset =>
      pure (.goto (relativeTarget i.next (Word.signed offset))) := by
    simp only [wayOf, op]
  rw [way, operandValues, only]
  simp only [Instruction.jumpTarget?, op, only] at constant
  cases o with
  | large w =>
      cases constant
      rfl
  | small b =>
      cases constant
      rfl
  | var v => cases constant

theorem step_nil (action : Action) :
    (Engine.helpers invoke).step ⟨[], action⟩ = (Engine.helpers invoke).act [] action := rfl

/-- The text of an instruction that the machine prints is the one that was compiled. -/
theorem run_printWords (formed : i.Formed version) (text : i.opcode.hasText = true) {s : Machine}
    {shown : String} (same : s.text.decodeWords s.memory (i.text.getD []) = .ok shown) :
    execute.printWords? i.text s = print shown s := by
  obtain ⟨ws, hws⟩ := Option.isSome_iff_exists.mp (formed.text.trans text)
  rw [hws] at same ⊢
  change printWords ws s = _
  simp only [printWords, run_bind, run_get, run_ask]
  change s.text.decodeWords s.memory ws = _ at same
  rw [same]
  rfl

/-- Carried out on the operands that are read for it, an action does what its instruction does. -/
def Enacts (J : Engine → Prop) (K : Machine → Prop) (pc nested : Nat) (f : Frame) (fs : List Frame)
    (scope : Scope) (i : Instruction) (action : Action) : Prop :=
  Keeps J K pc nested f fs (scope.Turns i action)
    ((Engine.helpers invoke).step ⟨Scope.operandsRead i, action⟩) (wayOf i)

theorem enacts_nop (formed : i.Formed version) (ordinary : Ordinary i) (op : i.opcode = .nop) :
    Enacts invoke J K pc nested f fs scope i .nothing := by
  have nothing : i.operands = [] := formed.op0 (by rw [op]; rfl)
  have way : wayOf i = pure .onward := by
    rw [wayOf_perform ordinary (by rw [op]; rfl) (by rw [op]; rfl) (by simp [op]), operandValues,
      nothing, op]
    rfl
  rw [Enacts, way, Scope.operandsRead, op]
  exact Keeps.pure ⟨.next, nofun⟩

theorem enacts_ret (lasting : Lasting J K) (translated : i.opcode.interpreterOnly = false)
    (op : i.opcode = .ret) (enough : 0 < i.operands.length) :
    Enacts invoke J K pc nested f fs scope i .leaveFirst := by
  rw [Enacts, operandsRead_eq translated (.inr op) (by simp [op]), step_eq]
  simp only [wayOf, op]
  refine Keeps.bind (keeps_operands invoke lasting i.operands) fun values _ hv => ?_
  obtain ⟨rfl, fits⟩ := hv
  rw [argument_ok _ (fits.length ▸ enough), liftM_ok]
  exact .pure ⟨.leaves _, by simp⟩

theorem enacts_jump (formed : i.Formed version) (op : i.opcode = .jump) {target n : Nat}
    (constant : i.jumpTarget? = some target) (block : scope.graph.indexOf? target = some n) :
    Enacts invoke J K pc nested f fs scope i (.jump n) := by
  rw [Enacts, run_jump formed op constant, Scope.operandsRead, op]
  exact Keeps.pure ⟨.jumps block, by simp⟩

theorem enacts_push (lasting : Lasting J K) (ordinary : Ordinary i) (op : i.opcode = .push)
    (enough : 0 < i.operands.length) : Enacts invoke J K pc nested f fs scope i .push := by
  rw [Enacts, operandsRead_eq ordinary.opcode (.inl (by rw [op]; rfl)) (by simp [op]), step_eq,
    wayOf_perform ordinary (by rw [op]; rfl) (by rw [op]; rfl) (by simp [op])]
  refine Keeps.bind (keeps_operands invoke lasting i.operands) fun values _ hv => ?_
  obtain ⟨rfl, fits⟩ := hv
  have pushes : perform i.opcode values >>= settle i
      = push (values.getD 0 0) >>= fun _ => pure .onward := by
    rw [op]
    change (((liftM (argument .push values 0) : MachineM Word) >>= push)
      >>= fun _ => pure Outcome.done) >>= settle i = _
    rw [argument_ok _ (fits.length ▸ enough), liftM_ok, bind_assoc]
    rfl
  rw [pushes]
  refine Keeps.bind (keeps_act lasting (.push _)) ?_
  exact fun _ _ _ => .pure ⟨.next, nofun⟩

/-- Without operands, a word is taken off the stack of the machine. -/
theorem enacts_pullTop (lasting : Lasting J K) (op : i.opcode = .pull)
    (stores : i.store.isSome = true) (empty : i.operands = []) :
    Enacts invoke J K pc nested f fs scope i (.pullTop i.store) := by
  obtain ⟨v, stored⟩ := Option.isSome_iff_exists.mp stores
  have way : wayOf i = pop >>= fun w => storeResult i.store w >>= fun _ => pure .onward := by
    simp only [wayOf, op, Machine.pull, operandValues, empty, stored, bind_assoc]
    change (pop >>= fun w => writeVariable v w) >>= (fun _ => pure Way.onward) = _
    rw [bind_assoc]
    rfl
  have reads : Scope.operandsRead i = [] := by
    rw [operandsRead_eq (by rw [op]; rfl) (.inl (by rw [op]; rfl)) (by simp [op]), empty]
  rw [Enacts, reads, way, step_nil]
  refine Keeps.bind (keeps_pop lasting) fun w _ hw => ?_
  subst hw
  exact Keeps.bind (keeps_store invoke lasting _ w) fun _ _ _ => .pure ⟨.next, nofun⟩

/-- A line is read by both of the opcodes for it. -/
theorem enacts_readLine (lasting : Lasting J K) (outside : 0 < nested)
    (op : i.opcode = .sread ∨ i.opcode = .aread) (first : 0 < i.operands.length) :
    Enacts invoke J K pc nested f fs scope i (.readLine i.store) := by
  have reads : Scope.operandsRead i = i.operands := by
    rcases op with op | op
    all_goals exact operandsRead_eq (by rw [op]; rfl) (.inl (by rw [op]; rfl)) (by simp [op])
  have way : wayOf i = readLineWay i := by
    rcases op with op | op
    all_goals simp only [wayOf, op]
  rw [Enacts, reads, way, step_eq]
  exact keeps_readLine invoke lasting outside first

theorem enacts_readChar (lasting : Lasting J K) (outside : 0 < nested) (op : i.opcode = .readChar) :
    Enacts invoke J K pc nested f fs scope i (.readChar i.store) := by
  have reads : Scope.operandsRead i = i.operands :=
    operandsRead_eq (by rw [op]; rfl) (.inl (by rw [op]; rfl)) (by simp [op])
  have way : wayOf i = readCharWay i := by simp only [wayOf, op]
  rw [Enacts, reads, way, step_eq]
  exact keeps_readChar invoke lasting outside

theorem enacts_indirect (lasting : Lasting J K) {action : Action}
    (indirect : i.opcode.hasIndirectVariable = true) (first : 0 < i.operands.length)
    (unstored : i.opcode = .pull → i.store = none) (made : scope.MakesIndirect i action) :
    Enacts invoke J K pc nested f fs scope i action := by
  have reads : Scope.operandsRead i = i.operands := by
    rcases Scope.indirect_cases indirect with op | op | op | op | op | op | op
    all_goals exact operandsRead_eq (by rw [op]; rfl) (.inl (by rw [op]; rfl)) (by simp [op])
  rw [Enacts, reads]
  exact keeps_indirect invoke lasting first unstored made

/-- Opcodes that only work on values. -/
theorem enacts_data (lasting : Lasting J K) (formed : i.Formed version) (ordinary : Ordinary i)
    (direct : i.opcode.hasIndirectVariable = false) (passes : i.opcode.isTerminal = false)
    (other : i.opcode ∉ Scope.ownWay) {action : Action} (made : scope.MakesData i action) :
    Enacts invoke J K pc nested f fs scope i action := by
  simp only [Scope.ownWay, List.mem_cons, List.not_mem_nil, or_false, not_or] at other
  obtain ⟨nop, print, newLine, pop, -, sread, aread, readChar⟩ := other
  rw [Enacts, operandsRead_eq ordinary.opcode (.inl passes) ⟨print, pop, nop, newLine⟩, step_eq,
    wayOf_perform ordinary direct passes ⟨print, pop, sread, aread, readChar⟩]
  refine Keeps.bind (keeps_operands invoke lasting i.operands) fun values _ hv => ?_
  obtain ⟨rfl, fits⟩ := hv
  exact keeps_data invoke lasting formed ordinary.opcode made fits.length

section Texts

variable {pool : List String} (pooled : ∀ e, J e → pool <+: e.literals) {code : List Word × Engine}
  {s : Machine} (level : Level J K pc nested f fs code s)

include pooled level

theorem joint_text (lasting : Lasting J K) (formed : i.Formed version) (op : i.opcode = .print)
    {n : Nat} {text : String} (found : pool[n]? = some text)
    (same : s.text.decodeWords s.memory (i.text.getD []) = .ok text) :
    Joint (fun c code w s => scope.Turns i (.print n) c w ∧ Level J K pc nested f fs code s) Blames
      (flat ((Engine.helpers invoke).step ⟨Scope.operandsRead i, .print n⟩) code) (wayOf i s) := by
  simp only [wayOf, Scope.operandsRead, op, step_nil]
  change Joint _ _ (flat
    (liftM ((Engine.helpers invoke).print n) >>= fun _ => pure Control.next) code) _
  rw [flat_bind]
  refine Lockstep.bind_at (V := fun _ code _ s => Level J K pc nested f fs code s) ?_
    fun _ _ _ _ level => .ok ⟨⟨.next, nofun⟩, level⟩
  rw [run_printWords formed (by rw [op]; rfl) same]
  exact (joint_print invoke lasting pooled found level).mono (fun _ _ _ _ h => h.2)
    fun _ _ _ _ h => h

/-- The machine prints a text and the end of the line one after the other. -/
theorem joint_textLeave (lasting : Lasting J K) (calm : ∀ s, K s → s.host.Calm)
    (formed : i.Formed version) (op : i.opcode = .printRet) {n : Nat} {text : String}
    (found : pool[n]? = some (text ++ "\n"))
    (same : s.text.decodeWords s.memory (i.text.getD []) = .ok text) :
    Joint (fun c code w s => scope.Turns i (.printLeave n) c w ∧ Level J K pc nested f fs code s)
      Blames (flat ((Engine.helpers invoke).step ⟨Scope.operandsRead i, .printLeave n⟩) code)
      (wayOf i s) := by
  simp only [wayOf, Scope.operandsRead, op, step_nil]
  change Joint _ _
    (flat (liftM ((Engine.helpers invoke).print n) >>= fun _ => pure (Control.leave 1)) code) _
  rw [flat_bind, ← bind_assoc]
  refine Lockstep.bind_at (V := fun _ code _ s => Level J K pc nested f fs code s) ?_
    fun _ _ _ _ level => .ok ⟨⟨.leaves 1, by simp⟩, level⟩
  have shown : (execute.printWords? i.text >>= fun _ => print "\n") s
      = (print text >>= fun _ => print "\n") s := by
    simp only [Bind.bind, EStateM.bind, run_printWords formed (by rw [op]; rfl) same]
  rw [shown]
  exact joint_printTwice invoke lasting calm pooled (by decide) found level

theorem joint_newLine (lasting : Lasting J K) (formed : i.Formed version) (ordinary : Ordinary i)
    (op : i.opcode = .newLine) {n : Nat} (found : pool[n]? = some "\n") :
    Joint (fun c code w s => scope.Turns i (.print n) c w ∧ Level J K pc nested f fs code s) Blames
      (flat ((Engine.helpers invoke).step ⟨Scope.operandsRead i, .print n⟩) code) (wayOf i s) := by
  have nothing : i.operands = [] := formed.op0 (by rw [op]; rfl)
  have way : wayOf i = print "\n" >>= fun _ => pure .onward := by
    rw [wayOf_perform ordinary (by rw [op]; rfl) (by rw [op]; rfl) (by simp [op]), operandValues,
      nothing, op]
    change (print "\n" >>= fun _ => pure Outcome.done) >>= settle i = _
    rw [bind_assoc]
    rfl
  rw [way, Scope.operandsRead, op, step_nil]
  change Joint _ _ (flat
    (liftM ((Engine.helpers invoke).print n) >>= fun _ => pure Control.next) code) _
  rw [flat_bind]
  refine Lockstep.bind_at (joint_print invoke lasting pooled found level) ?_
  exact fun _ _ _ _ h => .ok ⟨⟨.next, nofun⟩, h.2⟩

end Texts

/-- A compiled step does to values what its instruction does, and goes the same way. -/
theorem joint_step (lasting : Lasting J K) (calm : ∀ s, K s → s.host.Calm) {pool : List String}
    (pooled : ∀ e, J e → pool <+: e.literals) (outside : 0 < nested) (formed : i.Formed version)
    (ordinary : Ordinary i) {step : CodeStep} (becomes : scope.Becomes pool i step)
    {code : List Word × Engine} {s : Machine} (level : Level J K pc nested f fs code s)
    (texts : s.text.decodeWords s.memory (i.text.getD [])
      = scope.story.tables.decodeWords scope.story.memory (i.text.getD [])) :
    Joint (fun c code w s => scope.Turns i step.action c w ∧ Level J K pc nested f fs code s)
      Blames (flat ((Engine.helpers invoke).step step) code) (wayOf i s) := by
  obtain ⟨reads, made⟩ := becomes.makes
  obtain ⟨operands, action⟩ := step
  obtain rfl : operands = Scope.operandsRead i := reads
  dsimp only at made ⊢
  have translated := ordinary.opcode
  cases made with
  | nop op => exact enacts_nop invoke formed ordinary op code s level
  | rtrue op =>
      simp only [wayOf, Scope.operandsRead, op]
      exact Keeps.pure ⟨.leaves 1, by simp⟩ code s level
  | rfalse op =>
      simp only [wayOf, Scope.operandsRead, op]
      exact Keeps.pure ⟨.leaves 0, by simp⟩ code s level
  | ret op first => exact enacts_ret invoke lasting translated op first code s level
  | retPopped op =>
      simp only [wayOf, Scope.operandsRead, op, step_nil]
      refine Keeps.bind (keeps_pop lasting) (fun w _ hw => ?_) code s level
      subst hw
      exact .pure ⟨.leaves w, by simp⟩
  | jump op constant block => exact enacts_jump invoke formed op constant block code s level
  | computedJump op computed =>
      -- A jump by a computed offset is left to the interpreter.
      have left := ordinary.translated
      simp [Instruction.interpreterOnly, op, computed] at left
  | print op same found =>
      exact joint_text invoke pooled level lasting formed op found (texts.trans same)
  | printRet op same found =>
      exact joint_textLeave invoke pooled level lasting calm formed op found (texts.trans same)
  | newLine op found => exact joint_newLine invoke pooled level lasting formed ordinary op found
  | quit op => exact absurd op ordinary.quit
  | pop op =>
      simp only [wayOf, Scope.operandsRead, op, step_nil]
      refine Keeps.bind (Keeps.discard (keeps_pop lasting)) (fun _ _ _ => ?_) code s level
      exact .pure ⟨.next, nofun⟩
  | push op first => exact enacts_push invoke lasting ordinary op first code s level
  | readLine op first => exact enacts_readLine invoke lasting outside op first code s level
  | readChar op => exact enacts_readChar invoke lasting outside op code s level
  | call call _ _ =>
      rw [ordinary.call] at call
      cases call
  | pullTop op stores empty => exact enacts_pullTop invoke lasting op stores empty code s level
  | pullTable op stores table => exact absurd ⟨op, stores, table⟩ ordinary.table
  | indirect indirect unstored first made =>
      exact enacts_indirect invoke lasting indirect first unstored made code s level
  | refused _ refused =>
      rw [translated] at refused
      cases refused
  | data _ direct passes _ other made =>
      exact enacts_data invoke lasting formed ordinary direct passes other made code s level

end Machine

end ZMachine
