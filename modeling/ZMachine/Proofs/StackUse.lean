/-
  What actions do with the stack.

  Most of what the machine does has no part in the stack.  The rest pushes
  and pops words of the running routine, looks at frames, or enters and leaves
  them.  An action is put together from such parts; what each part does with
  the stack, and what it leaves alone, then holds of the whole.
-/
import ZMachine.Proofs.Effects
import ZMachine.Proofs.Runs

namespace ZMachine

/-- A result in the state that `f` makes of its own. -/
def moved {ε σ α : Type} (f : σ → σ) : EStateM.Result ε σ α → EStateM.Result ε σ α
  | .ok a s => .ok a (f s)
  | .error e s => .error e (f s)

theorem endState_moved {ε σ α : Type} (f : σ → σ) (r : EStateM.Result ε σ α) :
    endState (moved f r) = f (endState r) := by
  cases r <;> rfl

/-! ## Actions that have no part in the stack -/

/-- An action does the same whatever the stack is, and leaves it as it is.  `put` puts a stack into
place. -/
def Apart {ε σ α : Type} (put : CallStack → σ → σ) (x : EStateM ε σ α) : Prop :=
  ∀ s k, x (put k s) = moved (put k) (x s)

namespace Apart

variable {ε σ α β : Type} {put : CallStack → σ → σ}

theorem pure (a : α) : Apart put (Pure.pure a : EStateM ε σ α) := fun _ _ => rfl

theorem throw (e : ε) : Apart put (MonadExcept.throw e : EStateM ε σ α) := fun _ _ => rfl

theorem modified {f : σ → σ} (h : ∀ s k, f (put k s) = put k (f s)) :
    Apart put (modify f : EStateM ε σ PUnit) :=
  fun s k => congrArg (EStateM.Result.ok PUnit.unit) (h s k)

theorem lift (x : Except Fault α) : Apart put (liftM x : EStateM Fault σ α) := by
  cases x with
  | ok a => exact .pure a
  | error e => exact .throw e

/-- The stack stays as it is. -/
theorem keeps {x : EStateM ε σ α} (h : Apart put x) (stack : σ → CallStack)
    (own : ∀ s, put (stack s) s = s) (stack_put : ∀ k s, stack (put k s) = k) (s : σ) :
    stack (endState (x s)) = stack s := by
  have same := congrArg endState (h s (stack s))
  rw [endState_moved, own] at same
  rw [same, stack_put]

end Apart

namespace Machine

/-- The machine with another stack. -/
def withStack (k : CallStack) (s : Machine) : Machine := { s with stack := k }

/-- The machine with other words on the stack. -/
def withValues (s : Machine) (values : List Word) : Machine :=
  { s with stack := { s.stack with values } }

variable {α β : Type}

theorem stack_apart {ε : Type} {x : EStateM ε Machine α} (h : Apart withStack x) (s : Machine) :
    (endState (x s)).stack = s.stack := h.keeps Machine.stack (fun _ => rfl) (fun _ _ => rfl) s

theorem apart_ask {ε : Type} [MonadLiftT (Except ε) (Except Fault)] (f : Memory → Except ε α) :
    Apart withStack (ask f) := by
  intro s k
  have memory : (withStack k s).memory = s.memory := rfl
  rw [run_ask, run_ask, memory]
  cases (liftM (f s.memory) : Except Fault α) <;> rfl

theorem apart_inMemory (x : MemoryM α) : Apart withStack (inMemory x) := by
  intro s k
  have memory : (withStack k s).memory = s.memory := rfl
  rw [run_inMemory, run_inMemory, memory]
  cases x s.memory <;> rfl

theorem apart_fetch (a : Nat) : Apart withStack (fetch a) := by
  intro s k
  have decode : (withStack k s).code.decoded.decode (withStack k s).memory a
      = s.code.decoded.decode s.memory a := rfl
  unfold fetch
  rw [decode]
  rcases s.code.decoded.decode s.memory a with ⟨r, decoded⟩
  cases r <;> rfl

theorem apart_quit : Apart withStack quit := by
  intro s k
  rw [run_quit, run_quit]
  change (if s.state = .quit then _ else _) = _
  split <;> rfl

/-! ## Orderly actions -/

/-- Actions put together from parts that have no part in the stack, look at frames, or use the stack
by one of its operations.  `leaving` permits to leave frames. -/
inductive Orderly (leaving : Bool) : {α : Type} → MachineM α → Prop where
  | apart {α : Type} {x : MachineM α} (h : Apart withStack x) : Orderly leaving x
  /-- The machine is looked at, but not the words on its stack. -/
  | look {α : Type} {f : Machine → MachineM α} (h : ∀ s values, f (s.withValues values) = f s)
      (hf : ∀ s, Orderly leaving (f s)) : Orderly leaving (get >>= f)
  | bind {α β : Type} {x : MachineM α} {f : α → MachineM β} (hx : Orderly leaving x)
      (hf : ∀ a, Orderly leaving (f a)) : Orderly leaving (x >>= f)
  | locating {α : Type} {x : MachineM α} (a : Nat) (hx : Orderly leaving x) :
      Orderly leaving (locating a x)
  | push (w : Word) : Orderly leaving (push w)
  | pop : Orderly leaving pop
  | peek : Orderly leaving (peekVariable .stack)
  | replaceTop (w : Word) : Orderly leaving (replaceVariable .stack w)
  | writeLocal (i : Byte) (w : Word) : Orderly leaving (writeVariable (.localVar i) w)
  | enterFrame (a : Nat) (args : List Word) (store : Option Variable) (returnAddress : Nat) :
      Orderly leaving (enterFrame a args store returnAddress)
  | leaveFrame (permitted : leaving = true) : Orderly leaving leaveFrame
  | start (permitted : leaving = true) : Orderly leaving start

namespace Orderly

variable {leaving : Bool}

theorem pure (a : α) : Orderly leaving (Pure.pure a) := .apart (.pure a)

theorem throw (e : Fault) : Orderly leaving (MonadExcept.throw e : MachineM α) := .apart (.throw e)

theorem lift (x : Except Fault α) : Orderly leaving (liftM x : MachineM α) := .apart (.lift x)

theorem ite {x y : MachineM α} (c : Prop) [Decidable c] (hx : Orderly leaving x)
    (hy : Orderly leaving y) : Orderly leaving (if c then x else y) := by
  split
  · exact hx
  · exact hy

theorem ask {ε : Type} [MonadLiftT (Except ε) (Except Fault)] (f : Memory → Except ε α) :
    Orderly leaving (ask f) := .apart (apart_ask f)

theorem inMemory (x : MemoryM α) : Orderly leaving (inMemory x) := .apart (apart_inMemory x)

/-- A change of anything but the stack. -/
theorem modified {f : Machine → Machine} (h : ∀ s k, f (withStack k s) = withStack k (f s)) :
    Orderly leaving (modify f : MachineM PUnit) := .apart (.modified h)

theorem emit (e : Event) : Orderly leaving (emit e) := .modified fun _ _ => rfl

theorem jumpTo (a : Nat) : Orderly leaving (jumpTo a) := .modified fun _ _ => rfl

/-- Operations on values use the stack by its operations, if at all. -/
theorem values {x : MachineM α} (h : OnValues true x) : Orderly leaving x := by
  induction h with
  | pure a => exact .pure a
  | throw e => exact .throw e
  | bind _ _ ihx ihf => exact ihx.bind ihf
  | look h _ ih => exact .look (fun s values => (h (s.withValues values)).symm.trans (h s)) ih
  -- the running frame is looked at, not its words
  | argumentCount _ ih =>
      exact .look (fun _ _ => rfl) fun _ => (Orderly.lift _).bind fun frame =>
        ih frame.argumentCount
  | push w => exact .push w
  | pop => exact .pop
  | peek => exact .peek
  | replaceTop w => exact .replaceTop w
  | inMemory => exact inMemory _
  | write a bs => exact (inMemory _).bind fun _ => .modified fun _ _ => rfl
  | host f => exact .apart fun _ _ => rfl
  | setStreams | setRandom => exact .modified fun _ _ => rfl

theorem closed : ClosedWriting true (Orderly leaving) where
  values := values
  bind := .bind
  readLocal _ := .look (fun _ _ => rfl) fun _ => .lift _
  writeLocal := .writeLocal

/-! ## Input -/

theorem suspend (request : InputRequest) : Orderly leaving (suspend request) := by
  have waits : Orderly leaving
      (modify fun s => { s with state := .awaiting request } : MachineM PUnit) :=
    .modified fun _ _ => rfl
  exact .look (fun _ _ => rfl) fun _ => .ite _ ((Orderly.throw _).bind fun _ => waits) waits

theorem provideLine (line : String) : Orderly leaving (provideLine line) := by
  refine .look (fun _ _ => rfl) fun s => ?_
  split
  · refine Orderly.bind (.modified fun _ _ => rfl) fun _ => ?_
    exact (Orderly.values (.finishLine _ _ _)).bind fun _ => closed.storeResult _ _
  · exact .throw _

theorem provideChar (c : Char) : Orderly leaving (provideChar c) := by
  refine .look (fun _ _ => rfl) fun s => ?_
  split
  · refine Orderly.bind (.modified fun _ _ => rfl) fun _ => ?_
    exact (Orderly.values (.finishChar _)).bind fun _ => closed.storeResult _ _
  · exact .throw _

/-! ## Calls and returns -/

theorem quit : Orderly leaving quit := .apart apart_quit

theorem callRoutine (a : Nat) (args : List Word) (store : Option Variable) (returnAddress : Nat) :
    Orderly leaving (callRoutine a args store returnAddress) :=
  (Orderly.enterFrame _ _ _ _).bind fun _ => (jumpTo _).bind fun _ => emit _

theorem callPacked (packed : Word) (args : List Word) (store : Option Variable)
    (returnAddress : Nat) : Orderly leaving (callPacked packed args store returnAddress) :=
  .ite _ (closed.storeResult store 0) (.look (fun _ _ => rfl) fun _ => callRoutine _ _ _ _)

theorem enterCompiled (a : Nat) (args : List Word) : Orderly leaving (enterCompiled a args) :=
  .look (fun _ _ => rfl) fun _ => (closed.discard (.enterFrame _ _ _ _)).bind fun _ => emit _

theorem leaveCompiled (w : Word) : Orderly true (leaveCompiled w) :=
  (Orderly.leaveFrame rfl).bind fun _ =>
    Orderly.bind (.modified fun _ _ => rfl) fun _ => emit _

theorem returnFrom (w : Word) : Orderly true (returnFrom w) := by
  refine .look (fun _ _ => rfl) fun s => (Orderly.leaveFrame rfl).bind fun frame => ?_
  refine Orderly.bind (.modified fun _ _ => rfl) fun _ => (emit _).bind fun _ => .ite _ quit ?_
  exact (jumpTo _).bind fun _ => closed.storeResult frame.store w

theorem throwTo (w token : Word) : Orderly true (throwTo w token) := by
  have unwind (depth bound : Nat) : Orderly true (unwindTo depth bound) := by
    induction bound with
    | zero => exact .pure _
    | succ bound ih =>
        refine .look (fun _ _ => rfl) fun _ => .ite _ ?_ (.pure _)
        exact (Orderly.leaveFrame rfl).bind fun _ => (emit _).bind fun _ => ih
  have rest (depth : Nat) : Orderly true (do unwindTo token.toNat depth; Machine.returnFrom w) :=
    (unwind _ _).bind fun _ => returnFrom w
  exact .look (fun _ _ => rfl) fun _ => .ite _ ((Orderly.throw _).bind fun _ => rest _) (rest _)

theorem restart : Orderly true restart := by
  refine (ask _).bind fun _ => .look (fun _ _ => rfl) fun _ => (ask _).bind fun _ => ?_
  refine Orderly.bind (.modified fun _ _ => rfl) fun _ => (ask _).bind fun _ => ?_
  refine (inMemory _).bind fun _ => Orderly.bind (.modified fun _ _ => rfl) fun _ => ?_
  exact .look (fun _ _ => rfl) fun _ => (inMemory _).bind fun _ => .start rfl

/-! ## Instructions -/

/-- Up to the way that control takes, frames are left by an instruction that unwinds the stack or
begins anew. -/
theorem wayOf {i : Instruction}
    (permitted : i.opcode = .throwFrame ∨ i.opcode = .restart → leaving = true) :
    Orderly leaving (wayOf i) := by
  refine closed.wayOf (fun _ => rfl) (fun _ => quit) (fun opcode => ?_) (fun _ => ?_)
    (fun opcode w token => ?_) (fun _ => suspend) fun _ _ _ => callPacked _ _ _ _
  · obtain rfl := permitted (.inr opcode)
    exact restart
  · exact .look (fun _ _ => rfl) fun _ => closed.settle i _
  · obtain rfl := permitted (.inl opcode)
    exact throwTo w token

theorem execute (i : Instruction) : Orderly true (execute i) := by
  rw [execute_eq]
  refine (wayOf fun _ => rfl).bind fun way => ?_
  cases way with
  | onward => exact .pure _
  | goto a => exact jumpTo a
  | leave w => exact returnFrom w

theorem step : Orderly true step := by
  refine .look (fun _ _ => rfl) fun s => ?_
  split
  · exact .throw _
  · exact .throw _
  · refine .look (fun _ _ => rfl) fun _ => (emit _).bind fun _ => ?_
    refine Orderly.bind (.locating _ ?_) fun _ => .look (fun _ _ => rfl) fun _ => emit _
    exact (Orderly.apart (apart_fetch _)).bind fun i => (jumpTo _).bind fun _ => execute i

end Orderly

end Machine

end ZMachine
