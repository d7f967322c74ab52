/-
  What instructions have in common.

  Up to the way that control takes, an instruction reads its operands, works
  on values and stores a result.  Whatever holds of that holds of every
  instruction, apart from the few that enter or leave frames, end the story or
  wait for input.
-/
import ZMachine.Compile.Needs
import ZMachine.Proofs.Values
import ZMachine.Proofs.Ways

namespace ZMachine

/-- Opcodes that read input. -/
def Opcode.readsInput : Opcode → Bool
  | .sread | .aread | .readChar => true
  | _ => false

/-- Instructions that are translated do not begin anew, count frames or unwind them. -/
theorem Opcode.ne_of_translated {opcode : Opcode} (translated : opcode.interpreterOnly = false) :
    opcode ≠ .restart ∧ opcode ≠ .catchFrame ∧ opcode ≠ .throwFrame := by
  refine ⟨?_, ?_, ?_⟩
  all_goals
    rintro rfl
    cases translated

namespace Machine

variable {raw : Bool} {P : {α : Type} → MachineM α → Prop} {α β : Type}

/-! ## Reading operands -/

/-- A property of actions that work on values and read locals, and of such actions one after the
other. -/
structure ClosedReading (raw : Bool) (P : {α : Type} → MachineM α → Prop) : Prop where
  values {α : Type} {x : MachineM α} (h : OnValues raw x) : P x
  bind {α β : Type} {x : MachineM α} {f : α → MachineM β} (hx : P x) (hf : ∀ a, P (f a)) :
      P (x >>= f)
  readLocal (i : Byte) : P (readVariable (.localVar i))

namespace ClosedReading

variable (c : ClosedReading raw P)
include c

theorem pure (a : α) : P (Pure.pure a : MachineM α) := c.values (.pure a)

theorem lift (x : Except Fault α) : P (liftM x : MachineM α) := c.values (.lift x)

theorem discard {x : MachineM α} (hx : P x) : P (Functor.discard x) := by
  change P ((fun _ => PUnit.unit) <$> x)
  rw [map_eq_pure_bind]
  exact c.bind hx fun _ => c.pure _

theorem mapM {x : β → MachineM α} (bs : List β) (hx : ∀ b, P (x b)) : P (bs.mapM x) := by
  induction bs with
  | nil => exact c.pure _
  | cons b bs ih =>
      rw [List.mapM_cons]
      exact c.bind (hx b) fun _ => c.bind ih fun _ => c.pure _

theorem readVariable (v : Variable) : P (readVariable v) := by
  cases v with
  | stack => exact c.values .pop
  | localVar i => exact c.readLocal i
  | globalVar i => exact c.values (.readGlobal i)

theorem peekVariable (v : Variable) : P (peekVariable v) := by
  cases v with
  | stack => exact c.values .peek
  | localVar i => exact c.readLocal i
  | globalVar i => exact c.values (.readGlobal i)

theorem operandValues (i : Instruction) : P (operandValues i) := by
  refine c.mapM _ fun o => ?_
  cases o with
  | large w => exact c.pure _
  | small b => exact c.pure _
  | var v => exact c.readVariable v

end ClosedReading

/-! ## Carrying out instructions -/

/-- A property of such actions that write locals, too. -/
structure ClosedWriting (raw : Bool) (P : {α : Type} → MachineM α → Prop) : Prop
    extends ClosedReading raw P where
  writeLocal (i : Byte) (w : Word) : P (writeVariable (.localVar i) w)

namespace ClosedWriting

variable (c : ClosedWriting raw P)
include c

theorem writeVariable (v : Variable) (w : Word) : P (writeVariable v w) := by
  cases v with
  | stack => exact c.values (.push w)
  | localVar i => exact c.writeLocal i w
  | globalVar i => exact c.values (.writeGlobal i w)

theorem replaceVariable (v : Variable) (w : Word) : P (replaceVariable v w) := by
  cases v with
  | stack => exact c.values (.replaceTop w)
  | localVar i => exact c.writeLocal i w
  | globalVar i => exact c.values (.writeGlobal i w)

theorem storeResult (store : Option Variable) (w : Word) : P (storeResult store w) := by
  cases store with
  | none => exact c.pure _
  | some v => exact c.writeVariable v w

theorem settle (i : Instruction) (o : Outcome) : P (settle i o) := by
  cases o with
  | done | test => exact c.pure _
  | value w | valueTest w => exact c.bind (c.storeResult _ _) fun _ => c.pure _

theorem adjust (i : Instruction) (delta : Word) : P (adjust i delta) :=
  c.bind (c.operandValues i) fun _ => c.bind (c.lift _) fun v =>
    c.bind (c.peekVariable v) fun _ => c.replaceVariable v _

theorem adjustWay (i : Instruction) (delta : Word) (holds : Int → Int → Bool) :
    P (adjustWay i delta holds) := by
  refine c.bind (c.operandValues i) fun _ => c.bind (c.lift _) fun v =>
    c.bind (c.lift _) fun limit => ?_
  exact c.bind (c.peekVariable v) fun _ => c.bind (c.replaceVariable v _) fun _ => c.pure _

theorem pull (i : Instruction) : P (pull i) := by
  refine c.bind (c.operandValues i) fun args => ?_
  split
  · split
    · exact c.bind (c.values (.pullFromTable _)) fun _ => c.writeVariable _ _
    · exact c.bind (c.values .pop) fun _ => c.writeVariable _ _
  · exact c.bind (c.lift _) fun v => c.bind (c.values .pop) fun _ => c.replaceVariable v _

theorem readCharWay (i : Instruction) (suspend : ∀ request, P (suspend request)) :
    P (readCharWay i) := by
  refine c.bind (c.discard (c.operandValues i)) fun _ => c.bind (c.values .hostChar) fun typed => ?_
  cases typed with
  | none => exact c.bind (suspend _) fun _ => c.pure _
  | some typed => exact c.bind (c.values (.finishChar typed)) fun _ => c.settle i _

end ClosedWriting

/-- A line that is there is taken; whoever has none may wait. -/
theorem ClosedWriting.readLineWay (c : ClosedWriting true P) (i : Instruction)
    (suspend : ∀ request, P (suspend request)) : P (readLineWay i) := by
  refine c.bind (c.operandValues i) fun args => c.bind (c.lift _) fun textBuffer => ?_
  refine c.bind (c.values .showStatus) fun _ =>
    c.bind (c.values (.lineCapacity _)) fun capacity => ?_
  refine c.bind (c.values (.hostLine _)) fun line => ?_
  cases line with
  | none => exact c.bind (suspend _) fun _ => c.pure _
  | some line => exact c.bind (c.values (.finishLine _ _ _)) fun _ => c.settle i _

theorem ClosedWriting.printed (c : ClosedWriting true P) (text : Option (List Word)) :
    P (execute.printWords? text) := by
  cases text with
  | none => exact c.pure _
  | some ws => exact c.values (.printWords ws)

/-- An instruction up to the way that control takes, where something is to be said only of those
that do more than work on values. -/
theorem ClosedWriting.wayOf (c : ClosedWriting raw P) {i : Instruction}
    (untracked : i.opcode.writesUntracked = true → raw = true)
    (quit : i.opcode = .quit → P quit) (restart : i.opcode = .restart → P restart)
    (catchFrame : i.opcode = .catchFrame →
      P (get >>= fun s => Machine.settle i (.value s.stack.depth.toUInt16)))
    (throwTo : i.opcode = .throwFrame → ∀ w token, P (throwTo w token))
    (suspend : i.opcode.readsInput = true → ∀ request, P (suspend request))
    (callPacked : i.opcode.isCall = true →
      ∀ packed args, P (callPacked packed args i.store i.next)) :
    P (wayOf i) := by
  have reads {opcode : Opcode} (same : i.opcode = opcode) (input : opcode.readsInput = true) :
      ∀ request, P (Machine.suspend request) := suspend (same ▸ input)
  have writes {opcode : Opcode} (same : i.opcode = opcode) (own : opcode.writesUntracked = true) :
      raw = true := untracked (same ▸ own)
  unfold Machine.wayOf
  -- One case for each kind of instruction, in the order in which they are told apart.
  split
  case h_1 | h_2 => exact c.bind (c.adjust i _) fun _ => c.pure _
  case h_3 | h_4 => exact c.adjustWay i _ _
  case h_5 =>
    refine c.bind (c.operandValues i) fun _ => c.bind (c.lift _) fun v =>
      c.bind (c.lift _) fun _ => ?_
    exact c.bind (c.replaceVariable v _) fun _ => c.pure _
  case h_6 =>
    refine c.bind (c.operandValues i) fun _ => c.bind (c.lift _) fun v => ?_
    exact c.bind (c.peekVariable v) fun _ => c.settle i _
  case h_7 => exact c.bind (c.pull i) fun _ => c.pure _
  case h_8 | h_9 => exact c.pure _
  case h_10 | h_12 => exact c.bind (c.operandValues i) fun _ => c.bind (c.lift _) fun _ => c.pure _
  case h_11 => exact c.bind (c.values .pop) fun _ => c.pure _
  case h_13 opcode =>
    obtain rfl := writes opcode rfl
    exact c.bind (c.printed i.text) fun _ => c.pure _
  case h_14 opcode =>
    obtain rfl := writes opcode rfl
    exact c.bind (c.printed i.text) fun _ => c.bind (c.values (.print _)) fun _ => c.pure _
  case h_15 opcode => exact c.bind (quit opcode) fun _ => c.pure _
  case h_16 opcode => exact c.bind (restart opcode) fun _ => c.pure _
  case h_17 => exact c.bind (c.discard (c.values .pop)) fun _ => c.pure _
  case h_18 opcode => exact catchFrame opcode
  case h_19 opcode =>
    refine c.bind (c.operandValues i) fun _ => c.bind (c.lift _) fun w =>
      c.bind (c.lift _) fun token => ?_
    exact c.bind (throwTo opcode w token) fun _ => c.pure _
  case h_20 opcode =>
    obtain rfl := writes opcode rfl
    exact c.readLineWay i (reads opcode rfl)
  case h_21 opcode =>
    obtain rfl := writes opcode rfl
    exact c.readLineWay i (reads opcode rfl)
  case h_22 opcode => exact c.readCharWay i (reads opcode rfl)
  case h_23 => exact c.values (.throw _)
  case h_24 =>
    refine c.bind (c.operandValues i) fun args => ?_
    by_cases call : i.opcode.isCall = true
    · rw [if_pos call]
      exact c.bind (c.lift _) fun packed => c.bind (callPacked call packed _) fun _ => c.pure _
    · rw [if_neg call]
      exact c.bind (c.values ((OnValues.perform i.opcode args).mono untracked)) fun _ =>
        c.settle i _

end Machine

end ZMachine
