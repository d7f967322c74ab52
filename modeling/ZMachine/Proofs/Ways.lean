/-
  Where control goes after an instruction.

  Carrying out an instruction comes down to two parts: what it does to
  values, with the way that control takes as its result, and going that way.
-/
import ZMachine.Machine.Step

namespace ZMachine

/-- The way of control after an instruction: on to the next one, to another one, or out of the
routine with a value. -/
inductive Way where
  | onward
  | goto (a : Nat)
  | leave (w : Word)
deriving DecidableEq, Repr, Inhabited

namespace Machine

/-- Go a way. -/
def go : Way → MachineM Unit
  | .onward => return ()
  | .goto a => jumpTo a
  | .leave w => returnFrom w

/-- The way of the branch of an instruction after its test. -/
def branchWay (i : Instruction) (passed : Bool) : Way :=
  match i.branch with
  | none => .onward
  | some b =>
      if passed = b.condition then
        match b.target with
        | .returnFalse => .leave 0
        | .returnTrue => .leave 1
        | .address a => .goto a
      else .onward

theorem branch_eq_go (i : Instruction) (passed : Bool) :
    branch i passed = go (branchWay i passed) := by
  unfold branch branchWay
  cases i.branch with
  | none => rfl
  | some b =>
      dsimp only
      split
      · cases b.target <;> rfl
      · rfl

theorem go_onward (x : MachineM Unit) : (x >>= fun _ => pure Way.onward) >>= go = x := by
  rw [bind_assoc]
  exact bind_pure x

/-- Store the value of an outcome; its test gives the way. -/
def settle (i : Instruction) (o : Outcome) : MachineM Way := do
  match o.value? with
  | some w => storeResult i.store w
  | none => pure ()
  return (o.test?.map (branchWay i)).getD .onward

theorem apply_eq_settle (i : Instruction) (o : Outcome) : apply i o = settle i o >>= go := by
  cases o with
  | done => rfl
  | value w =>
      change storeResult i.store w >>= (fun _ => pure ()) = _ >>= go
      rw [bind_pure_unit]
      exact (go_onward (storeResult i.store w)).symm
  | test passed => exact branch_eq_go i passed
  | valueTest w passed =>
      change (storeResult i.store w >>= fun _ => branch i passed)
        = (storeResult i.store w >>= fun _ => pure (branchWay i passed)) >>= go
      rw [bind_assoc, branch_eq_go]
      rfl

/-- Add to the variable that the first operand names; its comparison with the second operand gives
the way. -/
def adjustWay (i : Instruction) (delta : Word) (holds : Int → Int → Bool) : MachineM Way := do
  let args ← operandValues i
  let v ← namedVariable i args
  let limit ← argument i.opcode args 1
  let w := (← peekVariable v) + delta
  replaceVariable v w
  return branchWay i (holds (Word.signed w) (Word.signed limit))

/-- Read a line, or wait for one. -/
def readLineWay (i : Instruction) : MachineM Way := do
  let args ← operandValues i
  let textBuffer := (← argument i.opcode args 0).toNat
  let parseBuffer := (args.getD 1 0).toNat
  showStatus
  match ← hostLine (← lineCapacity textBuffer) with
  | some line => settle i (.value (← finishLine textBuffer parseBuffer line))
  | none =>
      suspend (.line textBuffer parseBuffer i.store)
      return .onward

/-- Read a key press, or wait for one. -/
def readCharWay (i : Instruction) : MachineM Way := do
  discard <| operandValues i
  match ← hostChar with
  | some c => settle i (.value (← finishChar c))
  | none =>
      suspend (.key i.store)
      return .onward

/-- Carry out an instruction, except for going on from it. -/
def wayOf (i : Instruction) : MachineM Way := do
  match i.opcode with
  | .inc =>
      adjust i 1
      return .onward
  | .dec =>
      adjust i 0xffff
      return .onward
  | .incChk => adjustWay i 1 (fun w limit => decide (limit < w))
  | .decChk => adjustWay i 0xffff (fun w limit => decide (w < limit))
  | .store =>
      let args ← operandValues i
      let v ← namedVariable i args
      replaceVariable v (← argument i.opcode args 1)
      return .onward
  | .load =>
      let v ← namedVariable i (← operandValues i)
      settle i (.value (← peekVariable v))
  | .pull =>
      pull i
      return .onward
  | .rtrue => return .leave 1
  | .rfalse => return .leave 0
  | .ret =>
      let args ← operandValues i
      return .leave (← argument i.opcode args 0)
  | .retPopped => return .leave (← pop)
  | .jump =>
      let args ← operandValues i
      return .goto (relativeTarget i.next (Word.signed (← argument i.opcode args 0)))
  | .print =>
      execute.printWords? i.text
      return .onward
  | .printRet =>
      execute.printWords? i.text
      print "\n"
      return .leave 1
  | .quit =>
      quit
      return .onward
  | .restart =>
      restart
      return .onward
  | .pop =>
      discard pop
      return .onward
  | .catchFrame => settle i (.value (← get).stack.depth.toUInt16)
  | .throwFrame =>
      let args ← operandValues i
      throwTo (← argument i.opcode args 0) (← argument i.opcode args 1)
      return .onward
  | .sread | .aread => readLineWay i
  | .readChar => readCharWay i
  | .unknown .. => throw (.unknownOpcode i.opcode)
  | opcode =>
      let args ← operandValues i
      if opcode.isCall then
        callPacked (← argument opcode args 0) args.tail i.store i.next
        return .onward
      else settle i (← perform opcode args)

theorem adjustAndTest_eq (i : Instruction) (delta : Word) (holds : Int → Int → Bool) :
    adjustAndTest i delta holds = adjustWay i delta holds >>= go := by
  simp only [adjustAndTest, adjustWay, bind_assoc, pure_bind, branch_eq_go]

theorem readLine_eq (i : Instruction) : readLine i = readLineWay i >>= go := by
  simp only [readLine, readLineWay, bind_assoc]
  congr 1; funext args
  congr 1; funext textBuffer
  congr 1; funext _
  congr 1; funext capacity
  congr 1; funext line
  cases line with
  | none => exact (go_onward _).symm
  | some line => simp only [apply_eq_settle, bind_assoc]

theorem readChar_eq (i : Instruction) : readChar i = readCharWay i >>= go := by
  simp only [readChar, readCharWay, bind_assoc]
  congr 1; funext _
  congr 1; funext c
  cases c with
  | none => exact (go_onward _).symm
  | some c => simp only [apply_eq_settle, bind_assoc]

/-- An instruction does what it does to values, and goes its way. -/
theorem execute_eq (i : Instruction) : execute i = wayOf i >>= go := by
  unfold execute wayOf
  generalize i.opcode = opcode
  split
  -- An adjustment with a test, and input, are split elsewhere; the rest is a matter of
  -- associativity.
  case h_3 => exact adjustAndTest_eq i _ _
  case h_4 => exact adjustAndTest_eq i _ _
  case h_6 => simp only [apply_eq_settle, bind_assoc]
  case h_18 => simp only [apply_eq_settle, bind_assoc]
  case h_20 => exact readLine_eq i
  case h_21 => exact readLine_eq i
  case h_22 => exact readChar_eq i
  case h_23 => rfl
  case h_24 =>
    by_cases call : opcode.isCall = true
    · simp only [call, if_true, bind_assoc, pure_bind, go, bind_pure_unit]
    · simp only [call, if_false, Bool.false_eq_true, apply_eq_settle, bind_assoc]
  all_goals simp only [bind_assoc, pure_bind, go, bind_pure_unit]

/-- A call on the values of its operands. -/
theorem wayOf_call {i : Instruction} (call : i.opcode.isCall = true) :
    wayOf i = operandValues i >>= fun args => (liftM (argument i.opcode args 0) : MachineM Word) >>=
      fun packed => callPacked packed args.tail i.store i.next >>= fun _ => pure .onward := by
  unfold wayOf
  split
  case h_24 => simp only [call, if_true]
  all_goals
    rename_i op
    rw [op] at call
    cases call

end Machine
end ZMachine
