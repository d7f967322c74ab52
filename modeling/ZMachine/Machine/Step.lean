/-
  One instruction after the other.

  A step decodes the instruction at the program counter, moves the counter
  past it and carries it out.  A fault names the instruction that raised it.
-/
import ZMachine.Machine.Perform

namespace ZMachine
namespace Machine

/-- Take the branch of an instruction, if the test came out as it asks. -/
def branch (i : Instruction) (passed : Bool) : MachineM Unit :=
  match i.branch with
  | none => return ()
  | some b =>
      if passed = b.condition then
        match b.target with
        | .returnFalse => returnFrom 0
        | .returnTrue => returnFrom 1
        | .address a => jumpTo a
      else return ()

/-- Store the value of an outcome, then branch on its test. -/
def apply (i : Instruction) (o : Outcome) : MachineM Unit := do
  match o.value? with
  | some w => storeResult i.store w
  | none => pure ()
  match o.test? with
  | some passed => branch i passed
  | none => return ()

/-- The variable that the first operand names. -/
def namedVariable (i : Instruction) (args : List Word) : Except Fault Variable := do
  return .ofByte (← argument i.opcode args 0).toUInt8

/-- Add to the variable that the first operand names, and compare it with the second operand. -/
def adjustAndTest (i : Instruction) (delta : Word) (holds : Int → Int → Bool) : MachineM Unit := do
  let args ← operandValues i
  let v ← namedVariable i args
  let limit ← argument i.opcode args 1
  let w := (← peekVariable v) + delta
  replaceVariable v w
  branch i (holds (Word.signed w) (Word.signed limit))

/-- Add to the variable that the first operand names. -/
def adjust (i : Instruction) (delta : Word) : MachineM Unit := do
  let args ← operandValues i
  let v ← namedVariable i args
  replaceVariable v ((← peekVariable v) + delta)

/-- Take a word off the stack that a table holds; its first word counts the free places. -/
def pullFromTable (table : Nat) : MachineM Word := do
  let free := (← ask (·.readWord table)) + 1
  let w ← ask (·.readWord (table + free.toNat * 2))
  storeWord table free
  return w

/-- Take a word off a stack: to the result variable, if there is one, and else to the variable that
the first operand names. -/
def pull (i : Instruction) : MachineM Unit := do
  let args ← operandValues i
  match i.store with
  | some v =>
      -- A table operand names a stack in memory, none the stack of the routine.
      let w ←
        match args with
        | table :: _ => pullFromTable table.toNat
        | [] => pop
      writeVariable v w
  | none =>
      let v ← namedVariable i args
      replaceVariable v (← pop)

/-- Read a line, or wait for one. -/
def readLine (i : Instruction) : MachineM Unit := do
  let args ← operandValues i
  let textBuffer := (← argument i.opcode args 0).toNat
  let parseBuffer := (args.getD 1 0).toNat
  showStatus
  match ← hostLine (← lineCapacity textBuffer) with
  | some line => apply i (.value (← finishLine textBuffer parseBuffer line))
  | none => suspend (.line textBuffer parseBuffer i.store)

/-- Read a key press, or wait for one. -/
def readChar (i : Instruction) : MachineM Unit := do
  discard <| operandValues i
  match ← hostChar with
  | some c => apply i (.value (← finishChar c))
  | none => suspend (.key i.store)

/-- Carry out an instruction.  The program counter has passed it already. -/
def execute (i : Instruction) : MachineM Unit := do
  match i.opcode with
  | .inc => adjust i 1
  | .dec => adjust i 0xffff
  | .incChk => adjustAndTest i 1 (fun w limit => decide (limit < w))
  | .decChk => adjustAndTest i 0xffff (fun w limit => decide (w < limit))
  | .store =>
      let args ← operandValues i
      let v ← namedVariable i args
      replaceVariable v (← argument i.opcode args 1)
  | .load =>
      let v ← namedVariable i (← operandValues i)
      apply i (.value (← peekVariable v))
  | .pull => pull i
  | .rtrue => returnFrom 1
  | .rfalse => returnFrom 0
  | .ret =>
      let args ← operandValues i
      returnFrom (← argument i.opcode args 0)
  | .retPopped => returnFrom (← pop)
  | .jump =>
      let args ← operandValues i
      jumpTo (relativeTarget i.next (Word.signed (← argument i.opcode args 0)))
  | .print => printWords? i.text
  | .printRet =>
      printWords? i.text
      print "\n"
      returnFrom 1
  | .quit => quit
  | .restart => restart
  | .pop => discard pop
  | .catchFrame => apply i (.value (← get).stack.depth.toUInt16)
  | .throwFrame =>
      let args ← operandValues i
      throwTo (← argument i.opcode args 0) (← argument i.opcode args 1)
  | .sread | .aread => readLine i
  | .readChar => readChar i
  | .unknown .. => throw (.unknownOpcode i.opcode)
  | opcode =>
      let args ← operandValues i
      if opcode.isCall then
        callPacked (← argument opcode args 0) args.tail i.store i.next
      else apply i (← perform opcode args)
where
  /-- Print text, if there is any. -/
  printWords? : Option (List Word) → MachineM Unit
    | some ws => printWords ws
    | none => return ()

/-- Decode the instruction at an address. -/
def fetch (a : Nat) : MachineM Instruction := fun s =>
  match s.code.decoded.decode s.memory a with
  | (.ok i, decoded) => .ok i { s with code := { s.code with decoded } }
  | (.error e, decoded) => .error (.image e) { s with code := { s.code with decoded } }

/-- Carry out the instruction at an address. -/
def executeAt (a : Nat) : MachineM Unit := do
  let i ← fetch a
  -- Past the instruction at once, so that calls and branches find the way back.
  jumpTo i.next
  execute i

/-- A fault of an action names the instruction at an address. -/
def locating {α : Type} (a : Nat) (x : MachineM α) : MachineM α := fun s =>
  match x s with
  | .ok r s => .ok r s
  | .error e s => .error (e.locate a) s

/-- Carry out one instruction. -/
def step : MachineM Unit := do
  match (← get).state with
  | .awaiting _ => throw (.inputState .stepWhileAwaiting)
  | .quit => throw .storyOver
  | .running =>
      let old := (← get).pc
      emit (.stepping old)
      locating old (executeAt old)
      emit (.stepped old (← get).pc)

/-- Carry out up to `limit` instructions, as long as the machine is running; returns their number
and `executed`. -/
def runFrom (executed : Nat) : Nat → MachineM Nat
  | 0 => return executed
  | limit + 1 => do
      if (← get).state = .running then
        step
        runFrom (executed + 1) limit
      else return executed

/-- Carry out up to `limit` instructions, as long as the machine is running; returns how many. -/
def runBatch (limit : Nat) : MachineM Nat := runFrom 0 limit

end Machine
end ZMachine
