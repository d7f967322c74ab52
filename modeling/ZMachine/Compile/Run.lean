/-
  Running compiled code.

  The helpers are a parameter: code runs in any monad that offers them.  The
  locals are the code's own; everything else belongs to the helpers.
-/
import ZMachine.Compile.Code
import ZMachine.Compile.Helper
import ZMachine.Fault

namespace ZMachine

/-- The helpers, carried out in a monad. -/
structure Helpers (m : Type → Type) where
  /-- Give up. -/
  trap : {α : Type} → Fault → m α
  /-- The bound on the number of blocks is used up. -/
  exhausted : {α : Type} → m α
  push : Word → m Unit
  pop : m Word
  peek : m Word
  replaceTop : Word → m Unit
  readGlobal : Byte → m Word
  writeGlobal : Byte → Word → m Unit
  /-- Carry out an opcode as the interpreter does. -/
  perform : Opcode → List Word → m Outcome
  /-- Call the routine at an address. -/
  call : Nat → List Word → m Word
  /-- Call the routine at a packed address. -/
  callPacked : Word → List Word → m Word
  /-- Print a text of the pool. -/
  print : Nat → m Unit
  /-- Take a line into a text buffer, divided into a parse buffer. -/
  readLine : Word → Word → m Word
  readChar : m Word
  quit : {α : Type} → m α

/-- Where control goes after a step. -/
inductive Control where
  | next
  | block (number : Nat)
  | leave (w : Word)
deriving DecidableEq, Repr, Inhabited

/-- The way of a branch after its test. -/
def CodeBranch.follow (b : CodeBranch) (passed : Bool) : Control :=
  if passed = b.condition then
    match b.taken with
    | .leave w => .leave w
    | .block n => .block n
  else .block b.otherwise

/-- Whether a test passes on values; the first is compared with all others. -/
def Comparison.holds (c : Comparison) (values : List Word) : Bool :=
  let a := values.getD 0 0
  let b := values.getD 1 0
  match c with
  | .equalsAny => values.tail.contains a
  | .less => Word.signed a < Word.signed b
  | .greater => Word.signed b < Word.signed a
  | .zero => a == 0
  | .hasBits => a &&& b == b

namespace Helpers

variable {m : Type → Type} [Monad m] (h : Helpers m)

/-- Value of a local. -/
def readLocal (index : Byte) : StateT (List Word) m Word := do
  let locals ← get
  match locals[index.toNat]? with
  | some w => return w
  | none => (h.trap (.invalidLocal index.toNat locals.length) : m Word)

/-- Change a local. -/
def writeLocal (index : Byte) (w : Word) : StateT (List Word) m Unit := do
  let locals ← get
  if index.toNat < locals.length then set (locals.set index.toNat w)
  else (h.trap (.invalidLocal index.toNat locals.length) : m Unit)

/-- Read a variable; the stack is popped. -/
def readVariable : Variable → StateT (List Word) m Word
  | .stack => h.pop
  | .localVar i => h.readLocal i
  | .globalVar i => h.readGlobal i

/-- Write a variable; the stack is pushed. -/
def writeVariable (v : Variable) (w : Word) : StateT (List Word) m Unit :=
  match v with
  | .stack => h.push w
  | .localVar i => h.writeLocal i w
  | .globalVar i => h.writeGlobal i w

/-- Read a variable; the stack is read in place. -/
def peekVariable : Variable → StateT (List Word) m Word
  | .stack => h.peek
  | v => h.readVariable v

/-- Write a variable; the stack is written in place. -/
def replaceVariable (v : Variable) (w : Word) : StateT (List Word) m Unit :=
  match v with
  | .stack => h.replaceTop w
  | v => h.writeVariable v w

/-- Value of an operand. -/
def operand : Operand → StateT (List Word) m Word
  | .large w => return w
  | .small b => return b.toUInt16
  | .var v => h.readVariable v

/-- Store a result. -/
def store (target : Option Variable) (w : Word) : StateT (List Word) m Unit :=
  match target with
  | some v => h.writeVariable v w
  | none => return ()

/-- The variable that a cell stands for. -/
def cell (c : Cell) (values : List Word) : Variable :=
  match c with
  | .named v => v
  | .computed => .ofByte (values.getD 0 0).toUInt8

/-- Result of an operation on words. -/
def compute (operation : Arithmetic) (values : List Word) : StateT (List Word) m Word := do
  let a := values.getD 0 0
  let b := values.getD 1 0
  match operation with
  | .add => return a + b
  | .sub => return a - b
  | .mul => return a * b
  | .and => return a &&& b
  | .or => return a ||| b
  | .not => return ~~~a
  | .div => if b = 0 then (h.trap .divisionByZero : m Word) else return Word.divSigned a b
  | .mod => if b = 0 then (h.trap .divisionByZero : m Word) else return Word.modSigned a b

/-- Value of a memory access or of another opcode. -/
def performed (opcode : Opcode) (values : List Word) : StateT (List Word) m Outcome :=
  h.perform opcode values

/-- Take a word off the stack that a table holds; its first word counts the free places. -/
def pullTable (table : Word) : StateT (List Word) m Word := do
  let free := ((← h.performed .loadw [table, 0]).value?.getD 0) + 1
  let w := (← h.performed .loadw [table, free]).value?.getD 0
  discard <| h.performed .storew [table, 0, free]
  return w

/-- Go on by a branch, or with the next step if there is none. -/
def branch (b : Option CodeBranch) (passed : Bool) : Control :=
  (b.map fun b => b.follow passed).getD .next

/-- The fault of an opcode that only the interpreter can carry out. -/
def refusal : Opcode → Fault
  | .unknown cls number => .unknownOpcode (.unknown cls number)
  | opcode => .notCompiled opcode.name

/-- Act on the values of the operands. -/
def act (values : List Word) : Action → StateT (List Word) m Control
  | .nothing => return .next
  | .leave w => return .leave w
  | .leaveFirst => return .leave (values.getD 0 0)
  | .leavePopped => return .leave (← h.pop)
  | .jump n => return .block n
  | .refuse opcode => (h.trap (refusal opcode) : m Control)
  | .print id => do
      h.print id
      return .next
  | .printLeave id => do
      h.print id
      return .leave 1
  | .quit => (h.quit : m Control)
  | .drop => do
      discard <| h.pop
      return .next
  | .push => do
      h.push (values.getD 0 0)
      return .next
  | .callNothing target => do
      h.store target 0
      return .next
  | .call address target => do
      h.store target (← h.call address values.tail)
      return .next
  | .callPacked target => do
      h.store target (← h.callPacked (values.getD 0 0) values.tail)
      return .next
  | .pullTop target => do
      h.store target (← h.pop)
      return .next
  | .pullTable target => do
      h.store target (← h.pullTable (values.getD 0 0))
      return .next
  | .pullInto c => do
      h.replaceVariable (cell c values) (← h.pop)
      return .next
  | .adjust c delta => do
      h.replaceVariable (cell c values) ((← h.peekVariable (cell c values)) + delta)
      return .next
  | .adjustTest c delta comparison b => do
      let w := (← h.peekVariable (cell c values)) + delta
      h.replaceVariable (cell c values) w
      return branch b (comparison.holds [w, values.getD 1 0])
  | .replace c => do
      h.replaceVariable (cell c values) (values.getD 1 0)
      return .next
  | .copy c target => do
      h.store target (← h.peekVariable (cell c values))
      return .next
  | .readLine target => do
      h.store target (← h.readLine (values.getD 0 0) (values.getD 1 0))
      return .next
  | .readChar target => do
      h.store target (← h.readChar)
      return .next
  | .compute operation target => do
      h.store target (← h.compute operation values)
      return .next
  | .compare comparison b => return branch b (comparison.holds values)
  | .access opcode target => do
      h.store target ((← h.performed opcode values).value?.getD 0)
      return .next
  | .perform opcode target b => do
      let outcome ← h.performed opcode values
      h.store target (outcome.value?.getD 0)
      return branch b (outcome.test?.getD false)

/-- Run a step: read the operands in order, then act. -/
def step (s : CodeStep) : StateT (List Word) m Control := do
  h.act (← s.operands.mapM h.operand) s.action

/-- Run steps until control goes elsewhere. -/
def steps : List CodeStep → StateT (List Word) m Control
  | [] => return .next
  | s :: rest => do
      match ← h.step s with
      | .next => steps rest
      | control => return control

/-- Run code from a block on, through at most `bound` blocks.  Without a block there is nothing to
run, and the result is 0. -/
def blocks (code : Code) : Nat → Nat → StateT (List Word) m Word
  | 0, _ => (h.exhausted : m Word)
  | bound + 1, number =>
      match code.blocks[number]? with
      | none => return 0
      | some b => do
          match ← h.steps b.steps with
          | .leave w => return w
          | .block n => blocks code bound n
          | .next =>
              match b.next with
              | some n => blocks code bound n
              | none => return 0

/-- Largest number of arguments of a call. -/
def maxArguments : Nat := 7

/-- Run a compiled routine with arguments. -/
def runCode (code : Code) (bound : Nat) (args : List Word) : m Word := do
  -- Arguments beyond the locals are dropped.
  let arguments := (args.take maxArguments).take code.defaults.length
  let locals := arguments ++ code.defaults.drop arguments.length
  (h.blocks code bound 0).run' locals

end Helpers

/-- The helpers of code that is compiled without any: it can only run out of blocks. -/
def Helpers.none : Helpers Option where
  trap _ := Option.none
  exhausted := Option.none
  push _ := Option.none
  pop := Option.none
  peek := Option.none
  replaceTop _ := Option.none
  readGlobal _ := Option.none
  writeGlobal _ _ := Option.none
  perform _ _ := Option.none
  call _ _ := Option.none
  callPacked _ _ := Option.none
  print _ := Option.none
  readLine _ _ := Option.none
  readChar := Option.none
  quit := Option.none

/-- Result of code that was compiled without helpers. -/
def Code.runPure (code : Code) (bound : Nat) (args : List Word) : Option Word :=
  Helpers.none.runCode code bound args

end ZMachine
