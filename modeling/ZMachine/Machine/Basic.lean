/-
  The running machine: the story image, the call stack, where the story is,
  and the host that it talks to.

  An operation of the machine is an action that may fail half way; what it
  did before stays done.
-/
import ZMachine.Events
import ZMachine.ObjectTable.Basic
import ZMachine.Random
import ZMachine.Routine.Table
import ZMachine.Stack
import ZMachine.Streams

namespace ZMachine

/-- Settings of a machine. -/
structure MachineOptions where
  /-- Capacity of the evaluation stack in words. -/
  stackSize : Nat := defaultStackSize
  /-- Seed of the random numbers. -/
  seed : Option UInt64 := none
  /-- What the system answers when it is asked for a seed. -/
  entropy : Entropy := fun _ => none
  interpreterNumber : Byte := 6
  interpreterVersion : Byte := 65
  /-- Height of the screen in lines. -/
  screenHeight : Byte := 25
  /-- Width of the screen in characters. -/
  screenWidth : Byte := 80
  /-- Whether selections of input streams are reported.  They have no other effect. -/
  reportsInputStream : Bool := false
deriving Inhabited

/-- Input that the story waits for. -/
inductive InputRequest where
  /-- A line for the text buffer, divided into the parse buffer unless that is 0. -/
  | line (textBuffer parseBuffer : Nat) (store : Option Variable)
  /-- A key press. -/
  | key (store : Option Variable)
deriving DecidableEq, Repr, Inhabited

/-- Whether the machine can go on. -/
inductive RunState where
  | running
  | awaiting (request : InputRequest)
  | quit
deriving DecidableEq, Repr, Inhabited

/-- The running machine. -/
structure Machine where
  memory : Memory
  /-- The image as it was loaded. -/
  pristine : Array Byte
  header : Header
  options : MachineOptions
  objects : ObjectTable
  text : TextTables
  code : CodeIndex
  stack : CallStack
  /-- Address of the next instruction. -/
  pc : Nat := 0
  streams : OutputStreams := {}
  random : RandomSource
  events : EventLog := {}
  state : RunState := .running
  /-- Number of routines that are run to their end from outside. -/
  nested : Nat := 0
  /-- What the routine returned that was left last. -/
  lastReturn : Option Word := none
  host : Host := {}
deriving Inhabited

/-- An operation of the machine. -/
abbrev MachineM := EStateM Fault Machine

namespace Machine

/-- Act on the image.  The image is taken out of the machine meanwhile, so that it is not shared
and can be changed in place. -/
def inMemory {α : Type} (x : MemoryM α) : MachineM α := fun s =>
  let image := s.memory
  let s := { s with memory := .ofBytes #[] }
  match x image with
  | .ok a m => .ok a { s with memory := m }
  | .error e m => .error e { s with memory := m }

/-- Look something up in the image. -/
def ask {ε α : Type} [MonadLiftT (Except ε) (Except Fault)] (f : Memory → Except ε α) :
    MachineM α := do
  let x : Except Fault α := liftM (f (← get).memory)
  x

/-- Change the call stack. -/
def onStack (f : CallStack → Except Fault CallStack) : MachineM Unit := do
  let stack ← f (← get).stack
  modify fun s => { s with stack }

/-- Add a word to the evaluation stack. -/
def push (w : Word) : MachineM Unit := onStack (·.push w)

/-- Take the newest word of the running routine. -/
def pop : MachineM Word := do
  let (w, stack) ← (← get).stack.pop
  modify fun s => { s with stack }
  return w

/-- Tell the observers. -/
def emit (e : Event) : MachineM Unit := modify fun s => { s with events := s.events.emit e }

/-- Talk to the host. -/
def tell (f : Host → Host) : MachineM Unit := modify fun s => { s with host := f s.host }

/-- Go on at an address. -/
def jumpTo (a : Nat) : MachineM Unit := modify fun s => { s with pc := a }

/-! ## Memory and variables -/

/-- Forget what was decoded from bytes that were changed. -/
def touched (a len : Nat) : MachineM Unit :=
  modify fun s => { s with code := s.code.invalidate a len }

/-- Write a byte on behalf of the story. -/
def storeByte (a : Nat) (b : Byte) : MachineM Unit := do
  inMemory (MemoryM.writeByte a b)
  touched a 1

/-- Write a word on behalf of the story. -/
def storeWord (a : Nat) (w : Word) : MachineM Unit := do
  inMemory (MemoryM.writeWord a w)
  touched a 2

/-- Address of a global, counted from zero. -/
def globalAddress (s : Machine) (index : Byte) : Nat := s.header.globals.toNat + index.toNat * 2

/-- Value of a global. -/
def readGlobal (index : Byte) : MachineM Word := do
  let a := (← get).globalAddress index
  ask (·.readWord a)

/-- Change a global. -/
def writeGlobal (index : Byte) (w : Word) : MachineM Unit := do
  storeWord ((← get).globalAddress index) w

/-- Read a variable; the stack is popped. -/
def readVariable : Variable → MachineM Word
  | .stack => pop
  | .localVar i => do (← get).stack.readLocal i
  | .globalVar i => readGlobal i

/-- Write a variable; the stack is pushed. -/
def writeVariable (v : Variable) (w : Word) : MachineM Unit :=
  match v with
  | .stack => push w
  | .localVar i => onStack (·.writeLocal i w)
  | .globalVar i => writeGlobal i w

/-- Read a variable; the stack is read in place. -/
def peekVariable : Variable → MachineM Word
  | .stack => do (← get).stack.peek
  | v => readVariable v

/-- Write a variable; the stack is written in place. -/
def replaceVariable (v : Variable) (w : Word) : MachineM Unit :=
  match v with
  | .stack => onStack (·.replaceTop w)
  | v => writeVariable v w

/-- Value of an operand. -/
def operandValue : Operand → MachineM Word
  | .large w => return w
  | .small b => return b.toUInt16
  | .var v => readVariable v

/-- Values of the operands of an instruction, read in order. -/
def operandValues (i : Instruction) : MachineM (List Word) := i.operands.mapM operandValue

end Machine

end ZMachine
