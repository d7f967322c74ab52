/-
  Calls and returns, and how a story begins and ends.
-/
import ZMachine.Machine.Basic

namespace ZMachine
namespace Machine

/-- The story is over. -/
def quit : MachineM Unit := do
  unless (← get).state = .quit do
    modify fun s => { s with state := .quit }
    emit .quit

/-- Initial values of the locals of the routine at `a`, and the address of its first instruction.
Up to version 4 the values are written down, one word for each local. -/
def routineHeader (m : Memory) (version a : Nat) : Except Fault (List Word × Nat) := do
  let count := (← m.readByte a).toNat
  if maxLocals < count then throw (.invalidRoutine a)
  if version ≤ 4 then
    let defaults ← (List.range count).mapM fun i => (m.readWord (a + 1 + i * 2) : Except Fault Word)
    return (defaults, a + 1 + count * 2)
  else return (List.replicate count 0, a + 1)

/-- Add a frame for the routine at `a`; returns the address of its first instruction. -/
def enterFrame (a : Nat) (args : List Word) (store : Option Variable) (returnAddress : Nat) :
    MachineM Nat := do
  let version := (← get).header.version
  let (defaults, entry) ← ask fun m => routineHeader m version a
  onStack fun stack =>
    stack.pushFrame (.enter a returnAddress store defaults args stack.size)
  modify fun s => { s with code := s.code.recordCall a }
  return entry

/-- Call the routine at `a`. -/
def callRoutine (a : Nat) (args : List Word) (store : Option Variable) (returnAddress : Nat) :
    MachineM Unit := do
  jumpTo (← enterFrame a args store returnAddress)
  emit (.entered a returnAddress)

/-- Call the routine at a packed address.  Address 0 yields 0 at once. -/
def callPacked (packed : Word) (args : List Word) (store : Option Variable)
    (returnAddress : Nat) : MachineM Unit := do
  if packed = 0 then
    match store with
    | some v => writeVariable v 0
    | none => return ()
  else callRoutine ((← get).header.routineAddress packed) args store returnAddress

/-- Take the newest frame. -/
def leaveFrame : MachineM Frame := do
  let (frame, stack) ← (← get).stack.popFrame
  modify fun s => { s with stack }
  return frame

/-- Return a value from the running routine.  The story is over when its main routine returns. -/
def returnFrom (w : Word) : MachineM Unit := do
  let s ← get
  -- To be told before the frame is gone.
  let mainReturn := decide (s.stack.depth ≤ 1) && s.nested == 0
  let frame ← leaveFrame
  modify fun s => { s with lastReturn := some w }
  emit (.exited frame.address frame.returnAddress)
  if mainReturn then quit
  else
    -- The caller goes on also if the result cannot be stored.
    jumpTo frame.returnAddress
    match frame.store with
    | some v => writeVariable v w
    | none => return ()

/-- Enter a routine that runs as compiled code. -/
def enterCompiled (a : Nat) (args : List Word) : MachineM Unit := do
  let returnAddress := (← get).pc
  discard <| enterFrame a args none returnAddress
  emit (.entered a returnAddress)

/-- Leave a routine that ran as compiled code. -/
def leaveCompiled (w : Word) : MachineM Unit := do
  let frame ← leaveFrame
  modify fun s => { s with lastReturn := some w }
  emit (.exited frame.address frame.returnAddress)

/-- Take frames until only `depth` are left. -/
def unwindTo (depth : Nat) : Nat → MachineM Unit
  | 0 => return ()
  | bound + 1 => do
      if depth < (← get).stack.depth then
        let frame ← leaveFrame
        emit (.exited frame.address frame.returnAddress)
        unwindTo depth bound

/-- Return a value from the routine whose frame a token names, and from all that it called. -/
def throwTo (w token : Word) : MachineM Unit := do
  let depth := (← get).stack.depth
  if token = 0 ∨ depth < token.toNat then throw (.invalidThrow token)
  unwindTo token.toNat depth
  returnFrom w

/-- Describe the interpreter and its screen in the header. -/
def describeInterpreter (version : Nat) (o : MachineOptions) : MemoryM Unit := do
  MemoryM.writeByte HeaderField.interpreterNumber o.interpreterNumber
  MemoryM.writeByte HeaderField.interpreterVersion o.interpreterVersion
  if version ≤ 3 then
    let flags ← MemoryM.readByte HeaderField.flags1
    -- A status line and a divided screen are offered.
    MemoryM.writeByte HeaderField.flags1 ((flags &&& ~~~0x10) ||| 0x20)
  else
    MemoryM.writeByte HeaderField.screenHeight o.screenHeight
    MemoryM.writeByte HeaderField.screenWidth o.screenWidth
  if 5 ≤ version then
    MemoryM.writeWord HeaderField.screenWidthUnits o.screenWidth.toUInt16
    MemoryM.writeWord HeaderField.screenHeightUnits o.screenHeight.toUInt16
    MemoryM.writeByte HeaderField.fontWidth 1
    MemoryM.writeByte HeaderField.fontHeight 1
  MemoryM.writeWord HeaderField.standardRevision 0x0101

/-- Enter the main routine with an empty stack.  In version 6 it is called; in the others the
header names its first instruction. -/
def start : MachineM Unit := do
  modify fun s =>
    { s with
      stack := s.stack.clear, nested := 0, lastReturn := none, state := .running
      code := s.code.recordCall s.header.mainRoutine }
  let h := (← get).header
  if h.version = 6 then callRoutine h.mainRoutine [] none 0
  else
    onStack fun stack => stack.pushFrame (.enter h.mainRoutine 0 none [] [] 0)
    jumpTo h.initialPc.toNat

/-- Bits of the second flags of the header that outlive a restart. -/
def keptFlags : Word := 3

/-- Begin anew with the image as it was loaded. -/
def restart : MachineM Unit := do
  let kept := (← ask (·.readWord HeaderField.flags2)) &&& keptFlags
  let pristine := (← get).pristine
  -- Observers of the image are not told of the reload.
  let reloaded ← ask (·.reload pristine.toList)
  modify fun s => { s with memory := reloaded }
  let flags ← ask (·.readWord HeaderField.flags2)
  inMemory (MemoryM.writeWord HeaderField.flags2 ((flags &&& ~~~keptFlags) ||| kept))
  modify fun s =>
    { s with
      code := {
        decoded := s.code.decoded.clear
        routines := (s.code.routines.invalidate 0 s.header.staticMemoryBase.toNat).2 }
      streams := {} }
  let s ← get
  inMemory (describeInterpreter s.header.version s.options)
  start

/-- Load a story. -/
def load (image : Array Byte) (options : MachineOptions) (host : Host) : Except Fault Machine := do
  let memory := Memory.ofBytes image
  let header ← Header.read memory
  let text ← TextTables.read memory header
  let machine : Machine :=
    { memory, header, options, text, host
      pristine := image
      objects := .ofHeader memory header
      code := {
        decoded := { version := header.version, floor := header.staticMemoryBase.toNat }
        routines := { main := header.mainRoutine } }
      stack := { capacity := options.stackSize }
      random := .start options.seed options.entropy }
  let begin : MachineM Unit := do
    inMemory (describeInterpreter header.version options)
    start
  match begin machine with
  | .ok _ s => return s
  | .error e _ => throw e

end Machine
end ZMachine
