/-
  The engine: a machine whose routines run as compiled code.

  A routine is compiled when it is called for the first time.  Routines that
  cannot be compiled, or hold opcodes that are left to the interpreter, are
  interpreted if the engine may fall back, and are faults otherwise.  A
  routine whose bytes were changed is forgotten at the next call.  Every call
  looks for a stop request first.
-/
import Std.Data.HashMap
import ZMachine.Compile.Run
import ZMachine.Compile.Routine
import ZMachine.Machine.Run

namespace ZMachine

/-- How a routine is run. -/
inductive Tier where
  | compiled (code : Code) (statistics : CompileStatistics)
  | interpreted
deriving Inhabited

/-- What an engine has done. -/
structure EngineCounts where
  /-- Routines compiled. -/
  compiled : Nat := 0
  /-- Routines that could not be compiled. -/
  compileErrors : Nat := 0
  /-- Routines left to the interpreter. -/
  interpretedRoutines : Nat := 0
  /-- Calls of compiled code. -/
  nativeCalls : Nat := 0
  /-- Calls that were interpreted. -/
  interpretedCalls : Nat := 0
  /-- Calls of compiled code that ended in a fault. -/
  faults : Nat := 0
  /-- Routines forgotten because the story changed them. -/
  evicted : Nat := 0
deriving DecidableEq, Repr, Inhabited

/-- A machine and the compiled code of its routines. -/
structure Engine where
  machine : Machine
  /-- Routines prepared so far, by address. -/
  tiers : Std.HashMap Nat Tier := {}
  /-- Texts that compiled code prints. -/
  literals : List String := []
  /-- Whether the interpreter may take over. -/
  fallback : Bool := true
  counts : EngineCounts := {}
deriving Inhabited

/-- A run of the engine. -/
abbrev EngineM := EStateM Halt Engine

namespace Engine

/-- Let the machine act. -/
def onMachine {α : Type} (x : RunM α) : EngineM α := fun e =>
  let machine := e.machine
  -- Taken out of the engine, so that the machine is not shared while it acts.
  let e := { e with machine := default }
  match x machine with
  | .ok a s => .ok a { e with machine := s }
  | .error h s => .error h { e with machine := s }

/-- Let the machine act, without a bound. -/
def act {α : Type} (x : MachineM α) : EngineM α := onMachine (liftM x)

/-- Change the counts. -/
def count (f : EngineCounts → EngineCounts) : EngineM Unit :=
  modify fun e => { e with counts := f e.counts }

/-- Whether the routine at an address has compiled code. -/
def isCompiled (e : Engine) (a : Nat) : Bool :=
  match e.tiers[a]? with
  | some (.compiled ..) => true
  | _ => false

/-- Place statistics in ascending order of addresses. -/
def placeStatistics (s : CompileStatistics) : List CompileStatistics → List CompileStatistics
  | [] => [s]
  | t :: rest => if s.address ≤ t.address then s :: t :: rest else t :: placeStatistics s rest

/-- Statistics of the compiled routines, in ascending order of addresses. -/
def statistics (e : Engine) : List CompileStatistics :=
  e.tiers.fold
    (fun all _ tier =>
      match tier with
      | .compiled _ s => placeStatistics s all
      | .interpreted => all) []

/-- Forget the routine at an address. -/
def evict (a : Nat) : EngineM Unit :=
  modify fun e =>
    if e.tiers.contains a then
      { e with
        tiers := e.tiers.erase a
        counts := { e.counts with evicted := e.counts.evicted + 1 } }
    else e

/-- Forget the routines whose bytes were changed. -/
def evictStale : EngineM Unit := do
  let stale ← act fun s =>
    let (stale, routines) := s.code.routines.takeStale
    .ok stale { s with code := { s.code with routines } }
  stale.forM evict

/-- Find the routine at an address and all that it calls. -/
def discover (a : Nat) : MachineM Routine := fun s =>
  match s.code.discover s.memory s.header a with
  | .ok r code => .ok r { s with code }
  | .error f code => .error f { s with code }

/-- Leave the routine at an address to the interpreter. -/
def leaveToInterpreter (a : Nat) : EngineM Tier := do
  count fun c => { c with interpretedRoutines := c.interpretedRoutines + 1 }
  modify fun e => { e with tiers := e.tiers.insert a .interpreted }
  return .interpreted

/-- Compile a routine. -/
def compileRoutine (r : Routine) : EngineM (Except CompileError (Code × CompileStatistics)) :=
  fun e =>
    let s := e.machine
    match compile { memory := s.memory, header := s.header, tables := s.text } true r
      e.literals with
    | .ok result literals => .ok (.ok result) { e with literals }
    | .error error literals => .ok (.error error) { e with literals }

/-- How the routine at an address is to be run. -/
def prepare (a : Nat) : EngineM Tier := do
  evictStale
  match (← get).tiers[a]? with
  | some tier => return tier
  | none =>
      let r ← act (discover a)
      let fallback := (← get).fallback
      if fallback && (Needs.scan r).interpreterOnly.isSome then leaveToInterpreter a
      else
        match ← compileRoutine r with
        | .ok (code, statistics) =>
            count fun c => { c with compiled := c.compiled + 1 }
            let tier := Tier.compiled code statistics
            modify fun e => { e with tiers := e.tiers.insert a tier }
            return tier
        | .error error =>
            count fun c => { c with compileErrors := c.compileErrors + 1 }
            if fallback then leaveToInterpreter a
            else throw (.fault (.compileFailed a error.message))

/-- Print a text of the pool. -/
def printLiteral (id : Nat) : EngineM Unit := do
  match (← get).literals[id]? with
  | some text => act (Machine.print text)
  | none => throw (.fault (.noLiteral id))

/-- Read a line, which the host must have at hand. -/
def readLine (textBuffer parseBuffer : Word) : MachineM Word := do
  Machine.showStatus
  match ← Machine.hostLine (← Machine.lineCapacity textBuffer.toNat) with
  | some line => Machine.finishLine textBuffer.toNat parseBuffer.toNat line
  | none => throw .inputUnavailable

/-- Read a key press, which the host must have at hand. -/
def readChar : MachineM Word := do
  match ← Machine.hostChar with
  | some c => Machine.finishChar c
  | none => throw .inputUnavailable

/-- The result of a call; the end of the story ends the caller as well. -/
def resultOf (result : Option Word) : EngineM Word :=
  match result with
  | some w => return w
  | none => throw .quit

/-- The helpers of compiled code, where `invoke` runs a routine. -/
def helpers (invoke : Nat → List Word → EngineM (Option Word)) : Helpers EngineM where
  trap f := throw (.fault f)
  exhausted := throw .exhausted
  push w := act (Machine.push w)
  pop := act Machine.pop
  peek := act (Machine.peekVariable .stack)
  replaceTop w := act (Machine.replaceVariable .stack w)
  readGlobal i := act (Machine.readGlobal i)
  writeGlobal i w := act (Machine.writeGlobal i w)
  perform opcode args := act (Machine.perform opcode args)
  call a args := do resultOf (← invoke a args)
  callPacked packed args := do
    if packed = 0 then return 0
    let header := (← get).machine.header
    resultOf (← invoke (header.routineAddress packed) args)
  print id := printLiteral id
  readLine textBuffer parseBuffer := act (readLine textBuffer parseBuffer)
  readChar := act readChar
  quit := do
    act Machine.quit
    throw .quit

/-- The end of compiled code: its frame is left if it returned, and stays otherwise.  Every fault is
counted, a stop request is none. -/
def finishCompiled (x : EngineM Word) : EngineM (Option Word) := fun e =>
  match x e with
  | .ok w e => (do act (Machine.leaveCompiled w); return some w : EngineM (Option Word)) e
  | .error .quit e => (do act Machine.quit; return none : EngineM (Option Word)) e
  | .error .exhausted e => .error .exhausted e
  | .error .miscounted e => .error .miscounted e
  | .error (.fault f) e =>
      if f = .interrupted then .error (.fault f) e
      else .error (.fault f) { e with counts := { e.counts with faults := e.counts.faults + 1 } }

/-- Run the routine at an address to its end and return its result; nothing if the story was over
before.  Address 0 yields 0.  The bound limits the depth of calls, the blocks of every routine and
the instructions of an interpreted one. -/
def invoke : Nat → Nat → List Word → EngineM (Option Word)
  | 0, _, _ => throw .exhausted
  | bound + 1, a, args => do
      if (← get).machine.host.interrupted then throw (.fault .interrupted)
      if a = 0 then return some 0
      match ← prepare a with
      | .interpreted =>
          count fun c => { c with interpretedCalls := c.interpretedCalls + 1 }
          onMachine (Machine.runRoutine bound a args)
      | .compiled code _ =>
          -- The frame is there before the call counts.
          let args := args.take Helpers.maxArguments
          act (Machine.enterCompiled a args)
          count fun c => { c with nativeCalls := c.nativeCalls + 1 }
          finishCompiled ((helpers (fun a args => invoke bound a args)).runCode code bound args)

end Engine

end ZMachine
